import Os1.Mm.PageOps

/-!
# Destroying a slot

The recursion of `destroy_table` goes one level below the leaf entries: it treats a mapped page
as a last table, clears its words and frees the frames they name.
-/

namespace Os1

open VirtualMemory

namespace Memory

/-- `m'` is `m` with the bytes of `R` cleared. -/
structure Clears (R : Nat → Prop) (m m' : Memory) : Prop where
  zero : ∀ x, R x → m' x = 0#8
  keep : ∀ x, ¬ R x → m' x = m x

variable {m m' m'' : Memory} {R S : Nat → Prop} {a : Nat}

theorem Clears.refl (h : ∀ x, R x → m x = 0#8) : Clears R m m := ⟨h, fun _ _ => rfl⟩

theorem Clears.trans (h : Clears R m m') (h' : Clears S m' m'') :
    Clears (fun x => R x ∨ S x) m m'' := by
  refine ⟨fun x hx => ?_, fun x hx => ?_⟩
  · by_cases hs : S x
    · exact h'.zero x hs
    · rw [h'.keep x hs]
      exact h.zero x (hx.resolve_right hs)
  · rw [h'.keep x (fun hs => hx (Or.inr hs)), h.keep x (fun hr => hx (Or.inl hr))]

theorem Clears.congr (h : Clears R m m') (hRS : ∀ x, R x ↔ S x) : Clears S m m' :=
  ⟨fun x hx => h.zero x ((hRS x).mpr hx), fun x hx => h.keep x (fun hr => hx ((hRS x).mp hr))⟩

theorem clears_store64_zero (m : Memory) (a : Nat) :
    Clears (fun x => a ≤ x ∧ x < a + 8) m (m.store64 a 0#64) := by
  rw [store64_zero]
  exact ⟨fun _ hx => fill_apply_of_mem hx, fun _ hx => fill_apply_of_not_mem hx⟩

theorem Clears.load64_keep (h : Clears R m m') (ha : ∀ x, a ≤ x → x < a + 8 → ¬ R x) :
    m'.load64 a = m.load64 a :=
  load64_congr (fun x h1 h2 => h.keep x (ha x h1 h2))

end Memory

open Memory

/-! ## The frames below an entry -/

/-- The frames below an entry in the order in which they are freed: `l` levels of tables and the
mapped pages. -/
def subFrames (m : Memory) : (l : Nat) → BitVec 64 → List Nat
  | 0, e => if e = 0#64 then [] else [entryAddress e]
  | l + 1, e =>
    if e = 0#64 then []
    else (List.range 512).flatMap (fun i => subFrames m l (m.load64 (entryAddress e + 8 * i))) ++
      [entryAddress e]

/-- The byte lies in one of the frames. -/
def InPages (F : List Nat) (x : Nat) : Prop := ∃ f ∈ F, f ≤ x ∧ x < f + kPageSize

/-- Distinct page frames, none of which holds the entry. -/
structure Separated (F : List Nat) (entry : Nat) : Prop where
  nodup : F.Nodup
  aligned : ∀ f ∈ F, f % kPageSize = 0
  apart : ∀ x, entry ≤ x → x < entry + 8 → ¬ InPages F x

/-- Give a frame back. -/
def release (frames : PageFrameContainer) (a : Nat) : PageFrameContainer := (frames.free a).2

variable {m m' : Memory} {vm vm' : VirtualMemory} {l entry i n t : Nat} {e : BitVec 64}
  {F G : List Nat} {x : Nat}

theorem inPages_append : InPages (F ++ G) x ↔ InPages F x ∨ InPages G x := by
  simp [InPages, or_and_right, exists_or]

theorem inPages_nil : ¬ InPages [] x := by simp [InPages]

theorem inPages_singleton : InPages [t] x ↔ t ≤ x ∧ x < t + kPageSize := by simp [InPages]

/-- Page frames that are different do not overlap. -/
theorem not_inPages_of_disjoint (hF : ∀ f ∈ F, f % kPageSize = 0) (hG : ∀ f ∈ G, f % kPageSize = 0)
    (hd : ∀ f ∈ F, f ∉ G) (hx : InPages F x) : ¬ InPages G x := by
  obtain ⟨f, hf, h1, h2⟩ := hx
  rintro ⟨g, hg, h3, h4⟩
  have hf0 := hF f hf
  have hg0 := hG g hg
  have : f = g := by
    unfold kPageSize at *
    omega
  exact hd f hf (this ▸ hg)

/-- The bytes of the words of a table below index `i`. -/
def InWords (t i x : Nat) : Prop := t ≤ x ∧ x < t + 8 * i

theorem inWords_succ :
    InWords t (i + 1) x ↔ InWords t i x ∨ (t + 8 * i ≤ x ∧ x < t + 8 * i + 8) := by
  unfold InWords
  omega

theorem inWords_page : InWords t 512 x ↔ InPages [t] x := by
  rw [inPages_singleton]
  unfold InWords kPageSize
  omega

theorem subFrames_zero : subFrames m l 0#64 = [] := by
  cases l <;> simp [subFrames]

theorem subFrames_succ (he : e ≠ 0#64) : subFrames m (l + 1) e =
    (List.range 512).flatMap (fun i => subFrames m l (m.load64 (entryAddress e + 8 * i))) ++
      [entryAddress e] := by
  rw [subFrames, if_neg he]

theorem entryAddress_mem_subFrames (he : e ≠ 0#64) : entryAddress e ∈ subFrames m l e := by
  cases l with
  | zero => simp [subFrames, he]
  | succ l => simp [subFrames_succ he]

theorem mem_subFrames_of_child (he : e ≠ 0#64) (hi : i < 512) {f : Nat}
    (hf : f ∈ subFrames m l (m.load64 (entryAddress e + 8 * i))) : f ∈ subFrames m (l + 1) e := by
  rw [subFrames_succ he]
  exact List.mem_append_left _ (List.mem_flatMap.mpr ⟨i, List.mem_range.mpr hi, hf⟩)

theorem inPages_mono (h : ∀ f ∈ F, f ∈ G) (hx : InPages F x) : InPages G x := by
  obtain ⟨f, hf, hfx⟩ := hx
  exact ⟨f, h f hf, hfx⟩

theorem load64_table_congr (h : ∀ x, InPages [t] x → m' x = m x) (hi : i < 512) :
    m'.load64 (t + 8 * i) = m.load64 (t + 8 * i) := by
  apply load64_congr
  intro x h1 h2
  exact h x (inPages_singleton.mpr (by unfold kPageSize; omega))

theorem subFrames_succ_congr (h : ∀ x, InPages [entryAddress e] x → m' x = m x)
    (hchild : ∀ i < 512, subFrames m' l (m.load64 (entryAddress e + 8 * i)) =
      subFrames m l (m.load64 (entryAddress e + 8 * i))) :
    subFrames m' (l + 1) e = subFrames m (l + 1) e := by
  by_cases he : e = 0#64
  · rw [he, subFrames_zero, subFrames_zero]
  rw [subFrames_succ he, subFrames_succ he, List.flatMap_congr]
  intro i hi
  have hi := List.mem_range.mp hi
  rw [load64_table_congr h hi, hchild i hi]

/-- The frames below an entry, and those that its pages name, depend only on memory in the frames
below it. -/
theorem subFrames_congr (h : ∀ x, InPages (subFrames m l e) x → m' x = m x) :
    subFrames m' l e = subFrames m l e ∧ subFrames m' (l + 1) e = subFrames m (l + 1) e := by
  induction l generalizing e with
  | zero =>
    refine ⟨rfl, ?_⟩
    by_cases he : e = 0#64
    · rw [he, subFrames_zero, subFrames_zero]
    · exact subFrames_succ_congr (fun x hx => h x (inPages_mono (by
        simpa using entryAddress_mem_subFrames he) hx)) fun _ _ => rfl
  | succ l ih =>
    by_cases he : e = 0#64
    · simp only [he, subFrames_zero, and_self]
    have htable : ∀ x, InPages [entryAddress e] x → m' x = m x :=
      fun x hx => h x (inPages_mono (by simpa using entryAddress_mem_subFrames he) hx)
    have hchild := fun i (hi : i < 512) => ih (e := m.load64 (entryAddress e + 8 * i))
      fun x hx => h x (inPages_mono (fun f hf => mem_subFrames_of_child he hi hf) hx)
    exact ⟨subFrames_succ_congr htable fun i hi => (hchild i hi).1,
      subFrames_succ_congr htable fun i hi => (hchild i hi).2⟩

/-! ## The loops -/

/-- The last two statements of `destroy_table`. -/
def finishTable (vm : VirtualMemory) (entry : Nat) : VirtualMemory :=
  { vm with
    frames := release vm.frames (entryAddress (vm.mem.load64 entry))
    mem := vm.mem.store64 entry 0#64 }

theorem destroyTable_zero {level : Nat} {b : Bool} (he : vm.mem.load64 entry = 0#64) :
    destroyTable level b entry vm = vm := by
  rw [destroyTable, if_pos he]

theorem destroyTable_page (he : vm.mem.load64 entry ≠ 0#64)
    (ht : entryAddress (vm.mem.load64 entry) = t) :
    destroyTable 1 true entry vm =
      finishTable ((List.range 512).foldl (fun s i => s.releaseWord (t + 8 * i)) vm) entry := by
  rw [destroyTable, if_neg he, ← ht]
  rfl

/-- One turn of the loop over the entries of a table. -/
def destroyChild (level : Nat) (t : Nat) (vm : VirtualMemory) (i : Nat) : VirtualMemory :=
  if vm.mem.load64 (t + 8 * i) = 0#64 then vm else destroyTable level true (t + 8 * i) vm

theorem destroyChild_eq (level t : Nat) (vm : VirtualMemory) (i : Nat) :
    destroyChild level t vm i = destroyTable level true (t + 8 * i) vm := by
  unfold destroyChild
  split
  · rename_i h0
    rw [destroyTable_zero h0]
  · rfl

theorem destroyTable_table (he : vm.mem.load64 entry ≠ 0#64)
    (ht : entryAddress (vm.mem.load64 entry) = t) : destroyTable (l + 2) true entry vm =
      finishTable ((List.range 512).foldl (destroyChild (l + 1) t) vm) entry := by
  rw [destroyTable, if_neg he, ← ht]
  rfl

/-! ## What destroying does -/

/-- From `vm` to `vm'` the bytes of `R` are cleared and the frames of `F` are given back, in this
order. -/
structure Destroys (F : List Nat) (R : Nat → Prop) (vm vm' : VirtualMemory) : Prop where
  mem : Clears R vm.mem vm'.mem
  frames : vm'.frames = F.foldl release vm.frames
  root : vm'.root = vm.root
  initialized : vm'.initialized = vm.initialized

theorem Destroys.refl {R : Nat → Prop} (h : ∀ x, R x → vm.mem x = 0#8) : Destroys [] R vm vm :=
  ⟨Clears.refl h, rfl, rfl, rfl⟩

theorem Destroys.trans {R S T : Nat → Prop} {vm'' : VirtualMemory} (h : Destroys F R vm vm')
    (h' : Destroys G S vm' vm'') (hT : ∀ x, R x ∨ S x ↔ T x) : Destroys (F ++ G) T vm vm'' :=
  ⟨(h.mem.trans h'.mem).congr hT, by rw [h'.frames, h.frames, List.foldl_append],
    h'.root.trans h.root, h'.initialized.trans h.initialized⟩

theorem Destroys.finish {R S : Nat → Prop} (h : Destroys F R vm vm')
    (hentry : ∀ x, entry ≤ x → x < entry + 8 → ¬ R x)
    (hS : ∀ x, R x ∨ (entry ≤ x ∧ x < entry + 8) ↔ S x) :
    Destroys (F ++ [entryAddress (vm.mem.load64 entry)]) S vm (finishTable vm' entry) := by
  refine h.trans ⟨clears_store64_zero vm'.mem entry, ?_, rfl, rfl⟩ hS
  rw [finishTable, h.mem.load64_keep hentry]
  rfl

/-- The loop over the words of a mapped page clears them and gives back the frames they name. -/
theorem releaseWords_spec (t n : Nat) (vm : VirtualMemory) :
    Destroys ((List.range n).flatMap fun i => subFrames vm.mem 0 (vm.mem.load64 (t + 8 * i)))
      (InWords t n) vm ((List.range n).foldl (fun s i => s.releaseWord (t + 8 * i)) vm) := by
  induction n with
  | zero => exact Destroys.refl fun x hx => by unfold InWords at hx; omega
  | succ n ih =>
    rw [List.range_succ, List.foldl_append, List.foldl_cons, List.foldl_nil, List.flatMap_append,
      List.flatMap_singleton]
    generalize (List.range n).foldl (fun s i => s.releaseWord (t + 8 * i)) vm = s at ih ⊢
    have hword : s.mem.load64 (t + 8 * n) = vm.mem.load64 (t + 8 * n) :=
      ih.mem.load64_keep (fun x h1 _ hx => by unfold InWords at hx; omega)
    refine ih.trans ?_ (fun _ => inWords_succ.symm)
    rw [releaseWord, subFrames, ← hword]
    split
    · rename_i h0
      exact Destroys.refl fun x hx => eq_zero_of_load64 h0 x hx.1 hx.2
    · exact ⟨clears_store64_zero _ _, rfl, rfl, rfl⟩

section Children

variable {sub : Nat → List Nat}

theorem nodup_children (h : ((List.range 512).flatMap sub ++ [t]).Nodup) :
    (∀ i < 512, (sub i).Nodup ∧ t ∉ sub i) ∧
      ∀ k i, k < i → i < 512 → ∀ f ∈ sub i, f ∉ sub k := by
  obtain ⟨hflat, -, hdis⟩ := List.nodup_append.mp h
  obtain ⟨hsub, hpair⟩ := List.nodup_flatMap.mp hflat
  refine ⟨fun i hi => ⟨hsub i (List.mem_range.mpr hi), fun ht => ?_⟩, fun k i hki hi f hf hk => ?_⟩
  · exact hdis t (List.mem_flatMap.mpr ⟨i, List.mem_range.mpr hi, ht⟩) t (by simp) rfl
  · have := List.pairwise_iff_getElem.mp hpair k i (by simp; omega) (by simpa using hi) hki
    rw [List.getElem_range, List.getElem_range] at this
    exact this hk hf

/-- What the turns before turn `n` clear meets neither word `n` of the table nor the frames below
it. -/
theorem children_apart (hnd : ((List.range 512).flatMap sub ++ [t]).Nodup)
    (hal : ∀ f ∈ (List.range 512).flatMap sub ++ [t], f % kPageSize = 0) (hn : n < 512) :
    (∀ x, t + 8 * n ≤ x → x < t + 8 * n + 8 →
      ¬ (InWords t n x ∨ InPages ((List.range n).flatMap sub) x)) ∧
    (∀ x, InPages (sub n) x → ¬ (InWords t n x ∨ InPages ((List.range n).flatMap sub) x)) ∧
    Separated (sub n) (t + 8 * n) := by
  obtain ⟨hself, hcross⟩ := nodup_children hnd
  have halt : ∀ f ∈ [t], f % kPageSize = 0 := fun f hf => hal f (List.mem_append_right _ hf)
  have hali : ∀ i < 512, ∀ f ∈ sub i, f % kPageSize = 0 := fun i hi f hf =>
    hal f (List.mem_append_left _ (List.mem_flatMap.mpr ⟨i, List.mem_range.mpr hi, hf⟩))
  have hpage : ∀ x, InPages [t] x → ∀ k < 512, ¬ InPages (sub k) x := by
    intro x hx k hk
    refine not_inPages_of_disjoint halt (hali k hk) (fun f hf hmem => ?_) hx
    rw [List.mem_singleton.mp hf] at hmem
    exact (hself k hk).2 hmem
  have hwordpage : ∀ x, t + 8 * n ≤ x → x < t + 8 * n + 8 → InPages [t] x := by
    intro x h1 h2
    exact inPages_singleton.mpr (by unfold kPageSize; omega)
  refine ⟨fun x h1 h2 hor => ?_, fun x hx hor => ?_, (hself n hn).1, hali n hn,
    fun x h1 h2 hx => hpage x (hwordpage x h1 h2) n hn hx⟩
  · rcases hor with hw | ⟨f, hf, hfx⟩
    · unfold InWords at hw
      omega
    · obtain ⟨k, hk, hf⟩ := List.mem_flatMap.mp hf
      have hkn := List.mem_range.mp hk
      exact hpage x (hwordpage x h1 h2) k (by omega) ⟨f, hf, hfx⟩
  · rcases hor with hw | ⟨f, hf, hfx⟩
    · refine hpage x (inPages_singleton.mpr ?_) n hn hx
      unfold InWords at hw
      unfold kPageSize
      omega
    · obtain ⟨k, hk, hf⟩ := List.mem_flatMap.mp hf
      have hkn := List.mem_range.mp hk
      exact not_inPages_of_disjoint (hali n hn) (hali k (by omega)) (hcross k n hkn hn) hx
        ⟨f, hf, hfx⟩

/-- Turn `n` finds its word and the frames below it as they were before the loop. -/
theorem children_turn (hsub : ∀ i, sub i = subFrames m l (m.load64 (t + 8 * i)))
    (hnd : ((List.range 512).flatMap sub ++ [t]).Nodup)
    (hal : ∀ f ∈ (List.range 512).flatMap sub ++ [t], f % kPageSize = 0) (hn : n < 512)
    (hm : Clears (fun x => InWords t n x ∨ InPages ((List.range n).flatMap sub) x) m m') :
    subFrames m' l (m'.load64 (t + 8 * n)) = sub n ∧
      subFrames m' (l + 1) (m'.load64 (t + 8 * n)) =
        subFrames m (l + 1) (m.load64 (t + 8 * n)) ∧ Separated (sub n) (t + 8 * n) := by
  obtain ⟨hwords, hbelow, hsep⟩ := children_apart hnd hal hn
  have hkeep : ∀ x, InPages (subFrames m l (m.load64 (t + 8 * n))) x → m' x = m x :=
    fun x hx => hm.keep x (hbelow x (by rwa [hsub n]))
  obtain ⟨h1, h2⟩ := subFrames_congr hkeep
  rw [hm.load64_keep hwords, h1, h2]
  exact ⟨(hsub n).symm, rfl, hsep⟩

end Children

/-- `destroy_table` at `l` levels of tables above the pages clears the frames below the entry and
gives them back with those that the words of its pages name. -/
def TableSpec (l : Nat) : Prop :=
  ∀ vm entry, Separated (subFrames vm.mem l (vm.mem.load64 entry)) entry →
    Destroys (subFrames vm.mem (l + 1) (vm.mem.load64 entry))
      (fun x => (entry ≤ x ∧ x < entry + 8) ∨ InPages (subFrames vm.mem l (vm.mem.load64 entry)) x)
      vm (destroyTable (l + 1) true entry vm)

/-- The loop over the entries of a table destroys what lies below the first `n` of them. -/
theorem destroyChildren_spec (hspec : TableSpec l) {sub : Nat → List Nat}
    (hsub : ∀ i, sub i = subFrames vm.mem l (vm.mem.load64 (t + 8 * i)))
    (hnd : ((List.range 512).flatMap sub ++ [t]).Nodup)
    (hal : ∀ f ∈ (List.range 512).flatMap sub ++ [t], f % kPageSize = 0) (n : Nat) (hn : n ≤ 512) :
    Destroys ((List.range n).flatMap fun i => subFrames vm.mem (l + 1) (vm.mem.load64 (t + 8 * i)))
      (fun x => InWords t n x ∨ InPages ((List.range n).flatMap sub) x) vm
      ((List.range n).foldl (destroyChild (l + 1) t) vm) := by
  induction n with
  | zero =>
    refine Destroys.refl fun x hx => ?_
    rcases hx with hx | hx
    · unfold InWords at hx
      omega
    · simp [InPages] at hx
  | succ n ih =>
    have ih := ih (by omega)
    rw [List.range_succ, List.foldl_append, List.foldl_cons, List.foldl_nil, List.flatMap_append,
      List.flatMap_singleton, destroyChild_eq]
    generalize (List.range n).foldl (destroyChild (l + 1) t) vm = s at ih ⊢
    obtain ⟨hframes, hbelow, hsep⟩ := children_turn hsub hnd hal (by omega) ih.mem
    have hturn := hspec s (t + 8 * n) (by rwa [hframes])
    rw [hframes, hbelow] at hturn
    refine ih.trans hturn (fun x => ?_)
    rw [inWords_succ, List.flatMap_append, List.flatMap_singleton, inPages_append]
    exact or_or_or_comm

theorem tableSpec (l : Nat) : TableSpec l := by
  induction l with
  | zero =>
    intro vm entry hsep
    by_cases he : vm.mem.load64 entry = 0#64
    · rw [he, subFrames_zero, subFrames_zero, destroyTable_zero he]
      exact Destroys.refl fun x hx =>
        eq_zero_of_load64 he x (hx.resolve_right inPages_nil).1 (hx.resolve_right inPages_nil).2
    · have hF : subFrames vm.mem 0 (vm.mem.load64 entry) =
          [entryAddress (vm.mem.load64 entry)] := by
        simp [subFrames, he]
      rw [hF] at hsep ⊢
      rw [destroyTable_page he rfl, subFrames_succ he]
      refine (releaseWords_spec (entryAddress (vm.mem.load64 entry)) 512 vm).finish
        (fun x h1 h2 hx => hsep.apart x h1 h2 (inWords_page.mp hx)) (fun x => ?_)
      rw [inWords_page]
      exact or_comm
  | succ l ih =>
    intro vm entry hsep
    by_cases he : vm.mem.load64 entry = 0#64
    · rw [he, subFrames_zero, subFrames_zero, destroyTable_zero he]
      exact Destroys.refl fun x hx =>
        eq_zero_of_load64 he x (hx.resolve_right inPages_nil).1 (hx.resolve_right inPages_nil).2
    · rw [subFrames_succ he] at hsep
      rw [destroyTable_table he rfl, subFrames_succ he, subFrames_succ (l := l) he]
      refine (destroyChildren_spec ih (fun _ => rfl) hsep.nodup hsep.aligned 512 (by decide)).finish
        (fun x h1 h2 hx => hsep.apart x h1 h2 ?_) (fun x => ?_)
      · rw [inPages_append, ← inWords_page]
        exact hx.symm
      · rw [inPages_append, inWords_page]
        exact ⟨fun h => h.elim (fun h => Or.inr h.symm) Or.inl,
          fun h => h.elim Or.inr (fun h => Or.inl h.symm)⟩

end Os1
