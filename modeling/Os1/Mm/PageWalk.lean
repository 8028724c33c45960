import Os1.Mm.PageTable

/-! What a walk does to the tree: it may add tables, and changes no mapping. -/
namespace Os1.VirtualMemory

open PageFrameContainer

variable {slots : Nat → Prop} {vm vm' vm'' : VirtualMemory} {q q' : List Nat} {g j k a n : Nat}
  {e : BitVec 64} {d d' : Nat}

/-- The byte lies in a table of the first `d + 1` levels. -/
def InTable (slots : Nat → Prop) (d : Nat) (vm : VirtualMemory) (x : Nat) : Prop :=
  ∃ q g, InSlots slots q ∧ q.length ≤ d ∧ vm.tables q = some g ∧ g ≤ x ∧ x < g + kPageSize

/-- `vm'` is `vm` with more tables in the first `d + 1` levels, taken from free frames. -/
structure Grows (slots : Nat → Prop) (d : Nat) (vm vm' : VirtualMemory) : Prop where
  depth : d ≤ 3
  shape : SameShape vm.frames vm'.frames
  kept : ∀ n, vm'.frames.isFree n = true → vm.frames.isFree n = true
  taken : ∀ n, vm.frames.isFree n = true → vm'.frames.isFree n = false →
    ∃ q, InSlots slots q ∧ q.length ≤ d ∧ vm'.tables q = some (n * kPageSize)
  fresh : ∀ q g, InSlots slots q → q.length ≤ 3 → vm'.tables q = some g → vm.tables q = some g ∨
    ∃ n, g = n * kPageSize ∧ vm.frames.isFree n = true
  tables : ∀ q g, InSlots slots q → q.length ≤ 3 → vm.tables q = some g → vm'.tables q = some g
  mapped : ∀ q j, InSlots slots (q ++ [j]) → q.length ≤ 3 → vm'.mapped q j = vm.mapped q j
  wrote : ∀ x, vm'.mem x ≠ vm.mem x → InTable slots d vm' x

theorem Grows.refl (vm : VirtualMemory) (hd : d ≤ 3) : Grows slots d vm vm :=
  ⟨hd, SameShape.refl _, fun _ h => h, fun n h h' => by simp [h] at h', fun _ _ _ _ h => Or.inl h,
    fun _ _ _ _ h => h, fun _ _ _ _ => rfl, fun _ h => (h rfl).elim⟩

theorem Grows.inTable (h : Grows slots d' vm vm') (hd : d ≤ 3) {x : Nat}
    (hx : InTable slots d vm x) : InTable slots d vm' x := by
  obtain ⟨q, g, hs, hl, hg, hx⟩ := hx
  exact ⟨q, g, hs, hl, h.tables q g hs (by omega) hg, hx⟩

theorem Grows.trans (h : Grows slots d vm vm') (h' : Grows slots d vm' vm'') :
    Grows slots d vm vm'' := by
  have hd := h.depth
  refine ⟨hd, h.shape.trans h'.shape, fun n hn => h.kept n (h'.kept n hn), ?_, ?_,
    fun q g hs hl hg => h'.tables q g hs hl (h.tables q g hs hl hg),
    fun q j hs hl => (h'.mapped q j hs hl).trans (h.mapped q j hs hl), ?_⟩
  · intro n hn hn''
    cases hn' : vm'.frames.isFree n with
    | true => exact h'.taken n hn' hn''
    | false =>
      obtain ⟨q, hs, hl, hq⟩ := h.taken n hn hn'
      exact ⟨q, hs, hl, h'.tables q _ hs (by omega) hq⟩
  · intro q g hs hl hg
    rcases h'.fresh q g hs hl hg with hg | ⟨n, rfl, hn⟩
    · exact h.fresh q g hs hl hg
    · exact Or.inr ⟨n, rfl, h.kept n hn⟩
  · intro x hx
    by_cases hx' : vm'.mem x = vm.mem x
    · exact h'.wrote x (hx' ▸ hx)
    · exact h'.inTable hd (h.wrote x hx')

theorem InTable.mono {x : Nat} (hd : d ≤ d') (h : InTable slots d vm x) :
    InTable slots d' vm x := by
  obtain ⟨q, g, hs, hl, hx⟩ := h
  exact ⟨q, g, hs, by omega, hx⟩

theorem Grows.mono (h : Grows slots d vm vm') (hd : d ≤ d') (hd' : d' ≤ 3) :
    Grows slots d' vm vm' := by
  refine ⟨hd', h.shape, h.kept, ?_, h.fresh, h.tables, h.mapped, fun x hx => (h.wrote x hx).mono hd⟩
  intro n hn hn'
  obtain ⟨q, hs, hl, hq⟩ := h.taken n hn hn'
  exact ⟨q, hs, by omega, hq⟩

/-- A state with the same tables and entries, whose tables are still allocated. -/
theorem Tree.of_same (h : Tree slots vm) (ht : vm'.frames.Tracked)
    (htables : ∀ q, InSlots slots q → q.length ≤ 3 → vm'.tables q = vm.tables q)
    (hentry : ∀ q j, InSlots slots (q ++ [j]) → q.length ≤ 3 → vm'.entryOf q j = vm.entryOf q j)
    (hbusy : ∀ q g, InSlots slots q → q.length ≤ 3 → vm.tables q = some g → Busy vm'.frames g) :
    Tree slots vm' := by
  refine ⟨ht, ?_, ?_, ?_⟩
  · intro q g hs hl hg
    exact hbusy q g hs hl (htables q hs hl ▸ hg)
  · intro q₁ q₂ g hs₁ hl₁ hs₂ hl₂ hg₁ hg₂
    exact h.distinct q₁ q₂ g hs₁ hl₁ hs₂ hl₂ (htables q₁ hs₁ hl₁ ▸ hg₁) (htables q₂ hs₂ hl₂ ▸ hg₂)
  · intro q j hs hl hne
    rw [hentry q j hs (by omega)] at hne ⊢
    exact h.upper q j hs hl hne

/-- Tables and entries are the same when every entry of a table reads the same. -/
theorem same_of_load (vm vm' : VirtualMemory) (hi : vm'.initialized = vm.initialized)
    (hr : vm'.root = vm.root)
    (hload : ∀ q g j, InSlots slots (q ++ [j]) → q.length ≤ 3 → vm.tables q = some g →
      vm'.mem.load64 (g + 8 * j) = vm.mem.load64 (g + 8 * j)) :
    (∀ q, InSlots slots q → q.length ≤ 3 → vm'.tables q = vm.tables q) ∧
    ∀ q j, InSlots slots (q ++ [j]) → q.length ≤ 3 → vm'.entryOf q j = vm.entryOf q j := by
  have htables : ∀ q, InSlots slots q → q.length ≤ 3 → vm'.tables q = vm.tables q := by
    intro q hs hl
    apply tables_congr vm vm' (P := fun _ => False) hi hr (fun _ _ h => h) _ q hs hl (fun h => h)
    intro p g j hpj hlp _ hg
    rw [child, hload p g j hpj (by omega) hg, child]
  refine ⟨htables, ?_⟩
  intro q j hs hl
  have ht := htables q hs.of_append hl
  cases hg : vm.tables q with
  | none => rw [entryOf_none hg, entryOf_none (ht.trans hg)]
  | some g => rw [entryOf_eq hg, entryOf_eq (ht.trans hg), hload q g j hs hl hg]

/-- Memory may change freely outside the tables. -/
theorem same_of_mem (vm vm' : VirtualMemory) (hi : vm'.initialized = vm.initialized)
    (hr : vm'.root = vm.root) (hmem : ∀ x, InTable slots 3 vm x → vm'.mem x = vm.mem x) :
    (∀ q, InSlots slots q → q.length ≤ 3 → vm'.tables q = vm.tables q) ∧
    ∀ q j, InSlots slots (q ++ [j]) → q.length ≤ 3 → vm'.entryOf q j = vm.entryOf q j := by
  refine same_of_load vm vm' hi hr (fun q g j hs hl hg => ?_)
  apply Memory.load64_congr
  intro x h1 h2
  have hj := hs.last
  exact hmem x ⟨q, g, hs.of_append, hl, hg, by omega, by unfold kPageSize; omega⟩

theorem Busy.of_taken {f : PageFrameContainer} (h : Busy f g) (p : Nat) : Busy (f.take p) g := by
  obtain ⟨n, hn, rfl, hf⟩ := h
  exact ⟨n, by rw [(take_shape f p).pageCount]; exact hn, rfl, by rw [isFree_take, hf]; rfl⟩

/-- The state after taking the free frame `n` and clearing it. -/
def zeroFrame (vm : VirtualMemory) (n : Nat) : VirtualMemory :=
  { vm with frames := vm.frames.take n, mem := vm.mem.fill (n * kPageSize) kPageSize 0#8 }

theorem Tree.not_free (h : Tree slots vm) (hs : InSlots slots q) (hl : q.length ≤ 3)
    (hf : vm.frames.isFree n = true) : vm.tables q ≠ some (n * kPageSize) := by
  intro hg
  obtain ⟨n', -, hn, hb⟩ := h.owned q _ hs hl hg
  have : n = n' := Nat.eq_of_mul_eq_mul_right (by decide) hn
  rw [← this, hf] at hb
  exact absurd hb (by simp)

theorem Tree.inTable_apart (h : Tree slots vm) (hf : vm.frames.isFree n = true) {x : Nat}
    (hx : InTable slots 3 vm x) : ¬ (n * kPageSize ≤ x ∧ x < n * kPageSize + kPageSize) := by
  obtain ⟨q, g, hs, hl, hg, h1, h2⟩ := hx
  have hne := h.not_free hs hl hf
  obtain ⟨m, -, rfl, -⟩ := h.owned q g hs hl hg
  have hmn : m ≠ n := by
    rintro rfl
    exact hne hg
  unfold kPageSize at *
  omega

/-- Clearing a free frame leaves all tables and entries. -/
theorem Tree.zeroFrame_same (h : Tree slots vm) (hf : vm.frames.isFree n = true) :
    (∀ q, InSlots slots q → q.length ≤ 3 → (vm.zeroFrame n).tables q = vm.tables q) ∧
    ∀ q j, InSlots slots (q ++ [j]) → q.length ≤ 3 →
      (vm.zeroFrame n).entryOf q j = vm.entryOf q j := by
  apply same_of_mem vm (vm.zeroFrame n) rfl rfl
  intro x hx
  exact Memory.fill_apply_of_not_mem (h.inTable_apart hf hx)

theorem Tree.of_zeroFrame (h : Tree slots vm) (hn : n < vm.frames.pageCount)
    (hf : vm.frames.isFree n = true) : Tree slots (vm.zeroFrame n) := by
  obtain ⟨htables, hentry⟩ := h.zeroFrame_same hf
  exact h.of_same (h.tracked.take hn hf) htables hentry
    (fun q g hs hl hg => (h.owned q g hs hl hg).of_taken n)

theorem busy_zeroFrame (hn : n < vm.frames.pageCount) :
    Busy (vm.zeroFrame n).frames (n * kPageSize) :=
  ⟨n, by rw [zeroFrame, (take_shape vm.frames n).pageCount]; exact hn, rfl, by
    simp [zeroFrame, isFree_take]⟩

theorem load64_zeroFrame (hk : k < 512) :
    (vm.zeroFrame n).mem.load64 (n * kPageSize + 8 * k) = 0#64 :=
  Memory.load64_fill_zero (by omega) (by unfold kPageSize; omega)

/-- The mappings depend only on the entries. -/
theorem mapped_congr (h : vm'.entryOf q j = vm.entryOf q j) : vm'.mapped q j = vm.mapped q j := by
  rw [mapped, mapped, h]

theorem mapped_of_not_large (hl : q.length ≤ 2)
    (h : q.length = 2 → vm.entryOf q j &&& kEntryLargePage = 0#64) : vm.mapped q j = 0#64 := by
  rw [mapped, if_neg]
  rintro (h3 | ⟨h2, hne⟩)
  · omega
  · exact hne (h h2)

/-- A root without entries has no table below it. -/
theorem tables_of_empty_root (h0 : ∀ i < 512, vm.entryOf [] i = 0#64) (hs : InSlots slots q)
    (hq : q ≠ []) : vm.tables q = none := by
  cases q with
  | nil => exact (hq rfl).elim
  | cons i q =>
    rw [← List.singleton_append]
    apply tables_append_none
    rw [← List.nil_append [i], tables_snoc, h0 i (hs.1 i (by simp)), nextTable_zero]

theorem entryOf_of_empty_root (h0 : ∀ i < 512, vm.entryOf [] i = 0#64)
    (hs : InSlots slots (q ++ [j])) : vm.entryOf q j = 0#64 := by
  cases q with
  | nil => exact h0 j hs.last
  | cons i q => exact entryOf_none (tables_of_empty_root h0 hs.of_append (by simp))

theorem tables_of_not_initialized (h : vm.initialized ≠ true) (q : List Nat) :
    vm.tables q = none := by
  simp [tables, h]

theorem tables_root (hi : vm.initialized = true) : vm.tables [] = some vm.root.toNat := by
  simp [tables, hi, Trie.follow]

theorem initialized_of_tables (h : vm.tables q = some g) : vm.initialized = true := by
  by_contra hi
  rw [tables_of_not_initialized hi] at h
  cases h

theorem Grows.init (h : Grows slots d vm vm') (hi : vm.initialized = true) :
    vm'.initialized = true :=
  initialized_of_tables (h.tables [] _ ⟨by simp, by simp⟩ (by simp) (tables_root hi))

/-- The state after the root has been created in the free frame `n`. -/
def withRoot (vm : VirtualMemory) (n : Nat) : VirtualMemory :=
  { vm.zeroFrame n with initialized := true, root := BitVec.ofNat 64 (n * kPageSize) }

theorem tables_withRoot (vm : VirtualMemory) (hn : n < 2 ^ 40) :
    (vm.withRoot n).tables [] = some (n * kPageSize) := by
  simp [tables, withRoot, Trie.follow, toNat_frame hn]

theorem entryOf_withRoot (vm : VirtualMemory) (hn : n < 2 ^ 40) :
    ∀ i < 512, (vm.withRoot n).entryOf [] i = 0#64 := by
  intro i hi
  rw [entryOf_eq (tables_withRoot vm hn)]
  exact load64_zeroFrame hi

theorem withRoot_spec (h : Tree slots vm) (hi : vm.initialized ≠ true)
    (hn : n < vm.frames.pageCount) (hf : vm.frames.isFree n = true) :
    Tree slots (vm.withRoot n) ∧ Grows slots 0 vm (vm.withRoot n) := by
  have hn40 : n < 2 ^ 40 := lt_of_lt_of_le hn h.tracked.bounded
  have hroot := tables_withRoot vm hn40
  have h0 := entryOf_withRoot vm hn40
  have hnil : ∀ q g, InSlots slots q → (vm.withRoot n).tables q = some g →
      q = [] ∧ g = n * kPageSize := by
    intro q g hs hg
    by_cases hq : q = []
    · subst hq
      rw [hroot] at hg
      exact ⟨rfl, (Option.some.inj hg).symm⟩
    · rw [tables_of_empty_root h0 hs hq] at hg
      exact absurd hg (by simp)
  refine ⟨⟨h.tracked.take hn hf, ?_, ?_, ?_⟩, ⟨by decide, take_shape _ n, ?_, ?_, ?_, ?_, ?_, ?_⟩⟩
  · intro q g hs _ hg
    obtain ⟨-, rfl⟩ := hnil q g hs hg
    exact busy_zeroFrame hn
  · intro q q' g hs _ hs' _ hg hg'
    rw [(hnil q g hs hg).1, (hnil q' g hs' hg').1]
  · intro q j hs _ hne
    exact (hne (entryOf_of_empty_root h0 hs)).elim
  · intro m hm
    simp only [withRoot, zeroFrame, isFree_take, Bool.and_eq_true] at hm
    exact hm.1
  · intro m hm hm'
    simp only [withRoot, zeroFrame, isFree_take, hm, Bool.true_and, Bool.not_eq_false',
      decide_eq_true_eq] at hm'
    subst hm'
    exact ⟨[], ⟨by simp, by simp⟩, by simp, hroot⟩
  · intro q g hs _ hg
    exact Or.inr ⟨n, (hnil q g hs hg).2, hf⟩
  · intro q g _ _ hg
    exact absurd (initialized_of_tables hg) hi
  · intro q j hs _
    apply mapped_congr
    rw [entryOf_of_empty_root h0 hs, entryOf_none (tables_of_not_initialized hi q)]
  · intro x hx
    refine ⟨[], n * kPageSize, ⟨by simp, by simp⟩, by simp, hroot, ?_⟩
    by_contra hout
    exact hx (Memory.fill_apply_of_not_mem hout)

/-- What `ensure_root` can do: leave everything, or create the root in a free frame. -/
theorem ensureRoot_cases {ok : Bool} (h : vm.frames.Tracked) (he : vm.ensureRoot = (ok, vm')) :
    (vm' = vm ∧ (ok = true ↔ vm.initialized = true)) ∨ ok = true ∧ vm.initialized ≠ true ∧
      ∃ n < vm.frames.pageCount, vm.frames.isFree n = true ∧ vm' = vm.withRoot n := by
  unfold ensureRoot at he
  by_cases hi : vm.initialized = true
  · rw [if_pos hi] at he
    cases he
    exact Or.inl ⟨rfl, iff_of_true rfl hi⟩
  rw [if_neg hi] at he
  cases ha : vm.frames.allocate with
  | none =>
    rw [ha] at he
    cases he
    exact Or.inl ⟨rfl, iff_of_false (by simp) hi⟩
  | some r =>
    obtain ⟨a, frames⟩ := r
    rw [ha] at he
    cases he
    obtain ⟨n, rfl, hn, hf, rfl, -⟩ := allocate_some h ha
    exact Or.inr ⟨rfl, hi, n, hn, hf, rfl⟩

/-- Creating the root gives an empty tree, or leaves the tree that is there. -/
theorem ensureRoot_spec (h : Tree slots vm) {ok : Bool} (he : vm.ensureRoot = (ok, vm')) :
    Tree slots vm' ∧ Grows slots 0 vm vm' ∧ (ok = true → vm'.tables [] = some vm'.root.toNat) := by
  rcases ensureRoot_cases h.tracked he with ⟨rfl, hok⟩ | ⟨-, hi, n, hn, hf, rfl⟩
  · exact ⟨h, Grows.refl _ (by omega), fun hr => tables_root (hok.mp hr)⟩
  · obtain ⟨htree, hgrows⟩ := withRoot_spec h hi hn hf
    refine ⟨htree, hgrows, fun _ => ?_⟩
    exact (tables_withRoot vm (lt_of_lt_of_le hn h.tracked.bounded)).trans
      (congrArg some (toNat_frame (lt_of_lt_of_le hn h.tracked.bounded)).symm)

theorem nextTable_or_user (e : BitVec 64) (he : e ≠ 0#64) :
    nextTable (e ||| PageFlags.userBit) = nextTable e := by
  have hne : e ||| PageFlags.userBit ≠ 0#64 := or_ne_zero_of_right (by decide)
  simp only [nextTable, isTableEntry, and_kEntryLargePage_or (f := PageFlags.userBit) (by decide),
    entryAddress_or (f := PageFlags.userBit) (by decide), he, hne, ne_eq, not_false_eq_true]

theorem nextTable_frame {u : Bool} (hn : n < 2 ^ 40) :
    nextTable ((BitVec.ofNat 64 (n * kPageSize) &&& kEntryAddressMask) ||| tableEntryFlags u) =
      some (n * kPageSize) := by
  have hflags : tableEntryFlags u ≠ 0#64 := by cases u <;> decide
  have hlarge : (BitVec.ofNat 64 (n * kPageSize) &&& kEntryAddressMask) &&& kEntryLargePage =
      0#64 := by
    rw [BitVec.and_assoc, show kEntryAddressMask &&& kEntryLargePage = 0#64 by decide,
      BitVec.and_zero]
  rw [nextTable, if_pos, entryAddress_frame hn (tableEntryFlags_and_mask u)]
  rw [isTableEntry_iff, and_kEntryLargePage_or (tableEntryFlags_and_large u)]
  exact ⟨or_ne_zero_of_right hflags, hlarge⟩

theorem isTableEntry_of_nextTable (h : nextTable e = some g) :
    isTableEntry e = true ∧ entryAddress e = g := by
  unfold nextTable at h
  split at h
  · rename_i ht
    exact ⟨ht, Option.some.inj h⟩
  · exact absurd h (by simp)

/-- A store to an entry writes inside its table. -/
theorem storeEntry_wrote (hqj : InSlots slots (q ++ [j])) (hl : q.length ≤ d)
    (hg : vm'.tables q = some g) {x : Nat} (hx : (vm.storeEntry (g + 8 * j) e).mem x ≠ vm.mem x) :
    InTable slots d vm' x := by
  have hj := hqj.last
  refine ⟨q, g, hqj.of_append, hl, hg, ?_⟩
  by_contra hout
  apply hx
  apply Memory.store64_apply_of_not_mem
  unfold kPageSize at hout
  omega

/-- Marking a table entry as visible to user code keeps the tree. -/
theorem Tree.mark_user (h : Tree slots vm) (hqj : InSlots slots (q ++ [j])) (hl : q.length ≤ 2)
    (hg : vm.tables q = some g) (hne : vm.entryOf q j ≠ 0#64)
    (hlarge : vm.entryOf q j &&& kEntryLargePage = 0#64) :
    Tree slots (vm.storeEntry (g + 8 * j) (vm.entryOf q j ||| PageFlags.userBit)) ∧
    Grows slots q.length vm (vm.storeEntry (g + 8 * j) (vm.entryOf q j ||| PageFlags.userBit)) := by
  have hnext := nextTable_or_user _ hne
  have htable : isTableEntry (vm.entryOf q j ||| PageFlags.userBit) = true := by
    rw [isTableEntry_iff, and_kEntryLargePage_or (by decide)]
    exact ⟨or_ne_zero_of_right (by decide), hlarge⟩
  obtain ⟨ht, he⟩ := h.store_same hqj (by omega) hg (fun _ => hnext)
  refine ⟨h.of_store_same hqj (by omega) hg (fun _ => hnext) (fun _ _ => htable),
    ⟨by omega, SameShape.refl _, fun _ hn => hn, fun n hn hn' => ?_, ?_, ?_, ?_, ?_⟩⟩
  · rw [storeEntry] at hn'
    simp [hn] at hn'
  · intro q' g' hs hl' hg'
    exact Or.inl (ht q' hs hl' ▸ hg')
  · intro q' g' hs hl' hg'
    rw [ht q' hs hl', hg']
  · intro q' k hs hl'
    by_cases hqk : q' = q ∧ k = j
    · obtain ⟨rfl, rfl⟩ := hqk
      rw [mapped_of_not_large hl (fun _ => hlarge), mapped_of_not_large hl]
      intro _
      rw [he q' k hs hl', if_pos ⟨rfl, rfl⟩]
      exact (isTableEntry_iff.mp htable).2
    · apply mapped_congr
      rw [he q' k hs hl', if_neg hqk]
  · intro x hx
    exact storeEntry_wrote hqj (le_refl _) (by rw [ht q hqj.of_append (by omega), hg]) hx

/-- The tree after an empty table entry has been filled with a cleared free frame. -/
theorem Tree.link_same (h : Tree slots vm) (hqj : InSlots slots (q ++ [j])) (hl : q.length ≤ 2)
    (hg : vm.tables q = some g) (h0 : vm.entryOf q j = 0#64) (hn : n < vm.frames.pageCount)
    (hf : vm.frames.isFree n = true) (hnext : nextTable e = some (n * kPageSize)) :
    (∀ q', InSlots slots q' → q'.length ≤ 3 →
      ((vm.zeroFrame n).storeEntry (g + 8 * j) e).tables q' =
        if q' = q ++ [j] then some (n * kPageSize) else vm.tables q') ∧
    ∀ q' k, InSlots slots (q' ++ [k]) → q'.length ≤ 3 →
      ((vm.zeroFrame n).storeEntry (g + 8 * j) e).entryOf q' k =
        if q' = q ∧ k = j then e else vm.entryOf q' k := by
  obtain ⟨hzt, hze⟩ := h.zeroFrame_same hf
  obtain ⟨ht, he⟩ := (h.of_zeroFrame hn hf).store_link hqj hl
    (by rw [hzt q hqj.of_append (by omega), hg]) (by rw [hze q j hqj (by omega), h0]) hnext
    (busy_zeroFrame hn) (fun q' hs hl' => by rw [hzt q' hs hl']; exact h.not_free hs hl' hf)
    (fun k hk => load64_zeroFrame hk)
  exact ⟨fun q' hs hl' => by rw [ht q' hs hl', hzt q' hs hl'],
    fun q' k hs hl' => by rw [he q' k hs hl', hze q' k hs hl']⟩

/-- Filling an empty table entry with a cleared free frame keeps the tree. -/
theorem Tree.link (h : Tree slots vm) (hqj : InSlots slots (q ++ [j])) (hl : q.length ≤ 2)
    (hg : vm.tables q = some g) (h0 : vm.entryOf q j = 0#64) (hn : n < vm.frames.pageCount)
    (hf : vm.frames.isFree n = true) (hnext : nextTable e = some (n * kPageSize)) :
    Tree slots ((vm.zeroFrame n).storeEntry (g + 8 * j) e) ∧
    Grows slots (q.length + 1) vm ((vm.zeroFrame n).storeEntry (g + 8 * j) e) ∧
    ((vm.zeroFrame n).storeEntry (g + 8 * j) e).tables (q ++ [j]) = some (n * kPageSize) := by
  obtain ⟨ht, he⟩ := h.link_same hqj hl hg h0 hn hf hnext
  have hlink : ((vm.zeroFrame n).storeEntry (g + 8 * j) e).tables (q ++ [j]) =
      some (n * kPageSize) := by
    rw [ht (q ++ [j]) hqj (by rw [List.length_append, List.length_singleton]; omega),
      if_pos rfl]
  have htable := isTableEntry_iff.mp (isTableEntry_of_nextTable hnext).1
  -- A table of the new tree is the linked frame or an old table.
  have hcases : ∀ q' g', InSlots slots q' → q'.length ≤ 3 →
      ((vm.zeroFrame n).storeEntry (g + 8 * j) e).tables q' = some g' →
      (q' = q ++ [j] ∧ g' = n * kPageSize) ∨ vm.tables q' = some g' := by
    intro q' g' hs hl' hg'
    rw [ht q' hs hl'] at hg'
    split at hg'
    · rename_i heq
      exact Or.inl ⟨heq, (Option.some.inj hg').symm⟩
    · exact Or.inr hg'
  refine ⟨⟨(h.of_zeroFrame hn hf).tracked, ?_, ?_, ?_⟩,
    ⟨by omega, take_shape _ n, ?_, ?_, ?_, ?_, ?_, ?_⟩, hlink⟩
  · intro q' g' hs hl' hg'
    rcases hcases q' g' hs hl' hg' with ⟨-, rfl⟩ | hold
    · exact busy_zeroFrame hn
    · exact Busy.of_taken (h.owned q' g' hs hl' hold) n
  · intro q₁ q₂ g' hs₁ hl₁ hs₂ hl₂ hg₁ hg₂
    rcases hcases q₁ g' hs₁ hl₁ hg₁ with ⟨h₁, rfl⟩ | h₁ <;>
      rcases hcases q₂ _ hs₂ hl₂ hg₂ with ⟨h₂, h₃⟩ | h₂
    · rw [h₁, h₂]
    · exact (h.not_free hs₂ hl₂ hf h₂).elim
    · exact (h.not_free hs₁ hl₁ hf (h₃ ▸ h₁)).elim
    · exact h.distinct q₁ q₂ g' hs₁ hl₁ hs₂ hl₂ h₁ h₂
  · intro q' k hs hl' hne
    rw [he q' k hs (by omega)] at hne ⊢
    split at hne
    · rename_i heq
      rw [if_pos heq]
      exact isTableEntry_iff.mpr htable
    · rename_i heq
      rw [if_neg heq]
      exact h.upper q' k hs hl' hne
  · intro m hm
    simp only [storeEntry, zeroFrame, isFree_take, Bool.and_eq_true] at hm
    exact hm.1
  · intro m hm hm'
    simp only [storeEntry, zeroFrame, isFree_take, hm, Bool.true_and, Bool.not_eq_false',
      decide_eq_true_eq] at hm'
    subst hm'
    exact ⟨q ++ [j], hqj, by simp, hlink⟩
  · intro q' g' hs hl' hg'
    rcases hcases q' g' hs hl' hg' with ⟨-, rfl⟩ | hold
    · exact Or.inr ⟨n, rfl, hf⟩
    · exact Or.inl hold
  · intro q' g' hs hl' hg'
    rw [ht q' hs hl', if_neg, hg']
    rintro rfl
    rw [tables_snoc, h0, nextTable_zero] at hg'
    exact absurd hg' (by simp)
  · intro q' k hs hl'
    by_cases hqk : q' = q ∧ k = j
    · obtain ⟨rfl, rfl⟩ := hqk
      have hold : vm.entryOf q' k &&& kEntryLargePage = 0#64 := by rw [h0]; decide
      rw [mapped_of_not_large hl (fun _ => hold), mapped_of_not_large hl]
      intro _
      rw [he q' k hs hl', if_pos ⟨rfl, rfl⟩]
      exact htable.2
    · apply mapped_congr
      rw [he q' k hs hl', if_neg hqk]
  · intro x hx
    by_cases hin : n * kPageSize ≤ x ∧ x < n * kPageSize + kPageSize
    · exact ⟨q ++ [j], _, hqj, by simp, hlink, hin⟩
    · refine storeEntry_wrote hqj (by omega) ?_ (fun heq => hx (heq.trans ?_))
      · rw [ht q hqj.of_append (by omega), if_neg (by simp), hg]
      · exact Memory.fill_apply_of_not_mem hin

/-- What one level of a creating walk does: nothing, or it marks the entry, or it links a cleared
frame. -/
theorem stepDown_create_cases {u : Bool} {r : Option Nat} (h : Tree slots vm)
    (hg : vm.tables q = some g) (he : vm.stepDown g j true u = (vm', r)) :
    (vm' = vm ∧ (vm.entryOf q j = 0#64 ∧ r = none ∧ vm.frames.allocate = none ∨
      vm.entryOf q j ≠ 0#64 ∧ r = some (entryAddress (vm.entryOf q j)) ∧ u = false)) ∨
    (vm.entryOf q j ≠ 0#64 ∧ r = some (entryAddress (vm.entryOf q j)) ∧ u = true ∧
      vm' = vm.storeEntry (g + 8 * j) (vm.entryOf q j ||| PageFlags.userBit)) ∨
    ∃ n, vm.entryOf q j = 0#64 ∧ r = some (n * kPageSize) ∧
      vm.frames.allocate = some (n * kPageSize, vm.frames.take n) ∧ n < vm.frames.pageCount ∧
      vm.frames.isFree n = true ∧
      vm' = (vm.zeroFrame n).storeEntry (g + 8 * j)
        ((BitVec.ofNat 64 (n * kPageSize) &&& kEntryAddressMask) ||| tableEntryFlags u) := by
  have hword : vm.mem.load64 (g + 8 * j) = vm.entryOf q j := (entryOf_eq hg).symm
  simp only [stepDown, if_true, ensureTableEntry, hword] at he
  by_cases h0 : vm.entryOf q j = 0#64
  · rw [if_pos h0] at he
    cases ha : vm.frames.allocate with
    | none =>
      rw [ha] at he
      cases he
      exact Or.inl ⟨rfl, Or.inl ⟨h0, rfl, rfl⟩⟩
    | some p =>
      obtain ⟨a, frames⟩ := p
      rw [ha] at he
      obtain ⟨n, rfl, hn, hf, rfl, -⟩ := allocate_some h.tracked ha
      cases he
      refine Or.inr (Or.inr ⟨n, h0, ?_, rfl, hn, hf, rfl⟩)
      rw [Memory.load64_store64_self, entryAddress_frame (lt_of_lt_of_le hn h.tracked.bounded)
        (tableEntryFlags_and_mask u)]
  · rw [if_neg h0] at he
    cases u with
    | false =>
      simp only [Bool.false_eq_true, if_false, hword] at he
      cases he
      exact Or.inl ⟨rfl, Or.inr ⟨h0, rfl, rfl⟩⟩
    | true =>
      simp only [if_true, Memory.load64_store64_self] at he
      cases he
      exact Or.inr (Or.inl ⟨h0, by rw [entryAddress_or (by decide)], rfl, rfl⟩)

/-- An entry above the leaf entries leads to a table, where it is no large page. -/
theorem Tree.table_of_entry (h : Tree slots vm) (hqj : InSlots slots (q ++ [j])) (hl : q.length ≤ 2)
    (hlarge : q.length = 2 → vm.entryOf q j &&& kEntryLargePage = 0#64)
    (hne : vm.entryOf q j ≠ 0#64) : vm.entryOf q j &&& kEntryLargePage = 0#64 ∧
      vm.tables (q ++ [j]) = some (entryAddress (vm.entryOf q j)) := by
  have hnot : vm.entryOf q j &&& kEntryLargePage = 0#64 := by
    by_cases h2 : q.length = 2
    · exact hlarge h2
    · exact (isTableEntry_iff.mp (h.upper q j hqj (by omega) hne)).2
  rw [tables_snoc, nextTable, if_pos (isTableEntry_iff.mpr ⟨hne, hnot⟩)]
  exact ⟨hnot, rfl⟩

/-- One level of a creating walk reaches the table below, which it adds where it is missing. -/
theorem stepDown_create_spec {u : Bool} {r : Option Nat} (h : Tree slots vm)
    (hqj : InSlots slots (q ++ [j])) (hl : q.length ≤ 2) (hg : vm.tables q = some g)
    (hlarge : q.length = 2 → vm.entryOf q j &&& kEntryLargePage = 0#64)
    (he : vm.stepDown g j true u = (vm', r)) :
    Tree slots vm' ∧ Grows slots (q.length + 1) vm vm' ∧
      ∀ f, r = some f → vm'.tables (q ++ [j]) = some f := by
  rcases stepDown_create_cases h hg he with
    ⟨rfl, ⟨-, rfl, -⟩ | ⟨hne, rfl, -⟩⟩ | ⟨hne, rfl, -, rfl⟩ | ⟨n, h0, rfl, -, hn, hf, rfl⟩
  · exact ⟨h, Grows.refl _ (by omega), fun f hf => by cases hf⟩
  · refine ⟨h, Grows.refl _ (by omega), fun f hf => ?_⟩
    rw [(h.table_of_entry hqj hl hlarge hne).2, hf]
  · obtain ⟨hnot, htable⟩ := h.table_of_entry hqj hl hlarge hne
    obtain ⟨htree, hgrows⟩ := h.mark_user hqj hl hg hne hnot
    refine ⟨htree, hgrows.mono (by omega) (by omega), fun f hf => ?_⟩
    exact hgrows.tables _ _ hqj (by simp; omega) (htable.trans hf)
  · obtain ⟨htree, hgrows, hlink⟩ := h.link hqj hl hg h0 hn hf
      (nextTable_frame (lt_of_lt_of_le hn h.tracked.bounded))
    exact ⟨htree, hgrows, fun f hf' => hlink.trans hf'⟩

/-- One level of a plain walk. -/
theorem stepDown_spec {u : Bool} {r : Option Nat} (h : Tree slots vm)
    (hqj : InSlots slots (q ++ [j])) (hl : q.length ≤ 2) (hg : vm.tables q = some g)
    (hlarge : q.length = 2 → vm.entryOf q j &&& kEntryLargePage = 0#64)
    (he : vm.stepDown g j false u = (vm', r)) : vm' = vm ∧ r = vm.tables (q ++ [j]) := by
  have hword : vm.mem.load64 (g + 8 * j) = vm.entryOf q j := (entryOf_eq hg).symm
  simp only [stepDown, Bool.false_eq_true, if_false, hword] at he
  by_cases h0 : vm.entryOf q j = 0#64
  · rw [if_pos h0] at he
    cases he
    rw [tables_snoc, h0, nextTable_zero]
    exact ⟨rfl, rfl⟩
  · rw [if_neg h0] at he
    cases he
    exact ⟨rfl, (h.table_of_entry hqj hl hlarge h0).2.symm⟩

theorem pageIndex_lt (va : BitVec 64) (shift : Nat) : pageIndex va shift < 512 := by
  unfold pageIndex
  rw [BitVec.toNat_and]
  exact lt_of_le_of_lt Nat.and_le_right (by decide)

/-- The indices of the tables above the page of `va`. -/
def midPath (va : BitVec 64) : List Nat := [pageIndex va 39, pageIndex va 30]

def leafPath (va : BitVec 64) : List Nat := [pageIndex va 39, pageIndex va 30, pageIndex va 21]

theorem leafPath_inSlots (va : BitVec 64) (hs : slots (pageIndex va 39)) {i : Nat} (hi : i < 512) :
    InSlots slots (leafPath va ++ [i]) := by
  refine ⟨?_, by simp [leafPath, hs]⟩
  simp [leafPath, pageIndex_lt, hi]

theorem mapped_eq_zero_iff (hl : q.length = 2) :
    vm.mapped q j = 0#64 ↔ vm.entryOf q j &&& kEntryLargePage = 0#64 := by
  unfold mapped
  by_cases h : vm.entryOf q j &&& kEntryLargePage = 0#64
  · simp [h, hl]
  · rw [if_pos (Or.inr ⟨hl, h⟩)]
    refine ⟨fun h0 => by rw [h0]; decide, fun h0 => (h h0).elim⟩

/-- No large page covers the address. -/
def NoLargePage (vm : VirtualMemory) (va : BitVec 64) : Prop :=
  vm.mapped (midPath va) (pageIndex va 21) = 0#64

theorem Grows.noLargePage {va : BitVec 64} (h : Grows slots d vm vm') (hs : slots (pageIndex va 39))
    (hn : NoLargePage vm va) : NoLargePage vm' va := by
  have hp := leafPath_inSlots va hs (i := 0) (by decide)
  exact (h.mapped _ _ hp.of_append (by simp [midPath])).trans hn

section Walk

variable {P : List Nat → VirtualMemory → Option Nat → Prop} {va : BitVec 64} {c u : Bool}
  {r : Option Nat}

/-- The walk from the root down a path. -/
def descend (vm : VirtualMemory) (c u : Bool) (p : List Nat) : VirtualMemory × Option Nat :=
  p.foldl
    (fun s j => match s with
      | (vm, none) => (vm, none)
      | (vm, some g) => vm.stepDown g j c u)
    (match vm.ensureRoot with
      | (false, vm) => (vm, none)
      | (true, vm) => (vm, some vm.root.toNat))

theorem walkToPml2_eq : vm.walkToPml2 va c u = vm.descend c u (midPath va) := by
  unfold walkToPml2 descend
  rcases vm.ensureRoot with ⟨_ | _, s⟩ <;> rfl

theorem descend_snoc : vm.descend c u (q ++ [j]) = match vm.descend c u q with
    | (vm, none) => (vm, none)
    | (vm, some g) => vm.stepDown g j c u := by
  rw [descend, List.foldl_append]
  rfl

theorem walkToLeaf_eq : vm.walkToLeaf va c u = ((vm.descend c u (leafPath va)).1,
    (vm.descend c u (leafPath va)).2.map (· + 8 * pageIndex va 12)) := by
  rw [walkToLeaf, walkToPml2_eq,
    show leafPath va = midPath va ++ [pageIndex va 21] from rfl, descend_snoc]
  rcases vm.descend c u (midPath va) with ⟨s, _ | g⟩
  · rfl
  · dsimp only
    rcases s.stepDown g (pageIndex va 21) c u with ⟨t, _ | g'⟩ <;> rfl

/-- What holds once the root is there, and is kept by each level, holds where a walk ends. -/
theorem descend_rule {p : List Nat} (hp : p.length ≤ 3)
    (hroot : ∀ ok s, vm.ensureRoot = (ok, s) → P [] s (if ok then some s.root.toNat else none))
    (hfail : ∀ q j s, q.length ≤ 2 → P q s none → P (q ++ [j]) s none)
    (hstep : ∀ q j s g t r, q ++ [j] <+: p → P q s (some g) →
      s.stepDown g j c u = (t, r) → P (q ++ [j]) t r) :
    P p (vm.descend c u p).1 (vm.descend c u p).2 := by
  suffices h : ∀ q, q <+: p → P q (vm.descend c u q).1 (vm.descend c u q).2 from
    h p (List.prefix_refl p)
  intro q
  induction q using List.reverseRecOn with
  | nil =>
    intro _
    unfold descend
    rcases h0 : vm.ensureRoot with ⟨_ | _, s⟩
    · exact hroot false s h0
    · exact hroot true s h0
  | append_singleton q j ih =>
    intro hq
    have hlen := hq.length_le.trans hp
    rw [List.length_append, List.length_singleton] at hlen
    have hP := ih ((List.prefix_append q [j]).trans hq)
    rw [descend_snoc]
    generalize vm.descend c u q = d at hP
    obtain ⟨s, _ | g⟩ := d
    · exact hfail q j s (by omega) hP
    · exact hstep q j s g _ _ hq hP rfl

theorem walkToLeaf_rule
    (hroot : ∀ ok s, vm.ensureRoot = (ok, s) → P [] s (if ok then some s.root.toNat else none))
    (hfail : ∀ q j s, q.length ≤ 2 → P q s none → P (q ++ [j]) s none)
    (hstep : ∀ q j s g t r, q ++ [j] <+: leafPath va → P q s (some g) →
      s.stepDown g j c u = (t, r) → P (q ++ [j]) t r)
    (he : vm.walkToLeaf va c u = (vm', r)) :
    ∃ r', P (leafPath va) vm' r' ∧ r = r'.map (· + 8 * pageIndex va 12) := by
  obtain ⟨rfl, rfl⟩ := Prod.mk.inj (walkToLeaf_eq.symm.trans he)
  exact ⟨_, descend_rule (by simp [leafPath]) hroot hfail hstep, rfl⟩

/-- A level of a walk to the page of `va`, where no large page covers it. -/
theorem level_inSlots (slots : Nat → Prop) (vm : VirtualMemory) (hs : slots (pageIndex va 39))
    (hq : q ++ [j] <+: leafPath va) :
    InSlots slots (q ++ [j]) ∧ q.length ≤ 2 ∧ (NoLargePage vm va → q.length = 2 →
      vm.entryOf q j &&& kEntryLargePage = 0#64) := by
  have hlen : (q ++ [j]).length ≤ 3 := hq.length_le
  rw [List.length_append, List.length_singleton] at hlen
  refine ⟨?_, by omega, fun hn hl => ?_⟩
  · obtain ⟨r, hr⟩ := hq
    refine InSlots.of_append (r := r) ?_
    rw [hr]
    exact (leafPath_inSlots va hs (i := 0) (by decide)).of_append
  · have heq : q ++ [j] = midPath va ++ [pageIndex va 21] :=
      hq.eq_of_length (by simp [hl, leafPath])
    obtain ⟨rfl, hj⟩ := List.append_inj' heq rfl
    rw [(List.cons.inj hj).1]
    exact (mapped_eq_zero_iff rfl).mp hn

/-- The walk has built the tree down to the table at `q`. -/
structure Built (slots : Nat → Prop) (vm : VirtualMemory) (q : List Nat) (s : VirtualMemory)
    (r : Option Nat) : Prop where
  tree : Tree slots s
  grows : Grows slots q.length vm s
  reached : ∀ g, r = some g → s.tables q = some g

theorem Built.root (h : Tree slots vm) {ok : Bool} (he : vm.ensureRoot = (ok, vm')) :
    Built slots vm [] vm' (if ok then some vm'.root.toNat else none) := by
  obtain ⟨ht, hg, hr⟩ := ensureRoot_spec h he
  refine ⟨ht, hg, fun g hg => ?_⟩
  split at hg
  next hok => rw [hr hok, hg]
  next => cases hg

theorem Built.fail (h : Built slots vm q vm' none) (j : Nat) (hl : q.length ≤ 2) :
    Built slots vm (q ++ [j]) vm' none :=
  ⟨h.tree, h.grows.mono (by simp) (by simp; omega), fun g hg => by cases hg⟩

theorem Built.step (h : Built slots vm q vm' (some g)) (hqj : InSlots slots (q ++ [j]))
    (hl : q.length ≤ 2) (hlarge : q.length = 2 → vm'.entryOf q j &&& kEntryLargePage = 0#64)
    (he : vm'.stepDown g j true u = (vm'', r)) : Built slots vm (q ++ [j]) vm'' r := by
  obtain ⟨ht, hg, hr⟩ := stepDown_create_spec h.tree hqj hl (h.reached g rfl) hlarge he
  refine ⟨ht, ?_, hr⟩
  rw [List.length_append, List.length_singleton]
  exact (h.grows.mono (by omega) (by omega)).trans hg

/-- A creating walk to the third level. -/
theorem walkToPml2_create_spec (h : Tree slots vm) (hs : slots (pageIndex va 39))
    (he : vm.walkToPml2 va true u = (vm', r)) : Built slots vm (midPath va) vm' r := by
  obtain ⟨rfl, rfl⟩ := Prod.mk.inj (walkToPml2_eq.symm.trans he)
  refine descend_rule (by simp [midPath]) (fun ok s => Built.root h)
    (fun q j s hl hb => hb.fail j hl) (fun q j s g t r hq hb => ?_)
  have hlen : (q ++ [j]).length ≤ 2 := hq.length_le
  rw [List.length_append, List.length_singleton] at hlen
  obtain ⟨hqj, hl, -⟩ := level_inSlots slots s hs (hq.trans ⟨[pageIndex va 21], rfl⟩)
  exact hb.step hqj hl (by omega)

theorem Built.level (hb : Built slots vm q vm' (some g)) (hs : slots (pageIndex va 39))
    (hlarge : NoLargePage vm va) (hq : q ++ [j] <+: leafPath va)
    (he : vm'.stepDown g j true u = (vm'', r)) : Built slots vm (q ++ [j]) vm'' r := by
  obtain ⟨hqj, hl, hn⟩ := level_inSlots slots vm' hs hq
  exact hb.step hqj hl (hn (hb.grows.noLargePage hs hlarge)) he

theorem built_descend {p : List Nat} (h : Tree slots vm) (hs : slots (pageIndex va 39))
    (hlarge : NoLargePage vm va) (hp : p <+: leafPath va) :
    Built slots vm p (vm.descend true u p).1 (vm.descend true u p).2 :=
  descend_rule hp.length_le (fun _ _ => Built.root h) (fun _ j _ hl hb => hb.fail j hl)
    fun _ _ _ _ _ _ hq hb => hb.level hs hlarge (hq.trans hp)

/-- A creating walk ends at the leaf entry of the page. -/
theorem walkToLeaf_create_spec (h : Tree slots vm) (hs : slots (pageIndex va 39))
    (hlarge : NoLargePage vm va) (he : vm.walkToLeaf va true u = (vm', r)) :
    Tree slots vm' ∧ Grows slots 3 vm vm' ∧
      ∀ a, r = some a → ∃ g, vm'.tables (leafPath va) = some g ∧ a = g + 8 * pageIndex va 12 := by
  obtain ⟨rfl, rfl⟩ := Prod.mk.inj (walkToLeaf_eq.symm.trans he)
  have hb := built_descend (u := u) h hs hlarge (List.prefix_refl _)
  refine ⟨hb.tree, hb.grows, fun a ha => ?_⟩
  obtain ⟨g, hr, rfl⟩ := Option.map_eq_some_iff.mp ha
  exact ⟨g, hb.reached g hr, rfl⟩

end Walk

/-- `vm'` is `vm`, or `vm` had no entry at all and `vm'` adds the root. -/
def RootOnly (slots : Nat → Prop) (vm vm' : VirtualMemory) : Prop :=
  vm' = vm ∨ Grows slots 0 vm vm' ∧
    ∀ q j, InSlots slots (q ++ [j]) → vm.entryOf q j = 0#64 ∧ vm'.entryOf q j = 0#64

theorem RootOnly.grows (h : RootOnly slots vm vm') : Grows slots 0 vm vm' := by
  rcases h with rfl | h
  · exact Grows.refl _ (by decide)
  · exact h.1

theorem RootOnly.entryOf (h : RootOnly slots vm vm') (hs : InSlots slots (q ++ [j])) :
    vm'.entryOf q j = vm.entryOf q j := by
  rcases h with rfl | h
  · rfl
  · exact (h.2 q j hs).2.trans (h.2 q j hs).1.symm

theorem ensureRoot_rootOnly (h : Tree slots vm) {ok : Bool} (he : vm.ensureRoot = (ok, vm')) :
    RootOnly slots vm vm' := by
  obtain ⟨-, hg, -⟩ := ensureRoot_spec h he
  rcases ensureRoot_cases h.tracked he with ⟨rfl, -⟩ | ⟨-, hi, n, hn, -, rfl⟩
  · exact Or.inl rfl
  · exact Or.inr ⟨hg, fun q j hs => ⟨entryOf_none (tables_of_not_initialized hi q),
      entryOf_of_empty_root (entryOf_withRoot vm (lt_of_lt_of_le hn h.tracked.bounded)) hs⟩⟩

/-- A plain walk changes no mapping, and it ends early only where there is no leaf table. -/
theorem walkToLeaf_spec {va : BitVec 64} {u : Bool} {r : Option Nat} (h : Tree slots vm)
    (hs : slots (pageIndex va 39)) (hlarge : NoLargePage vm va)
    (he : vm.walkToLeaf va false u = (vm', r)) :
    Tree slots vm' ∧ RootOnly slots vm vm' ∧
      r = (vm'.tables (leafPath va)).map (· + 8 * pageIndex va 12) := by
  suffices hrule : ∃ r', (Tree slots vm' ∧ RootOnly slots vm vm' ∧ r' = vm'.tables (leafPath va)) ∧
      r = r'.map (· + 8 * pageIndex va 12) by
    obtain ⟨r', ⟨ht, hg, rfl⟩, hr⟩ := hrule
    exact ⟨ht, hg, hr⟩
  refine walkToLeaf_rule (P := fun q s r => Tree slots s ∧ RootOnly slots vm s ∧ r = s.tables q)
    (fun ok s h0 => ?_) (fun q j s _ hP => ?_) (fun q j s g t r hq hP he => ?_) he
  · obtain ⟨ht, -, hr⟩ := ensureRoot_spec h h0
    refine ⟨ht, ensureRoot_rootOnly h h0, ?_⟩
    cases ok with
    | false =>
      rcases ensureRoot_cases h.tracked h0 with ⟨rfl, hok⟩ | ⟨hok, -⟩
      · exact (tables_of_not_initialized (fun hi => by cases hok.mpr hi) []).symm
      · cases hok
    | true => exact (hr rfl).symm
  · exact ⟨hP.1, hP.2.1, (tables_append_none hP.2.2.symm).symm⟩
  · obtain ⟨ht, hg, hr⟩ := hP
    obtain ⟨hqj, hl, hn⟩ := level_inSlots slots s hs hq
    obtain ⟨rfl, rfl⟩ := stepDown_spec ht hqj hl hr.symm (hn (hg.grows.noLargePage hs hlarge)) he
    exact ⟨ht, hg, rfl⟩

/-! ## Reading the tree -/

/-- What the hardware and `translate` read, in terms of the mapping entries. -/
def lookup (vm : VirtualMemory) (va : BitVec 64) : Option (BitVec 64 × BitVec 64) :=
  let large := vm.mapped (midPath va) (pageIndex va 21)
  let leaf := vm.mapped (leafPath va) (pageIndex va 12)
  if large ≠ 0#64 then
    some ((large &&& kLargePageAddressMask2MiB) ||| (va &&& kLargePageOffsetMask2MiB),
      large &&& ~~~kLargePageAddressMask2MiB)
  else if leaf ≠ 0#64 then
    some ((leaf &&& kEntryAddressMask) ||| (va &&& kPageOffsetMask), leaf &&& ~~~kEntryAddressMask)
  else none

theorem mapped_none (h : vm.tables q = none) : vm.mapped q j = 0#64 := by
  simp [mapped, entryOf_none h]

theorem mapped_leaf (va : BitVec 64) (j : Nat) :
    vm.mapped (leafPath va) j = vm.entryOf (leafPath va) j := by
  simp [mapped, leafPath]

theorem lookup_of_no_table {va : BitVec 64} (h : vm.tables (midPath va) = none) :
    vm.lookup va = none := by
  have hleaf : vm.tables (leafPath va) = none := tables_append_none (r := [pageIndex va 21]) h
  simp [lookup, mapped_none h, mapped_none hleaf]

theorem Tree.upper_table (h : Tree slots vm) (hqj : InSlots slots (q ++ [j])) (hl : q.length ≤ 1)
    (hne : vm.entryOf q j ≠ 0#64) :
    vm.tables (q ++ [j]) = some (entryAddress (vm.entryOf q j)) := by
  rw [tables_snoc, nextTable, if_pos (h.upper q j hqj hl hne)]

/-- `translate` reads the mapping entries of the tree. -/
theorem translate_eq_lookup {va : BitVec 64} (h : Tree slots vm) (hs : slots (pageIndex va 39)) :
    vm.translate va = vm.lookup va := by
  have hp : InSlots slots (midPath va) :=
    (leafPath_inSlots va hs (i := 0) (by decide)).of_append.of_append (r := [pageIndex va 21])
  unfold translate
  by_cases hi : vm.initialized = true
  swap
  · simp [hi, lookup_of_no_table (tables_of_not_initialized hi _)]
  simp only [hi, Bool.not_true, Bool.false_eq_true, if_false]
  rw [← entryOf_eq (tables_root hi)]
  by_cases h4 : vm.entryOf [] (pageIndex va 39) = 0#64
  · have hnone : vm.tables [pageIndex va 39] = none := by
      rw [← List.nil_append [pageIndex va 39], tables_snoc, h4, nextTable_zero]
    rw [if_pos h4, lookup_of_no_table (tables_append_none (r := [pageIndex va 30]) hnone)]
  rw [if_neg h4, ← entryOf_eq (h.upper_table (q := [])
    (InSlots.of_append (r := [pageIndex va 30]) hp) (by simp) h4)]
  simp only [List.nil_append]
  by_cases h3 : vm.entryOf [pageIndex va 39] (pageIndex va 30) = 0#64
  · have hnone : vm.tables (midPath va) = none := by
      rw [midPath, ← List.singleton_append, tables_snoc, h3, nextTable_zero]
    rw [if_pos h3, lookup_of_no_table hnone]
  have hmid := h.upper_table (q := [pageIndex va 39]) hp (by simp) h3
  rw [if_neg h3, ← entryOf_eq hmid,
    show [pageIndex va 39] ++ [pageIndex va 30] = midPath va from rfl]
  have hsnoc := tables_snoc vm (midPath va) (pageIndex va 21)
  by_cases h2 : vm.entryOf (midPath va) (pageIndex va 21) = 0#64
  · rw [h2, nextTable_zero] at hsnoc
    have hleaf : vm.tables (leafPath va) = none := hsnoc
    simp [h2, lookup, mapped, entryOf_none hleaf]
  rw [if_neg h2]
  by_cases hlarge : vm.entryOf (midPath va) (pageIndex va 21) &&& kEntryLargePage = 0#64
  · rw [nextTable, if_pos (isTableEntry_iff.mpr ⟨h2, hlarge⟩)] at hsnoc
    have hleaf : vm.tables (leafPath va) =
      some (entryAddress (vm.entryOf (midPath va) (pageIndex va 21))) := hsnoc
    simp only [lookup, (mapped_eq_zero_iff (q := midPath va) rfl).mpr hlarge, mapped_leaf,
      entryOf_eq hleaf]
    simp [hlarge]
  · have hmapped : vm.mapped (midPath va) (pageIndex va 21) =
        vm.entryOf (midPath va) (pageIndex va 21) := by
      rw [mapped, if_pos (Or.inr ⟨rfl, hlarge⟩)]
    simp [lookup, hmapped, h2, hlarge]

theorem tree_fresh (h : vm.initialized = false) (hf : vm.frames.Tracked) :
    Tree slots vm := by
  have h0 : ∀ q, vm.tables q = none := tables_of_not_initialized (by simp [h])
  refine ⟨hf, fun q g _ _ hg => ?_, fun q q' g _ _ _ _ hg _ => ?_, fun q j _ _ hne => ?_⟩
  · exact absurd hg (by simp [h0])
  · exact absurd hg (by simp [h0])
  · exact (hne (entryOf_none (h0 q))).elim

/-- An empty address space over the booted container. -/
def bootedSpace : VirtualMemory := { mem := fun _ => 0#8, frames := bootedFrames }

theorem bootedSpace_tree : Tree slots bootedSpace :=
  tree_fresh rfl bootedFrames_tracked

end Os1.VirtualMemory
