import Os1.Mm.Teardown
import Os1.Proc.LoadView

/-! Where the frames that a load takes end up, followed on the list of free frames alone. -/
namespace Os1

open VirtualMemory PageFrameContainer

/-- The free frames in the order in which they are allocated. -/
def PageFrameContainer.freeFrames (f : PageFrameContainer) : List Nat :=
  (List.range f.pageCount).filter f.isFree

/-- The account of a load: the free frames, the paths of its page tables, the frame of each page,
the frames it has lost, and the memory it has built. -/
structure Draft where
  free : List Nat
  tables : List (List Nat) := []
  pages : List (BitVec 36 × Nat) := []
  lost : List Nat := []
  memory : UserMemory := fun _ => none

namespace Draft

/-- Make sure that there is a table at a path. -/
def enter (d : Draft) (q : List Nat) : Bool × Draft :=
  if q ∈ d.tables then (true, d)
  else
    match d.free with
    | [] => (false, d)
    | _ :: free => (true, { d with free, tables := q :: d.tables })

/-- The tables above a page, from the top. -/
def walk (d : Draft) (va : BitVec 64) : Bool × Draft :=
  match d.enter [pageIndex va 39] with
  | (false, d) => (false, d)
  | (true, d) =>
    match d.enter (midPath va) with
    | (false, d) => (false, d)
    | (true, d) => d.enter (leafPath va)

/-- Map a zeroed frame. The frame that the page had before is lost. -/
def put (d : Draft) (va : BitVec 64) (rights : UserRights) (frame : Nat) : Draft :=
  { d with
    pages := (pageNumber va, frame) :: d.pages.filter (·.1 ≠ pageNumber va)
    lost := (d.pages.filter (·.1 = pageNumber va)).map (·.2) ++ d.lost
    memory := fun va' =>
      if pageNumber va' = pageNumber va then some (rights, 0#8) else d.memory va' }

/-- Take a frame for a page. It is lost if there are no frames for the tables above the page. -/
def mapPage (d : Draft) (va : BitVec 64) (rights : UserRights) : Bool × Draft :=
  match d.free with
  | [] => (false, d)
  | frame :: free =>
    match { d with free }.walk va with
    | (false, d) => (false, { d with lost := frame :: d.lost })
    | (true, d) => (true, d.put va rights frame)

def mapPages (va : BitVec 64) (rights : UserRights) : (remaining i : Nat) → Draft → Bool × Draft
  | 0, _, d => (true, d)
  | remaining + 1, i, d =>
    match d.mapPage (pageAt va i) rights with
    | (false, d) => (false, d)
    | (true, d) => mapPages va rights remaining (i + 1) d

theorem enter_lost (d : Draft) (q : List Nat) : (d.enter q).2.lost = d.lost := by
  unfold enter
  split
  · rfl
  · split <;> rfl

theorem walk_lost (d : Draft) (va : BitVec 64) : (d.walk va).2.lost = d.lost := by
  unfold walk
  split
  next d1 h1 => rw [← enter_lost d, h1]
  next d1 h1 =>
    have hd1 : d1.lost = d.lost := by rw [← enter_lost d, h1]
    rw [← hd1]
    split
    next d2 h2 => rw [← enter_lost d1, h2]
    next d2 h2 => rw [enter_lost, ← enter_lost d1, h2]

end Draft

/-! ## The allocator -/

theorem PageFrameContainer.freeFrames_of_none {f : PageFrameContainer} (ht : f.Tracked)
    (hi : f.initialized = true) (ha : f.allocate = none) : f.freeFrames = [] := by
  refine List.filter_eq_nil_iff.mpr fun p hp => ?_
  simp [allocate_none ht hi ha p (List.mem_range.mp hp)]

theorem PageFrameContainer.freeFrames_take {f : PageFrameContainer} {p : Nat}
    (hp : p < f.pageCount) (hf : f.isFree p = true) (hlow : ∀ q, q < p → f.isFree q = false) :
    f.freeFrames = p :: (f.take p).freeFrames := by
  have hrange : List.range f.pageCount =
      List.range p ++ p :: List.range' (p + 1) (f.pageCount - p - 1) := by
    have happend : List.range' 0 p ++ List.range' (0 + p) (f.pageCount - p) =
        List.range' 0 (p + (f.pageCount - p)) := List.range'_append_1
    rw [Nat.zero_add, Nat.add_sub_cancel' hp.le] at happend
    rw [List.range_eq_range', List.range_eq_range', ← List.range'_succ, ← happend]
    congr 2
    omega
  have hnone : ∀ g : PageFrameContainer, (∀ q, q < p → g.isFree q = false) →
      (List.range p).filter g.isFree = [] := by
    intro g hg
    refine List.filter_eq_nil_iff.mpr fun q hq => ?_
    simp [hg q (List.mem_range.mp hq)]
  have htake : ∀ q, (f.take p).isFree q = (f.isFree q && !decide (q = p)) := isFree_take f p
  rw [freeFrames, freeFrames, (take_shape f p).pageCount, hrange, List.filter_append,
    List.filter_append, hnone f hlow, hnone (f.take p) fun q hq => by simp [htake, hlow q hq],
    List.nil_append, List.nil_append, List.filter_cons_of_pos hf,
    List.filter_cons_of_neg (by simp [htake])]
  refine congrArg (p :: ·) (List.filter_congr fun q hq => ?_)
  have hne : q ≠ p := by
    have := List.mem_range'_1.mp hq
    omega
  simp [htake, hne]

/-- An allocation takes the first free frame. -/
theorem PageFrameContainer.freeFrames_of_some {f t : PageFrameContainer} {a : Nat} (ht : f.Tracked)
    (ha : f.allocate = some (a, t)) :
    ∃ p, a = p * kPageSize ∧ p < f.pageCount ∧ f.isFree p = true ∧ t = f.take p ∧
      f.freeFrames = p :: (f.take p).freeFrames := by
  obtain ⟨p, rfl, hp, hf, rfl, hlow⟩ := allocate_some ht ha
  exact ⟨p, rfl, hp, hf, rfl, freeFrames_take hp hf hlow⟩

/-! ## The account of an address space -/

namespace VirtualMemory

variable {slot : Nat} {before : PageFrameContainer} {unheld : List Nat} {d : Draft}
  {vm vm' : VirtualMemory} {q : List Nat} {g j n f : Nat} {va : BitVec 64}

/-- The frame is a table or a page of the address space. -/
def Held (slot : Nat) (vm : VirtualMemory) (n : Nat) : Prop :=
  (∃ q, InSlot slot q ∧ q.length ≤ 3 ∧ vm.tables q = some (n * kPageSize)) ∨
    SlotPage slot vm (n * kPageSize)

/-- The draft tells where the frames are that were free in `before`: still free, held by the
address space, or in the list of those that nothing holds. -/
structure Drafts (slot : Nat) (before : PageFrameContainer) (unheld : List Nat) (d : Draft)
    (vm : VirtualMemory) : Prop where
  space : UserSpace slot vm
  init : vm.initialized = true
  leaves : OpenLeaves slot vm
  pageCount : vm.frames.pageCount = before.pageCount
  free : d.free = vm.frames.freeFrames
  tables : ∀ q, InSlot slot q → q ≠ [] → q.length ≤ 3 →
    ((vm.tables q).isSome = true ↔ q ∈ d.tables)
  pages : ∀ va, InWindow slot va → ∀ f, (pageNumber va, f) ∈ d.pages ↔
    vm.leafOf va ≠ 0#64 ∧ entryAddress (vm.leafOf va) = f * kPageSize
  window : ∀ p ∈ d.pages, ∃ va, InWindow slot va ∧ pageNumber va = p.1
  memory : ∀ va, InWindow slot va → vm.slotView va = d.memory va
  ready : ∀ n ∈ unheld, FrameReady slot vm (n * kPageSize)
  account : ∀ n, before.isFree n = true ↔
    vm.frames.isFree n = true ∨ Held slot vm n ∨ n ∈ unheld

theorem Held.grow (h : Held slot vm n) (hg : Grows (· = slot) 3 vm vm') : Held slot vm' n := by
  rcases h with ⟨q, hs, hl, ht⟩ | hp
  · exact Or.inl ⟨q, hs, hl, hg.tables q _ hs hl ht⟩
  · exact Or.inr ((slotPage_congr fun q j => hg.leaf).mpr hp)

theorem Held.of_grow (h : Held slot vm' n) (hg : Grows (· = slot) 3 vm vm') :
    Held slot vm n ∨ vm.frames.isFree n = true := by
  rcases h with ⟨q, hs, hl, ht⟩ | hp
  · rcases hg.fresh q _ hs hl ht with ht | ⟨m, hm, hf⟩
    · exact Or.inl (Or.inl ⟨q, hs, hl, ht⟩)
    · rw [Nat.eq_of_mul_eq_mul_right (by decide) hm]
      exact Or.inr hf
  · exact Or.inl (Or.inr ((slotPage_congr fun q j => hg.leaf).mp hp))

/-- New tables come from free frames, so the account of the other frames stays. -/
theorem Drafts.grow {free : List Nat} {tables : List (List Nat)} (hslot : slot < 512)
    (h : Drafts slot before unheld d vm) (ht : Tree (· = slot) vm')
    (hg : Grows (· = slot) 3 vm vm') (hfree : free = vm'.frames.freeFrames)
    (htables : ∀ q, InSlot slot q → q ≠ [] → q.length ≤ 3 →
      ((vm'.tables q).isSome = true ↔ q ∈ tables)) :
    Drafts slot before unheld { d with free, tables } vm' := by
  have hspace := h.space.grow ht hg
  refine ⟨hspace, hg.init h.init, fun va hs => ?_, hg.shape.pageCount.trans h.pageCount, hfree,
    htables, fun va hw f => ?_, h.window, fun va hw => ?_, fun n hn => (h.ready n hn).grow hg,
    fun n => ?_⟩
  · rw [hg.leafOf hs]
    exact h.leaves va hs
  · rw [hg.leafOf (hw.pageIndex hslot)]
    exact h.pages va hw f
  · rw [slotView_grow hspace hg (hw.pageIndex hslot)]
    exact h.memory va hw
  · rw [h.account n]
    constructor
    · rintro (hf | hheld | hn)
      · by_cases hf' : vm'.frames.isFree n = true
        · exact Or.inl hf'
        · exact Or.inr (Or.inl (Or.inl (hg.taken n hf (by simpa using hf'))))
      · exact Or.inr (Or.inl (hheld.grow hg))
      · exact Or.inr (Or.inr hn)
    · rintro (hf | hheld | hn)
      · exact Or.inl (hg.kept n hf)
      · exact (hheld.of_grow hg).elim (fun hh => Or.inr (Or.inl hh)) Or.inl
      · exact Or.inr (Or.inr hn)

/-- One level of a walk follows the draft. -/
theorem Drafts.stepDown {r : Option Nat} (hslot : slot < 512)
    (h : Drafts slot before unheld d vm) (hqj : InSlot slot (q ++ [j])) (hl : q.length ≤ 2)
    (hg : vm.tables q = some g) (he : vm.stepDown g j true true = (vm', r)) :
    (d.enter (q ++ [j])).1 = r.isSome ∧ Drafts slot before unheld (d.enter (q ++ [j])).2 vm' ∧
      ∀ f, r = some f → vm'.tables (q ++ [j]) = some f := by
  obtain ⟨ht, hgrow, hr⟩ := stepDown_create_spec h.space.tree hqj hl hg
    (fun hl => h.space.small q j hqj hl) he
  have hg3 : Grows (· = slot) 3 vm vm' := hgrow.mono (by omega) (by decide)
  have hlen : (q ++ [j]).length ≤ 3 := by rw [List.length_append, List.length_singleton]; omega
  have hmem := h.tables (q ++ [j]) hqj (by simp) hlen
  have hnot : vm.entryOf q j = 0#64 → q ++ [j] ∉ d.tables := by
    intro h0
    rw [← hmem, tables_snoc, h0, nextTable_zero]
    simp
  rcases stepDown_create_cases h.space.tree hg he with
    ⟨rfl, ⟨h0, rfl, hnone⟩ | ⟨-, -, hu⟩⟩ | ⟨hne, hsome, -, heq⟩ | ⟨n, h0, hsome, ha, hn, hf, heq⟩
  · have hempty := freeFrames_of_none h.space.tree.tracked h.space.ready hnone
    rw [Draft.enter, if_neg (hnot h0), h.free, hempty]
    exact ⟨rfl, h, hr⟩
  · cases hu
  · have hin : q ++ [j] ∈ d.tables := by
      rw [← hmem, h.space.tables_of_entry hqj hl hne]
      rfl
    rw [Draft.enter, if_pos hin, hsome]
    refine ⟨rfl, h.grow hslot ht hg3 ?_ fun q' hs hne' hl' => ?_, hsome ▸ hr⟩
    · rw [heq]
      exact h.free
    · rw [heq, (h.space.tree.store_same hqj (by omega) hg
        (fun _ => nextTable_or_user _ hne)).1 q' hs hl']
      exact h.tables q' hs hne' hl'
  · obtain ⟨p, hp, -, -, -, hfree⟩ := freeFrames_of_some h.space.tree.tracked ha
    obtain rfl : n = p := Nat.eq_of_mul_eq_mul_right (by decide) hp
    rw [Draft.enter, if_neg (hnot h0), h.free, hfree, hsome]
    refine ⟨rfl, h.grow hslot ht hg3 (by rw [heq]; rfl) fun q' hs hne' hl' => ?_, hsome ▸ hr⟩
    have hlink := (h.space.tree.link_same hqj hl hg h0 hn hf
      (nextTable_frame (u := true) (lt_of_lt_of_le hn h.space.tree.tracked.bounded))).1 q' hs hl'
    rw [heq, hlink, List.mem_cons]
    split
    next heq' => simp [heq']
    next hne'' =>
      rw [h.tables q' hs hne' hl']
      exact (or_iff_right hne'').symm

/-- A walk takes frames for tables in the order of the draft. -/
theorem Drafts.walk {r : Option Nat} (hslot : slot < 512) (h : Drafts slot before unheld d vm)
    (hs : pageIndex va 39 = slot) (he : vm.walkToLeaf va true true = (vm', r)) :
    (d.walk va).1 = r.isSome ∧ Drafts slot before unheld (d.walk va).2 vm' := by
  have hp3 : InSlot slot (leafPath va) :=
    (leafPath_inSlots va hs (pageIndex_lt va 12)).of_append
  have hp2 : InSlot slot (midPath va) := InSlots.of_append (r := [pageIndex va 21]) hp3
  have hp1 : InSlot slot [pageIndex va 39] := InSlots.of_append (r := [pageIndex va 30]) hp2
  rw [walkToLeaf, walkToPml2, ensureRoot, if_pos h.init] at he
  dsimp only at he
  rcases e1 : vm.stepDown vm.root.toNat (pageIndex va 39) true true with ⟨vm1, r1⟩
  obtain ⟨hok1, h1, ht1⟩ := h.stepDown (q := []) hslot hp1 (by simp) (tables_root h.init) e1
  rw [e1] at he
  rw [Draft.walk, List.nil_append] at *
  rcases e1' : d.enter [pageIndex va 39] with ⟨ok1, d1⟩
  rw [e1'] at hok1 h1
  obtain rfl : ok1 = r1.isSome := hok1
  cases r1 with
  | none =>
    cases he
    exact ⟨rfl, h1⟩
  | some g1 =>
    dsimp only [Option.isSome_some] at he h1 ⊢
    rcases e2 : vm1.stepDown g1 (pageIndex va 30) true true with ⟨vm2, r2⟩
    obtain ⟨hok2, h2, ht2⟩ := h1.stepDown (q := [pageIndex va 39]) hslot hp2 (by simp)
      (ht1 g1 rfl) e2
    rw [e2] at he
    rcases e2' : d1.enter (midPath va) with ⟨ok2, d2⟩
    rw [show [pageIndex va 39] ++ [pageIndex va 30] = midPath va from rfl] at hok2 h2 ht2
    rw [e2'] at hok2 h2
    obtain rfl : ok2 = r2.isSome := hok2
    cases r2 with
    | none =>
      cases he
      exact ⟨rfl, h2⟩
    | some g2 =>
      dsimp only [Option.isSome_some] at he h2 ⊢
      rcases e3 : vm2.stepDown g2 (pageIndex va 21) true true with ⟨vm3, r3⟩
      obtain ⟨hok3, h3, -⟩ := h2.stepDown (q := midPath va) hslot hp3 (by simp [midPath])
        (ht2 g2 rfl) e3
      rw [e3] at he
      rw [show midPath va ++ [pageIndex va 21] = leafPath va from rfl] at hok3 h3
      cases r3 with
      | none =>
        cases he
        exact ⟨hok3, h3⟩
      | some g3 =>
        cases he
        exact ⟨hok3, h3⟩

/-- A frame that has been taken and cleared is held by nothing yet. -/
theorem Drafts.zeroFrame {free : List Nat} (hslot : slot < 512)
    (h : Drafts slot before unheld d vm) (hn : n < vm.frames.pageCount)
    (hf : vm.frames.isFree n = true) (hfree : free = (vm.frames.take n).freeFrames) :
    Drafts slot before (n :: unheld) { d with free } (vm.zeroFrame n) := by
  obtain ⟨htables, hentry⟩ := h.space.tree.zeroFrame_same hf
  obtain ⟨hspace, hready⟩ := h.space.zeroFrame hn hf
  have hpage : ∀ a, SlotPage slot (vm.zeroFrame n) a ↔ SlotPage slot vm a := fun a =>
    slotPage_congr fun q j hs hl => hentry q j hs (by omega)
  have hheld : ∀ m, Held slot (vm.zeroFrame n) m ↔ Held slot vm m := by
    intro m
    rw [Held, Held, hpage]
    refine or_congr_left (exists_congr fun q => and_congr_right fun hs => and_congr_right fun hl =>
      ?_)
    rw [htables q hs hl]
  refine ⟨hspace, h.init, fun va hs => ?_, (take_shape vm.frames n).pageCount.trans h.pageCount,
    hfree, fun q hs hne hl => ?_, fun va hw f => ?_, h.window, fun va hw => ?_, fun m hm => ?_,
    fun m => ?_⟩
  · rw [leafOf_congr hs hentry]
    exact h.leaves va hs
  · rw [htables q hs hl]
    exact h.tables q hs hne hl
  · rw [leafOf_congr (hw.pageIndex hslot) hentry]
    exact h.pages va hw f
  · rw [slotView_zeroFrame h.space hf (hw.pageIndex hslot)]
    exact h.memory va hw
  · rcases List.mem_cons.mp hm with rfl | hm
    · exact hready
    · have hr := h.ready m hm
      refine ⟨hr.busy.of_taken n, fun q hs hl => ?_, fun q j hs hl => ?_⟩
      · rw [htables q hs hl]
        exact hr.notTable q hs hl
      · rw [hentry q j hs (by omega)]
        exact hr.notLeaf q j hs hl
  · rw [h.account m, hheld, List.mem_cons]
    have htake : (vm.zeroFrame n).frames.isFree m = true ↔
        vm.frames.isFree m = true ∧ m ≠ n := by
      simp [VirtualMemory.zeroFrame, isFree_take]
    rw [htake]
    by_cases hmn : m = n
    · simp [hmn, hf]
    · simp [hmn]

theorem frameWord_ne_zero (f : Nat) (flags : PageFlags) : frameWord f flags ≠ 0#64 :=
  or_ne_zero_of_right (toWord_withPresent_ne_zero _)

/-- The frames that the draft has for the page of an address. -/
theorem Drafts.mem_old (h : Drafts slot before unheld d vm) (hw : InWindow slot va) :
    n ∈ (d.pages.filter (·.1 = pageNumber va)).map (·.2) ↔
      vm.leafOf va ≠ 0#64 ∧ entryAddress (vm.leafOf va) = n * kPageSize := by
  rw [← h.pages va hw n]
  simp

section Put

variable (flags : PageFlags) (hslot : slot < 512) (h : Drafts slot before (f :: unheld) d vm)
  (hf : f < 2 ^ 40) (hw : InWindow slot va) (hg : vm.tables (leafPath va) = some g)
include hslot h hf hw hg

/-- After the entry is set, the frames of the other pages and the new frame are held. -/
theorem Drafts.held_setLeaf :
    (Held slot vm n → Held slot (vm.setLeaf g va (frameWord f flags)) n ∨
      vm.leafOf va ≠ 0#64 ∧ entryAddress (vm.leafOf va) = n * kPageSize) ∧
    Held slot (vm.setLeaf g va (frameWord f flags)) f ∧
    (Held slot (vm.setLeaf g va (frameWord f flags)) n → Held slot vm n ∨ n = f) := by
  have hs := hw.pageIndex hslot
  have htables := fun q hq hl => tables_setLeaf (q := q) (e := frameWord f flags) h.space.tree hs
    hg hq hl
  have hentry := fun q k hq hl => entryOf_setLeaf (q := q) (k := k) (e := frameWord f flags)
    h.space.tree hs hg hq hl
  have hleaf : InSlot slot (leafPath va ++ [pageIndex va 12]) :=
    leafPath_inSlots va hs (pageIndex_lt va 12)
  refine ⟨?_, Or.inr (slotPage_iff.mpr ⟨leafPath va, pageIndex va 12, hleaf, rfl, ?_⟩), ?_⟩
  · rintro (⟨q, hq, hl, ht⟩ | hp)
    · exact Or.inl (Or.inl ⟨q, hq, hl, (htables q hq hl).trans ht⟩)
    · obtain ⟨q, j, hq, hl, hne, haddr⟩ := slotPage_iff.mp hp
      by_cases hc : q = leafPath va ∧ j = pageIndex va 12
      · rw [hc.1, hc.2] at hne haddr
        rw [leafOf, mapped_leaf]
        exact Or.inr ⟨hne, haddr⟩
      · refine Or.inl (Or.inr (slotPage_iff.mpr ⟨q, j, hq, hl, ?_⟩))
        rw [hentry q j hq (by omega), if_neg hc]
        exact ⟨hne, haddr⟩
  · rw [hentry _ _ hleaf (by simp [leafPath]), if_pos ⟨rfl, rfl⟩, entryAddress_frameWord flags hf]
    exact ⟨frameWord_ne_zero f flags, rfl⟩
  · rintro (⟨q, hq, hl, ht⟩ | hp)
    · exact Or.inl (Or.inl ⟨q, hq, hl, (htables q hq hl).symm.trans ht⟩)
    · obtain ⟨q, j, hq, hl, hne, haddr⟩ := slotPage_iff.mp hp
      rw [hentry q j hq (by omega)] at hne haddr
      split at haddr
      · rw [entryAddress_frameWord flags hf] at haddr
        exact Or.inr (Nat.eq_of_mul_eq_mul_right (by decide) haddr).symm
      next hc =>
        rw [if_neg hc] at hne
        exact Or.inl (Or.inr (slotPage_iff.mpr ⟨q, j, hq, hl, hne, haddr⟩))

/-- The frame that the page had before is neither a table nor mapped any more. -/
theorem Drafts.ready_old (hold : vm.leafOf va ≠ 0#64 ∧
    entryAddress (vm.leafOf va) = n * kPageSize) :
    FrameReady slot (vm.setLeaf g va (frameWord f flags)) (n * kPageSize) := by
  have hs := hw.pageIndex hslot
  have hleaf : InSlot slot (leafPath va ++ [pageIndex va 12]) :=
    leafPath_inSlots va hs (pageIndex_lt va 12)
  rw [leafOf, mapped_leaf] at hold
  obtain ⟨hne, haddr⟩ := hold
  rw [← haddr]
  refine ⟨h.space.leafBusy _ _ hleaf rfl hne, fun q hq hl => ?_, fun q j hq hl hne' => ?_⟩
  · rw [tables_setLeaf h.space.tree hs hg hq hl]
    exact h.space.leafNotTable _ _ q hleaf rfl hne hq hl
  · rw [entryOf_setLeaf h.space.tree hs hg hq (by omega)] at hne' ⊢
    split at hne'
    next hc =>
      rw [if_pos hc, entryAddress_frameWord flags hf]
      exact fun heq => (h.ready f List.mem_cons_self).notLeaf _ _ hleaf rfl hne heq.symm
    next hc =>
      rw [if_neg hc]
      exact fun heq => hc (h.space.leafDistinct q j _ _ hq hl hne' hleaf rfl hne heq)

/-- Mapping the frame moves it to the pages, and the frame that was there to the lost ones. -/
theorem Drafts.put (hfresh : f ∉ unheld) (hz : ZeroPage vm.mem (f * kPageSize))
    (hu : flags.user = true) :
    Drafts slot before ((d.pages.filter (·.1 = pageNumber va)).map (·.2) ++ unheld)
      (d.put va (flagRights flags) f) (vm.setLeaf g va (frameWord f flags)) := by
  have hs := hw.pageIndex hslot
  have haddr := entryAddress_frameWord flags hf
  have hready := h.ready f List.mem_cons_self
  have hready' : FrameReady slot vm (entryAddress (frameWord f flags)) := by rwa [haddr]
  refine ⟨h.space.setLeaf hs hg hready', h.init, fun va' hs' hne => ?_, h.pageCount, h.free,
    fun q hq hne hl => ?_, fun va' hw' m => ?_, fun p hp => ?_, fun va' hw' => ?_,
    fun m hm => ?_, fun m => ?_⟩
  · rw [leafOf_setLeaf_slot h.space hs hg hs'] at hne ⊢
    split at hne
    next heq => rw [if_pos heq, userVisible_frameWord, hu]
    next heq =>
      rw [if_neg heq]
      exact h.leaves va' hs' hne
  · rw [tables_setLeaf h.space.tree hs hg hq hl]
    exact h.tables q hq hne hl
  · rw [leafOf_setLeaf_slot h.space hs hg (hw'.pageIndex hslot), Draft.put]
    by_cases heq : pageNumber va' = pageNumber va
    · rw [if_pos heq, heq, haddr]
      simp only [List.mem_cons, Prod.mk.injEq, true_and, List.mem_filter, ne_eq, not_true_eq_false,
        decide_false, Bool.false_eq_true, and_false, or_false, frameWord_ne_zero,
        not_false_eq_true]
      exact ⟨fun hm => by rw [hm], fun hm => (Nat.eq_of_mul_eq_mul_right (by decide) hm).symm⟩
    · rw [if_neg heq, ← h.pages va' hw' m]
      simp [heq]
  · rcases List.mem_cons.mp hp with rfl | hp
    · exact ⟨va, hw, rfl⟩
    · exact h.window p (List.mem_filter.mp hp).1
  · rw [slotView_setLeaf h.space hs hg hready' (hw'.pageIndex hslot),
      leafView_frameWord hf hz flags hu, h.memory va' hw']
    rfl
  · rcases List.mem_append.mp hm with hm | hm
    · exact h.ready_old flags hslot hf hw hg ((h.mem_old hw).mp hm)
    · refine FrameReady.setLeaf h.space (h.ready m (List.mem_cons_of_mem _ hm)) hs hg ?_
      rw [haddr]
      exact fun heq => hfresh (Nat.eq_of_mul_eq_mul_right (by decide) heq ▸ hm)
  · obtain ⟨hmoved, hnew, hback⟩ := h.held_setLeaf (n := m) flags hslot hf hw hg
    rw [h.account m, List.mem_cons, List.mem_append, h.mem_old hw]
    constructor
    · rintro (hfree | hheld | rfl | hm)
      · exact Or.inl hfree
      · rcases hmoved hheld with hheld | hold
        · exact Or.inr (Or.inl hheld)
        · exact Or.inr (Or.inr (Or.inl hold))
      · exact Or.inr (Or.inl hnew)
      · exact Or.inr (Or.inr (Or.inr hm))
    · rintro (hfree | hheld | hold | hm)
      · exact Or.inl hfree
      · rcases hback hheld with hheld | rfl
        · exact Or.inr (Or.inl hheld)
        · exact Or.inr (Or.inr (Or.inl rfl))
      · refine Or.inr (Or.inl (Or.inr ?_))
        rw [← hold.2]
        exact slotPage_leafOf hs hold.1
      · exact Or.inr (Or.inr (Or.inr hm))

end Put

theorem Drafts.with_lost (h : Drafts slot before unheld d vm) (lost : List Nat) :
    Drafts slot before unheld { d with lost } vm :=
  ⟨h.space, h.init, h.leaves, h.pageCount, h.free, h.tables, h.pages, h.window, h.memory, h.ready,
    h.account⟩

theorem ZeroPage.grow {a : Nat} (hz : ZeroPage vm.mem a) (h' : UserSpace slot vm')
    (hr : FrameReady slot vm' a) (hg : Grows (· = slot) 3 vm vm') : ZeroPage vm'.mem a := by
  intro x h1 h2
  by_contra hne
  refine hr.not_inTable h' h1 h2 (hg.wrote x ?_)
  rw [hz x h1 h2]
  exact hne

/-- `allocate_and_map` takes and loses the frames of the draft. -/
theorem Drafts.allocatePages {flags : PageFlags} {count : Nat} {r : Option Nat}
    (hslot : slot < 512) (hva : va &&& kPageOffsetMask = 0#64) (hu : flags.user = true)
    (hwin : ∀ i < count, InWindow slot (pageAt va i)) (remaining i firstPage : Nat)
    (hcount : i + remaining = count) (h : Drafts slot before d.lost d vm)
    (he : VirtualMemory.allocatePages va flags remaining i firstPage vm = (r, vm')) :
    (d.mapPages va (flagRights flags) remaining i).1 = r.isSome ∧
      Drafts slot before (d.mapPages va (flagRights flags) remaining i).2.lost
        (d.mapPages va (flagRights flags) remaining i).2 vm' := by
  induction remaining generalizing i firstPage vm d with
  | zero =>
    cases he
    exact ⟨rfl, h⟩
  | succ remaining ih =>
    have hw := hwin i (by omega)
    have hs := hw.pageIndex hslot
    rw [VirtualMemory.allocatePages] at he
    rw [Draft.mapPages]
    cases ha : vm.frames.allocate with
    | none =>
      rw [ha] at he
      cases he
      rw [Draft.mapPage, h.free, freeFrames_of_none h.space.tree.tracked h.space.ready ha]
      exact ⟨rfl, h⟩
    | some p =>
      obtain ⟨a, frames⟩ := p
      obtain ⟨m, rfl, hm, hf, rfl, hfree⟩ := freeFrames_of_some h.space.tree.tracked ha
      have hm40 : m < 2 ^ 40 := lt_of_lt_of_le hm h.space.tree.tracked.bounded
      have hfresh : m ∉ d.lost := by
        intro hmem
        cases ((h.ready m hmem).busy.not_free rfl).symm.trans hf
      have hz := h.zeroFrame hslot hm hf rfl
      have hlarge := hz.space.noLargePage hs
      simp only [ha] at he
      rcases hmap : (vm.zeroFrame m).mapPhysical (pageAt va i) (BitVec.ofNat 64 (m * kPageSize))
        1#64 flags.withPresent with ⟨ok, vm2⟩
      obtain ⟨vm1, r1, hwalk, hcase⟩ := mapPhysical_one hz.space.tree hs hlarge
        (pageAt_aligned hva i) hm40 hmap
      have hgrow := (walkToLeaf_create_spec hz.space.tree hs hlarge hwalk).2.1
      rw [show flags.withPresent.user = true from hu] at hwalk
      obtain ⟨hok, h1⟩ := hz.walk hslot hs hwalk
      have hlost := Draft.walk_lost { d with free := (vm.frames.take m).freeFrames } (pageAt va i)
      have hzero : ZeroPage vm1.mem (m * kPageSize) :=
        ZeroPage.grow (fun x h1 h2 => Memory.fill_apply_of_mem ⟨h1, h2⟩) h1.space
          (h1.ready m List.mem_cons_self) hgrow
      unfold VirtualMemory.zeroFrame at hmap
      rw [hmap] at he
      rcases e1 : { d with free := (vm.frames.take m).freeFrames }.walk (pageAt va i) with ⟨ok1, d1⟩
      rw [e1] at hok h1 hlost
      obtain rfl : ok1 = r1.isSome := hok
      replace hlost : d1.lost = d.lost := hlost
      replace h1 : Drafts slot before (m :: d.lost) d1 vm1 := h1
      rw [Draft.mapPage, h.free, hfree]
      dsimp only
      rw [e1]
      rcases hcase with ⟨rfl, rfl, rfl⟩ | ⟨hsome, rfl, g, hg, rfl⟩
      · cases he
        refine ⟨rfl, ?_⟩
        rw [← hlost] at h1
        exact h1.with_lost _
      · have hput := h1.put flags hslot hm40 hw hg hfresh hzero hu
        rw [← hlost] at hput
        rw [Option.isSome_iff_ne_none.mpr hsome]
        exact ih (i + 1) _ (by omega) hput he

/-- Writes to mapped pages change the memory of the draft only. -/
theorem Drafts.writesPages {m : Memory} {memory : UserMemory} (hslot : slot < 512)
    (h : Drafts slot before unheld d vm) (hm : WritesPages slot vm m)
    (hmem : ∀ va, InWindow slot va → { vm with mem := m }.slotView va = memory va) :
    Drafts slot before unheld { d with memory } { vm with mem := m } := by
  obtain ⟨htables, hentry⟩ := h.space.writesPages_same hm
  have hleaf : ∀ {va}, pageIndex va 39 = slot → { vm with mem := m }.leafOf va = vm.leafOf va :=
    fun hs => leafOf_of_writesPages h.space hm hs
  refine ⟨h.space.of_writesPages hm, h.init, fun va hs => ?_, h.pageCount, h.free,
    fun q hs hne hl => ?_, fun va hw f => ?_, h.window, hmem, fun n hn => ?_, fun n => ?_⟩
  · rw [hleaf hs]
    exact h.leaves va hs
  · rw [htables q hs hl]
    exact h.tables q hs hne hl
  · rw [hleaf (hw.pageIndex hslot)]
    exact h.pages va hw f
  · have hr := h.ready n hn
    refine ⟨hr.busy, fun q hs hl => ?_, fun q j hs hl => ?_⟩
    · rw [htables q hs hl]
      exact hr.notTable q hs hl
    · rw [hentry q j hs (by omega)]
      exact hr.notLeaf q j hs hl
  · rw [h.account n, Held, Held, slotPage_congr fun q j hs hl => hentry q j hs (by omega)]
    have hheld : (∃ q, InSlot slot q ∧ q.length ≤ 3 ∧
        { vm with mem := m }.tables q = some (n * kPageSize)) ↔
        ∃ q, InSlot slot q ∧ q.length ≤ 3 ∧ vm.tables q = some (n * kPageSize) :=
      exists_congr fun q => and_congr_right fun hs => and_congr_right fun hl => by
        rw [htables q hs hl]
    rw [hheld]

end VirtualMemory
end Os1
