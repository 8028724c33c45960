import Os1.Mm.UserCopyExact
import Os1.Mm.UserSpace

/-! What user code sees of an address space: the rights and the bytes of its pages. -/
namespace Os1.VirtualMemory

open PageFrameContainer

/-- What user code may do with a page besides reading it. -/
structure UserRights where
  write : Bool
  execute : Bool
  deriving DecidableEq, Repr

/-- The entry is present and open to user code. -/
def userVisible (e : BitVec 64) : Bool :=
  e &&& (PageFlags.presentBit ||| PageFlags.userBit) = PageFlags.presentBit ||| PageFlags.userBit

def rightsOf (e : BitVec 64) : UserRights where
  write := e &&& PageFlags.writeBit ≠ 0#64
  execute := e &&& PageFlags.noExecuteBit = 0#64

def UserRights.meet (r s : UserRights) : UserRights :=
  ⟨r.write && s.write, r.execute && s.execute⟩

/-- Bits 47 to 63 of the address are equal. -/
def isCanonical (va : BitVec 64) : Bool := va.toNat < 2 ^ 47 || 2 ^ 64 - 2 ^ 47 ≤ va.toNat

/-- The rights and the byte that user code finds at an address: every level of the walk has to be
open to it, and grants no more than its own rights. -/
def userView (vm : VirtualMemory) (va : BitVec 64) : Option (UserRights × BitVec 8) :=
  if !vm.initialized || !isCanonical va then none
  else if !userVisible (vm.pml4e va) || !userVisible (vm.pml3e va) ||
      !userVisible (vm.pml2e va) then none
  else
    let upper := ((rightsOf (vm.pml4e va)).meet (rightsOf (vm.pml3e va))).meet
      (rightsOf (vm.pml2e va))
    if vm.pml2e va &&& kEntryLargePage ≠ 0#64 then
      some (upper, vm.mem ((vm.pml2e va &&& kLargePageAddressMask2MiB) |||
        (va &&& kLargePageOffsetMask2MiB)).toNat)
    else if !userVisible (vm.pml1e va) then none
    else
      some (upper.meet (rightsOf (vm.pml1e va)),
        vm.mem (entryAddress (vm.pml1e va) + va.toNat % kPageSize))

variable {slot : Nat} {vm vm' : VirtualMemory} {va va' e : BitVec 64} {g n : Nat}
  {flags : PageFlags}

/-! ## Entries -/

theorem userVisible_zero : userVisible 0#64 = false := by decide

theorem and_of_masked {a m f b : BitVec 64} (hm : m &&& b = 0#64) :
    ((a &&& m) ||| f) &&& b = f &&& b := by
  rw [BitVec.and_comm, BitVec.and_or_distrib_left, BitVec.and_comm b (a &&& m), BitVec.and_assoc,
    hm, BitVec.and_zero, BitVec.zero_or, BitVec.and_comm]

theorem or_and_of_disjoint {e f b : BitVec 64} (hf : f &&& b = 0#64) :
    (e ||| f) &&& b = e &&& b := by
  rw [BitVec.and_comm, BitVec.and_or_distrib_left, BitVec.and_comm b f, hf, BitVec.or_zero,
    BitVec.and_comm]

/-- The entry lets user code through with every right. -/
def Open (e : BitVec 64) : Prop := userVisible e = true ∧ rightsOf e = ⟨true, true⟩

theorem open_tableEntry (a : BitVec 64) :
    Open ((a &&& kEntryAddressMask) ||| tableEntryFlags true) := by
  refine ⟨?_, ?_⟩
  · rw [userVisible, and_of_masked (by decide)]
    decide
  · rw [rightsOf, and_of_masked (by decide), and_of_masked (by decide)]
    decide

theorem Open.or_user (h : Open e) : Open (e ||| PageFlags.userBit) := by
  obtain ⟨hv, hr⟩ := h
  refine ⟨?_, ?_⟩
  · rw [userVisible, decide_eq_true_iff] at hv ⊢
    rw [BitVec.and_comm, BitVec.and_or_distrib_left, BitVec.and_comm _ e, hv]
    decide
  · rwa [rightsOf, or_and_of_disjoint (by decide), or_and_of_disjoint (by decide)]

theorem userVisible_frameWord (m : Nat) (flags : PageFlags) :
    userVisible (frameWord m flags) = flags.user := by
  rw [userVisible, frameWord, leafWord, and_of_masked (by decide)]
  rcases flags with ⟨_, _, _ | _, _⟩ <;> decide +revert

theorem rightsOf_frameWord (m : Nat) (flags : PageFlags) :
    rightsOf (frameWord m flags) = ⟨flags.write, !flags.noExecute⟩ := by
  rw [rightsOf, frameWord, leafWord, and_of_masked (by decide), and_of_masked (by decide)]
  rcases flags with ⟨_, _ | _, _, _ | _⟩ <;> decide +revert

/-! ## The view of a slot -/

/-- The tables of the slot let user code through. -/
def OpenTables (slot : Nat) (vm : VirtualMemory) : Prop :=
  ∀ q j, InSlot slot (q ++ [j]) → q.length ≤ 2 → vm.entryOf q j ≠ 0#64 → Open (vm.entryOf q j)

/-- Every page of the slot is mapped for user code. -/
def OpenLeaves (slot : Nat) (vm : VirtualMemory) : Prop :=
  ∀ va, pageIndex va 39 = slot → vm.leafOf va ≠ 0#64 → userVisible (vm.leafOf va) = true

/-- What user code finds behind a leaf entry. -/
def leafView (m : Memory) (e va : BitVec 64) : Option (UserRights × BitVec 8) :=
  if userVisible e then some (rightsOf e, m (entryAddress e + va.toNat % kPageSize)) else none

/-- The view through the leaf entry alone. -/
def slotView (vm : VirtualMemory) (va : BitVec 64) : Option (UserRights × BitVec 8) :=
  leafView vm.mem (vm.leafOf va) va

theorem leafView_zero (m : Memory) (va : BitVec 64) : leafView m 0#64 va = none := rfl

theorem leafOf_none (h : vm.tables (leafPath va) = none) : vm.leafOf va = 0#64 := mapped_none h

theorem UserRights.meet_open (r : UserRights) : UserRights.meet ⟨true, true⟩ r = r := by
  simp [UserRights.meet]

/-- Behind open tables user code sees what the leaf entries say. -/
theorem userView_eq (h : UserSpace slot vm) (ho : OpenTables slot vm)
    (hs : pageIndex va 39 = slot) (hc : isCanonical va = true) :
    vm.userView va = vm.slotView va := by
  have hp : InSlot slot (leafPath va ++ [pageIndex va 12]) :=
    leafPath_inSlots va hs (pageIndex_lt va 12)
  have hp3 : InSlot slot (leafPath va) := hp.of_append
  have hp2 : InSlot slot (midPath va) := InSlots.of_append (r := [pageIndex va 21]) hp3
  have hp1 : InSlot slot [pageIndex va 39] := InSlots.of_append (r := [pageIndex va 30]) hp2
  unfold userView slotView
  rw [hc]
  by_cases hi : vm.initialized = true
  swap
  · rw [leafOf_none (tables_of_not_initialized hi _), leafView_zero]
    simp [hi]
  have hroot := tables_root hi
  have he4 : vm.pml4e va = vm.entryOf [] (pageIndex va 39) := (entryOf_eq hroot).symm
  simp only [hi, Bool.not_true, Bool.or_self, Bool.false_eq_true, if_false]
  rw [he4]
  by_cases h4 : vm.entryOf [] (pageIndex va 39) = 0#64
  · have hnone : vm.tables [pageIndex va 39] = none := by
      rw [← List.nil_append [pageIndex va 39], tables_snoc, h4, nextTable_zero]
    rw [leafOf_none (tables_append_none (r := [pageIndex va 30, pageIndex va 21]) hnone), h4]
    rfl
  obtain ⟨hv4, hr4⟩ := ho [] _ hp1 (by simp) h4
  have ht3 : vm.tables [pageIndex va 39] = some (entryAddress (vm.entryOf [] (pageIndex va 39))) :=
    h.tables_of_entry (q := []) hp1 (by simp) h4
  have he3 : vm.pml3e va = vm.entryOf [pageIndex va 39] (pageIndex va 30) := by
    rw [entryOf_eq ht3, pml3e, he4]
  rw [he3]
  by_cases h3 : vm.entryOf [pageIndex va 39] (pageIndex va 30) = 0#64
  · have hnone : vm.tables (midPath va) = none := by
      rw [midPath, ← List.singleton_append, tables_snoc, h3, nextTable_zero]
    rw [leafOf_none (tables_append_none (r := [pageIndex va 21]) hnone), h3]
    simp [userVisible_zero, leafView_zero]
  obtain ⟨hv3, hr3⟩ := ho [pageIndex va 39] _ hp2 (by simp) h3
  have ht2 : vm.tables (midPath va) =
      some (entryAddress (vm.entryOf [pageIndex va 39] (pageIndex va 30))) :=
    h.tables_of_entry (q := [pageIndex va 39]) hp2 (by simp) h3
  have he2 : vm.pml2e va = vm.entryOf (midPath va) (pageIndex va 21) := by
    rw [entryOf_eq ht2, pml2e, he3]
  rw [he2]
  by_cases h2 : vm.entryOf (midPath va) (pageIndex va 21) = 0#64
  · have hnone : vm.tables (leafPath va) = none := by
      rw [show leafPath va = midPath va ++ [pageIndex va 21] from rfl, tables_snoc, h2,
        nextTable_zero]
    rw [leafOf_none hnone, h2]
    simp [userVisible_zero, leafView_zero]
  obtain ⟨hv2, hr2⟩ := ho (midPath va) _ hp3 (by simp [midPath]) h2
  have ht1 : vm.tables (leafPath va) =
      some (entryAddress (vm.entryOf (midPath va) (pageIndex va 21))) :=
    h.tables_of_entry (q := midPath va) hp3 (by simp [midPath]) h2
  have he1 : vm.pml1e va = vm.leafOf va := by
    rw [leafOf_eq ht1, pml1e, he2]
  rw [he1, hv4, hv3, hv2, hr4, hr3, hr2, UserRights.meet_open, UserRights.meet_open,
    UserRights.meet_open, h.small (midPath va) _ hp3 rfl]
  unfold leafView
  cases userVisible (vm.leafOf va) <;> simp

/-! ## Steps of the construction -/

theorem leafOf_congr (hs : pageIndex va 39 = slot) (h : ∀ q j, InSlot slot (q ++ [j]) →
    q.length ≤ 3 → vm'.entryOf q j = vm.entryOf q j) : vm'.leafOf va = vm.leafOf va :=
  mapped_congr (h _ _ (leafPath_inSlots va hs (pageIndex_lt va 12)) (by simp [leafPath]))

theorem slotPage_leafOf (hs : pageIndex va 39 = slot) (hne : vm.leafOf va ≠ 0#64) :
    SlotPage slot vm (entryAddress (vm.leafOf va)) := by
  rw [leafOf, mapped_leaf] at hne ⊢
  exact slotPage_iff.mpr
    ⟨leafPath va, _, leafPath_inSlots va hs (pageIndex_lt va 12), rfl, hne, rfl⟩

theorem offset_lt (va : BitVec 64) : va.toNat % kPageSize < kPageSize :=
  Nat.mod_lt _ (by decide)

theorem leafView_congr {m m' : Memory}
    (h : e ≠ 0#64 → m' (entryAddress e + va.toNat % kPageSize) =
      m (entryAddress e + va.toNat % kPageSize)) : leafView m' e va = leafView m e va := by
  unfold leafView
  split
  next hv => rw [h (by rintro rfl; cases userVisible_zero.symm.trans hv)]
  · rfl

/-- The view is the same when the leaf is, and no byte of the mapped pages changes. -/
theorem slotView_congr (hs : pageIndex va 39 = slot) (hleaf : vm'.leafOf va = vm.leafOf va)
    (hmem : ∀ a x, SlotPage slot vm a → a ≤ x → x < a + kPageSize → vm'.mem x = vm.mem x) :
    vm'.slotView va = vm.slotView va := by
  rw [slotView, slotView, hleaf]
  refine leafView_congr fun hne => hmem _ _ (slotPage_leafOf hs hne) (Nat.le_add_right _ _) ?_
  have := offset_lt va
  omega

theorem Grows.leafOf (hg : Grows (· = slot) 3 vm vm') (hs : pageIndex va 39 = slot) :
    vm'.leafOf va = vm.leafOf va :=
  hg.mapped _ _ (leafPath_inSlots va hs (pageIndex_lt va 12)) (by simp [leafPath])

theorem slotView_grow (h' : UserSpace slot vm') (hg : Grows (· = slot) 3 vm vm')
    (hs : pageIndex va 39 = slot) : vm'.slotView va = vm.slotView va := by
  refine slotView_congr hs (hg.leafOf hs) fun a x ha h1 h2 => ?_
  by_contra hne
  exact h'.slotPage_not_inTable ((slotPage_congr fun q j => hg.leaf).mpr ha) h1 h2
    (hg.wrote x hne)

theorem slotPage_busy {a : Nat} (h : UserSpace slot vm) (ha : SlotPage slot vm a) :
    Busy vm.frames a := by
  obtain ⟨p, hs, hl, hn⟩ := ha
  exact h.nodeAt_busy hs (by omega) hn

theorem slotView_zeroFrame (h : UserSpace slot vm) (hf : vm.frames.isFree n = true)
    (hs : pageIndex va 39 = slot) : (vm.zeroFrame n).slotView va = vm.slotView va := by
  refine slotView_congr hs (leafOf_congr hs (h.tree.zeroFrame_same hf).2) fun a x ha h1 h2 => ?_
  refine Memory.fill_apply_of_not_mem fun hx => ?_
  obtain ⟨k, -, rfl, hk⟩ := slotPage_busy h ha
  have hne : k ≠ n := by
    rintro rfl
    cases hk.symm.trans hf
  unfold kPageSize at *
  omega

/-- A write to a leaf entry leaves the mapped pages as they are. -/
theorem setLeaf_mem (h : UserSpace slot vm) (hs : pageIndex va 39 = slot)
    (hg : vm.tables (leafPath va) = some g) {x : Nat} (hx : ¬ InTable (· = slot) 3 vm x) :
    (vm.setLeaf g va e).mem x = vm.mem x := by
  by_contra hne
  obtain ⟨q, g', hq, hl, hg', hx'⟩ := setLeaf_wrote h.tree hs hg hne
  rw [tables_setLeaf h.tree hs hg hq hl] at hg'
  exact hx ⟨q, g', hq, hl, hg', hx'⟩

theorem leafOf_setLeaf_slot (h : UserSpace slot vm) (hs : pageIndex va 39 = slot)
    (hg : vm.tables (leafPath va) = some g) (hs' : pageIndex va' 39 = slot) :
    (vm.setLeaf g va e).leafOf va' =
      if pageNumber va' = pageNumber va then e else vm.leafOf va' := by
  rw [leafOf, mapped_setLeaf h.tree hs hg (leafPath_inSlots va' hs' (pageIndex_lt va' 12))
    (by simp [leafPath])]
  simp only [pageNumber_eq_iff, leafOf]

/-- Mapping a ready frame changes the view of its page only. -/
theorem slotView_setLeaf (h : UserSpace slot vm) (hs : pageIndex va 39 = slot)
    (hg : vm.tables (leafPath va) = some g) (hr : FrameReady slot vm (entryAddress e))
    (hs' : pageIndex va' 39 = slot) :
    (vm.setLeaf g va e).slotView va' =
      if pageNumber va' = pageNumber va then leafView vm.mem e va' else vm.slotView va' := by
  have hoff := offset_lt va'
  rw [slotView, leafOf_setLeaf_slot h hs hg hs']
  split
  · refine leafView_congr fun _ => setLeaf_mem h hs hg ?_
    exact hr.not_inTable h (Nat.le_add_right _ _) (by omega)
  · refine leafView_congr fun hne => setLeaf_mem h hs hg ?_
    exact h.slotPage_not_inTable (slotPage_leafOf hs' hne) (Nat.le_add_right _ _) (by omega)

theorem leafView_frameWord {m : Memory} {k : Nat} (hk : k < 2 ^ 40)
    (hz : ZeroPage m (k * kPageSize)) (flags : PageFlags) (hu : flags.user = true)
    (va : BitVec 64) :
    leafView m (frameWord k flags) va = some (⟨flags.write, !flags.noExecute⟩, 0#8) := by
  have hoff := offset_lt va
  rw [leafView, userVisible_frameWord, if_pos hu, rightsOf_frameWord,
    entryAddress_frameWord flags hk, hz _ (Nat.le_add_right _ _) (by omega)]

/-! ## Walks for user pages -/

/-- The walk keeps the tables of the slot open, and leaves the other entries of the root. -/
structure Opening (slot : Nat) (vm vm' : VirtualMemory) : Prop where
  tables : OpenTables slot vm → OpenTables slot vm'
  root : vm.initialized = true → vm'.initialized = true ∧ vm'.root = vm.root ∧
    ∀ k < 512, k ≠ slot →
      vm'.mem.load64 (vm.root.toNat + 8 * k) = vm.mem.load64 (vm.root.toNat + 8 * k)

theorem Opening.refl (vm : VirtualMemory) : Opening slot vm vm :=
  ⟨fun h => h, fun h => ⟨h, rfl, fun _ _ _ => rfl⟩⟩

theorem Opening.trans {vm'' : VirtualMemory} (h : Opening slot vm vm')
    (h' : Opening slot vm' vm'') : Opening slot vm vm'' := by
  refine ⟨fun ho => h'.tables (h.tables ho), fun hi => ?_⟩
  obtain ⟨hi', hr', hk'⟩ := h.root hi
  obtain ⟨hi'', hr'', hk''⟩ := h'.root hi'
  refine ⟨hi'', hr''.trans hr', fun k hk hne => ?_⟩
  rw [← hk' k hk hne, ← hr']
  exact hk'' k hk hne

/-- A store to an entry of the slot leaves the other entries of the root. -/
theorem rootEntry_store {q : List Nat} {j k : Nat} (h : Tree (· = slot) vm)
    (hqj : InSlot slot (q ++ [j])) (hl : q.length ≤ 3) (hg : vm.tables q = some g)
    (hi : vm.initialized = true) (hk : k < 512) (hne : k ≠ slot) :
    (vm.mem.store64 (g + 8 * j) e).load64 (vm.root.toNat + 8 * k) =
      vm.mem.load64 (vm.root.toNat + 8 * k) := by
  have hj := hqj.last
  have hroot := tables_root hi
  apply Memory.load64_store64_of_disjoint
  by_cases hq : q = []
  · subst hq
    obtain rfl : j = slot := hqj.2 j rfl
    have hgr := Option.some.inj (hg.symm.trans hroot)
    omega
  · have hgr : g ≠ vm.root.toNat := by
      rintro rfl
      exact hq (h.distinct q [] _ hqj.of_append hl ⟨by simp, by simp⟩ (by simp) hg hroot)
    have hsep := (h.owned q g hqj.of_append hl hg).apart
      (h.owned [] _ ⟨by simp, by simp⟩ (by simp) hroot) hgr
    unfold kPageSize at hsep
    omega

theorem rootEntry_zeroFrame {k : Nat} (h : Tree (· = slot) vm) (hi : vm.initialized = true)
    (hf : vm.frames.isFree n = true) (hk : k < 512) :
    (vm.zeroFrame n).mem.load64 (vm.root.toNat + 8 * k) =
      vm.mem.load64 (vm.root.toNat + 8 * k) := by
  refine Memory.load64_congr fun x h1 h2 => Memory.fill_apply_of_not_mem (h.inTable_apart hf ?_)
  exact ⟨[], _, ⟨by simp, by simp⟩, by simp, tables_root hi, by omega, by unfold kPageSize; omega⟩

theorem openTables_of_empty (h : ∀ i < 512, vm.entryOf [] i = 0#64) : OpenTables slot vm :=
  fun _ _ hs _ hne => (hne (entryOf_of_empty_root h hs)).elim

theorem ensureRoot_opening {ok : Bool} (h : Tree (· = slot) vm)
    (he : vm.ensureRoot = (ok, vm')) : Opening slot vm vm' := by
  rcases ensureRoot_cases h.tracked he with ⟨rfl, -⟩ | ⟨-, hi, n, hn, -, rfl⟩
  · exact Opening.refl _
  · refine ⟨fun _ => openTables_of_empty ?_, fun hi' => (hi hi').elim⟩
    exact entryOf_withRoot vm (lt_of_lt_of_le hn h.tracked.bounded)

/-- Setting an entry of the slot to an open one keeps the tables open. -/
theorem OpenTables.of_entryOf {q : List Nat} {j : Nat} (ho : OpenTables slot vm) (he : Open e)
    (hentry : ∀ q' k, InSlot slot (q' ++ [k]) → q'.length ≤ 3 →
      vm'.entryOf q' k = if q' = q ∧ k = j then e else vm.entryOf q' k) : OpenTables slot vm' := by
  intro q' k hs hl hne
  rw [hentry q' k hs (by omega)] at hne ⊢
  split at hne
  next hc => rwa [if_pos hc]
  next hc =>
    rw [if_neg hc]
    exact ho q' k hs hl hne

theorem stepDown_opening {q : List Nat} {j : Nat} {r : Option Nat} (h : Tree (· = slot) vm)
    (hqj : InSlot slot (q ++ [j])) (hl : q.length ≤ 2) (hg : vm.tables q = some g)
    (he : vm.stepDown g j true true = (vm', r)) : Opening slot vm vm' := by
  rcases stepDown_create_cases h hg he with ⟨rfl, -⟩ | ⟨hne, -, -, rfl⟩ | ⟨n, h0, -, -, hn, hf, rfl⟩
  · exact Opening.refl _
  · refine ⟨fun ho => ?_, fun hi => ⟨hi, rfl, fun k hk hk' => ?_⟩⟩
    · exact ho.of_entryOf (ho q j hqj hl hne).or_user
        (h.store_same hqj (by omega) hg (fun _ => nextTable_or_user _ hne)).2
    · exact rootEntry_store h hqj (by omega) hg hi hk hk'
  · refine ⟨fun ho => ?_, fun hi => ⟨hi, rfl, fun k hk hk' => ?_⟩⟩
    · exact ho.of_entryOf (open_tableEntry (BitVec.ofNat 64 (n * kPageSize)))
        (h.link_same hqj hl hg h0 hn hf
          (nextTable_frame (u := true) (lt_of_lt_of_le hn h.tracked.bounded))).2
    · have hgz : (vm.zeroFrame n).tables q = some g := by
        rw [(h.zeroFrame_same hf).1 q hqj.of_append (by omega), hg]
      exact (rootEntry_store (h.of_zeroFrame hn hf) hqj (by omega) hgz hi hk hk').trans
        (rootEntry_zeroFrame h hi hf hk)

theorem walksTo_opening : WalksTo (· = slot) true (Opening slot) := by
  intro vm va vm' r h hs hlarge hw
  have hlevel : ∀ {q j s g t r}, q ++ [j] <+: leafPath va →
      Built (· = slot) vm q s (some g) ∧ Opening slot vm s → s.stepDown g j true true = (t, r) →
      Built (· = slot) vm (q ++ [j]) t r ∧ Opening slot vm t := fun hq hP he => by
    obtain ⟨hqj, hl, -⟩ := level_inSlots (· = slot) vm hs hq
    exact ⟨hP.1.level hs hlarge hq he,
      hP.2.trans (stepDown_opening hP.1.tree hqj hl (hP.1.reached _ rfl) he)⟩
  obtain ⟨-, ⟨-, ho⟩, -⟩ := walkToLeaf_rule
    (P := fun q s r => Built (· = slot) vm q s r ∧ Opening slot vm s)
    (fun ok s h0 => ⟨.root h h0, ensureRoot_opening h h0⟩)
    (fun q j s hl hP => ⟨hP.1.fail j hl, hP.2⟩) (fun _ _ _ _ _ _ => hlevel) hw
  exact ho

theorem zeroFrame_opening (h : Tree (· = slot) vm) (hf : vm.frames.isFree n = true) :
    Opening slot vm (vm.zeroFrame n) := by
  refine ⟨fun ho q j hs hl => ?_, fun hi => ⟨hi, rfl, fun k hk _ => ?_⟩⟩
  · rw [(h.zeroFrame_same hf).2 q j hs (by omega)]
    exact ho q j hs hl
  · exact rootEntry_zeroFrame h hi hf hk

theorem setLeaf_opening (h : Tree (· = slot) vm) (hs : pageIndex va 39 = slot)
    (hg : vm.tables (leafPath va) = some g) : Opening slot vm (vm.setLeaf g va e) := by
  have hp : InSlot slot (leafPath va ++ [pageIndex va 12]) :=
    leafPath_inSlots va hs (pageIndex_lt va 12)
  refine ⟨fun ho q j hq hl => ?_, fun hi => ⟨hi, rfl, fun k hk hne => ?_⟩⟩
  · rw [entryOf_setLeaf h hs hg hq (by omega), if_neg]
    · exact ho q j hq hl
    · rintro ⟨rfl, -⟩
      simp [leafPath] at hl
  · exact rootEntry_store h hp (by simp [leafPath]) hg hi hk hne

/-! ## `allocate_and_map` -/

/-- The rights that a leaf entry made from the flags grants. -/
def flagRights (flags : PageFlags) : UserRights := ⟨flags.write, !flags.noExecute⟩

/-- Between the turns: the first `i` pages are mapped and zero, the rest is as in `vm`. -/
structure MapsPages (slot : Nat) (vm : VirtualMemory) (va : BitVec 64) (flags : PageFlags)
    (i : Nat) (s : VirtualMemory) : Prop where
  space : UserSpace slot s
  opening : Opening slot vm s
  leaves : OpenLeaves slot vm → OpenLeaves slot s
  view : ∀ va', pageIndex va' 39 = slot → s.slotView va' =
    if ∃ k < i, pageNumber va' = pageNumber (pageAt va k) then some (flagRights flags, 0#8)
    else vm.slotView va'

theorem MapsPages.setLeaf {i m : Nat} {s : VirtualMemory} (h : MapsPages slot vm va flags i s)
    (hr : FrameReady slot s (m * kPageSize)) (hz : ZeroPage s.mem (m * kPageSize))
    (hm : m < 2 ^ 40) (hu : flags.user = true) (hs : pageIndex (pageAt va i) 39 = slot)
    (hg : s.tables (leafPath (pageAt va i)) = some g) :
    MapsPages slot vm va flags (i + 1) (s.setLeaf g (pageAt va i) (frameWord m flags)) := by
  have hr' : FrameReady slot s (entryAddress (frameWord m flags)) := by
    rwa [entryAddress_frameWord flags hm]
  refine ⟨h.space.setLeaf hs hg hr', h.opening.trans (setLeaf_opening h.space.tree hs hg), ?_, ?_⟩
  · intro hopen va' hs' hne
    rw [leafOf_setLeaf_slot h.space hs hg hs'] at hne ⊢
    split at hne
    next heq => rw [if_pos heq, userVisible_frameWord, hu]
    next heq =>
      rw [if_neg heq]
      exact h.leaves hopen va' hs' hne
  intro va' hs'
  rw [slotView_setLeaf h.space hs hg hr' hs', leafView_frameWord hm hz flags hu, h.view va' hs']
  simp only [Nat.lt_succ_iff_lt_or_eq, or_and_right, exists_or, exists_eq_left]
  split
  next heq => rw [if_pos (Or.inr heq)]; rfl
  next hne => simp only [hne, or_false]

/-- What `allocate_and_map` does to the view: it maps zeroed pages, all of them on success. -/
theorem allocateAndMap_mapsPages {count : BitVec 64} {r : Option Nat} (h : UserSpace slot vm)
    (hcount : count ≠ 0#64) (hva : va &&& kPageOffsetMask = 0#64) (hu : flags.user = true)
    (hslot : ∀ i < count.toNat, pageIndex (pageAt va i) 39 = slot)
    (he : vm.allocateAndMap va count flags = (r, vm')) :
    ∃ k ≤ count.toNat, MapsPages slot vm va flags k vm' ∧ (r.isSome = true ↔ k = count.toNat) := by
  rw [allocateAndMap, if_neg (by simp [hcount, hva])] at he
  have hinv : ∀ m, LoopInv (· = slot) (fun s t => Grows (· = slot) 3 s t ∧ Opening slot s t) va
      count.toNat (fun i s => MapsPages slot vm va flags i s ∧
        FrameReady slot s (m * kPageSize) ∧ ZeroPage s.mem (m * kPageSize)) := by
    intro m
    refine ⟨hslot, fun i s hi _ hs => hs.1.space.noLargePage (hslot i hi), ?_⟩
    rintro i s t ⟨hs, hr, hz⟩ - ht ⟨hgrow, hopen⟩
    have hspace := hs.space.grow ht hgrow
    refine ⟨⟨hspace, hs.opening.trans hopen, fun hleaves va' hs' => ?_, fun va' hs' => ?_⟩,
      hr.grow hgrow, fun x h1 h2 => ?_⟩
    · rw [hgrow.leafOf hs']
      exact hs.leaves hleaves va' hs'
    · rw [slotView_grow hspace hgrow hs', hs.view va' hs']
    · by_contra hne
      refine FrameReady.not_inTable hspace (hr.grow hgrow) h1 h2 (hgrow.wrote x ?_)
      rw [hz x h1 h2]
      exact hne
  have hwalk : WalksTo (· = slot) flags.user
      (fun s t => Grows (· = slot) 3 s t ∧ Opening slot s t) := by
    rw [hu]
    exact fun s va t r ht hs hl hw => ⟨walksTo_grows s va t r ht hs hl hw,
      walksTo_opening s va t r ht hs hl hw⟩
  obtain ⟨-, k, hk, hI, hr⟩ := allocatePages_rule (I := MapsPages slot vm va flags) hwalk hva
    hinv (fun i s m _ _ hs hm hf => by
      obtain ⟨hspace, hr⟩ := hs.space.zeroFrame hm hf
      refine ⟨⟨hspace, hs.opening.trans (zeroFrame_opening hs.space.tree hf),
        fun hleaves va' hs' => ?_, fun va' hs' => ?_⟩, hr,
        fun x h1 h2 => Memory.fill_apply_of_mem ⟨h1, h2⟩⟩
      · rw [leafOf_congr hs' (hs.space.tree.zeroFrame_same hf).2]
        exact hs.leaves hleaves va' hs'
      · rw [slotView_zeroFrame hs.space hf hs', hs.view va' hs'])
    (fun i s m hs => hs.1)
    (fun i s m g hi hm _ hs hg => hs.1.setLeaf hs.2.1 hs.2.2 hm hu (hslot i hi) hg)
    count.toNat 0 0 (Nat.zero_add _) h.tree
    ⟨h, Opening.refl vm, (fun hleaves => hleaves), fun va' _ => by simp⟩ he
  exact ⟨k, hk, hI, hr⟩

end Os1.VirtualMemory
