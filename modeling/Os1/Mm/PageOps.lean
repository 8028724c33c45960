import Os1.Mm.PageWalk

/-!
# Rules for the page loops

Each operation is a loop over pages. Its rule says: an invariant that survives the growth of the
tree and one page's entry update survives the operation, also when it stops early.
-/

namespace Os1.VirtualMemory

open PageFrameContainer

variable {slots : Nat → Prop} {vm vm' : VirtualMemory} {q : List Nat} {g k n : Nat}
  {va pa e : BitVec 64} {flags : PageFlags} {ok : Bool}

/-- The state after a write to the leaf entry of `va` in the leaf table at `g`. -/
def setLeaf (vm : VirtualMemory) (g : Nat) (va e : BitVec 64) : VirtualMemory :=
  vm.storeEntry (g + 8 * pageIndex va 12) e

section Leaf

variable (h : Tree slots vm) (hs : slots (pageIndex va 39)) (hg : vm.tables (leafPath va) = some g)
include h hs hg

theorem tables_setLeaf (hq : InSlots slots q) (hl : q.length ≤ 3) :
    (vm.setLeaf g va e).tables q = vm.tables q := by
  have hp := leafPath_inSlots va hs (pageIndex_lt va 12)
  exact (h.store_same hp (by simp [leafPath]) hg (by simp [leafPath])).1 q hq hl

theorem Tree.setLeaf : Tree slots (vm.setLeaf g va e) := by
  have hp := leafPath_inSlots va hs (pageIndex_lt va 12)
  exact h.of_store_same hp (by simp [leafPath]) hg (by simp [leafPath]) (by simp [leafPath])

theorem entryOf_setLeaf (hq : InSlots slots (q ++ [k])) (hl : q.length ≤ 3) :
    (vm.setLeaf g va e).entryOf q k =
      if q = leafPath va ∧ k = pageIndex va 12 then e else vm.entryOf q k := by
  have hp := leafPath_inSlots va hs (pageIndex_lt va 12)
  exact (h.store_same hp (by simp [leafPath]) hg (by simp [leafPath])).2 q k hq hl

theorem mapped_setLeaf (hq : InSlots slots (q ++ [k])) (hl : q.length ≤ 3) :
    (vm.setLeaf g va e).mapped q k =
      if q = leafPath va ∧ k = pageIndex va 12 then e else vm.mapped q k := by
  unfold mapped
  rw [entryOf_setLeaf h hs hg hq hl]
  split
  · rename_i heq
    simp [heq.1, leafPath]
  · rfl

theorem setLeaf_wrote {x : Nat} (hx : (vm.setLeaf g va e).mem x ≠ vm.mem x) :
    InTable slots 3 (vm.setLeaf g va e) x := by
  have hp := leafPath_inSlots va hs (pageIndex_lt va 12)
  refine storeEntry_wrote hp (by simp [leafPath]) ?_ hx
  rw [tables_setLeaf h hs hg hp.of_append (by simp [leafPath]), hg]

end Leaf

/-! ## Loop rules -/

/-- The word `map_physical` writes for its `i`-th page. -/
def leafWord (pa : BitVec 64) (flags : PageFlags) (i : Nat) : BitVec 64 :=
  (pageAt pa i &&& kEntryAddressMask) ||| flagsToEntry flags.withPresent

/-- An invariant of the states between two turns of a page loop, kept by what a walk may do. -/
structure LoopInv (slots : Nat → Prop) (walk : VirtualMemory → VirtualMemory → Prop)
    (va : BitVec 64) (n : Nat) (I : Nat → VirtualMemory → Prop) : Prop where
  slot : ∀ i, i < n → slots (pageIndex (pageAt va i) 39)
  noLarge : ∀ i vm, i < n → Tree slots vm → I i vm → NoLargePage vm (pageAt va i)
  grow : ∀ i vm vm', I i vm → Tree slots vm → Tree slots vm' → walk vm vm' → I i vm'

variable {I : Nat → VirtualMemory → Prop}

theorem mapPhysicalPages_rule (hI : LoopInv slots (Grows slots 3) va n I)
    (hleaf : ∀ i vm g, i < n → Tree slots vm → I i vm →
      vm.tables (leafPath (pageAt va i)) = some g →
      I (i + 1) (vm.setLeaf g (pageAt va i) (leafWord pa flags i)))
    (remaining i : Nat) (hn : i + remaining = n) (h : Tree slots vm) (hi : I i vm)
    (he : mapPhysicalPages va pa flags remaining i vm = (ok, vm')) :
    Tree slots vm' ∧ ∃ k ≤ n, I k vm' ∧ (ok = true ↔ k = n) := by
  induction remaining generalizing i vm with
  | zero =>
    cases he
    exact ⟨h, n, le_refl _, by rw [← hn]; exact hi, by simp⟩
  | succ r ih =>
    unfold mapPhysicalPages at he
    rcases hw : vm.walkToLeaf (pageAt va i) true flags.user with ⟨vm1, r1⟩
    obtain ⟨ht1, hg1, hr1⟩ := walkToLeaf_create_spec h (hI.slot i (by omega))
      (hI.noLarge i vm (by omega) h hi) hw
    have hi1 := hI.grow i vm vm1 hi h ht1 hg1
    rw [hw] at he
    cases r1 with
    | none =>
      cases he
      exact ⟨ht1, i, by omega, hi1, by simp; omega⟩
    | some a =>
      obtain ⟨g, hg, rfl⟩ := hr1 a rfl
      exact ih (i + 1) (by omega) (ht1.setLeaf (hI.slot i (by omega)) hg)
        (hleaf i vm1 g (by omega) ht1 hi1 hg) he

/-- A plain walk either finds the leaf table or shows the page not to be mapped. -/
theorem walkToLeaf_cases {u : Bool} {r : Option Nat} (h : Tree slots vm)
    (hs : slots (pageIndex va 39)) (hlarge : NoLargePage vm va)
    (he : vm.walkToLeaf va false u = (vm', r)) :
    Tree slots vm' ∧ RootOnly slots vm vm' ∧
      (r = none ∧ vm'.mapped (leafPath va) (pageIndex va 12) = 0#64 ∨
        ∃ g, r = some (g + 8 * pageIndex va 12) ∧ vm'.tables (leafPath va) = some g) := by
  obtain ⟨ht, hg, hr⟩ := walkToLeaf_spec h hs hlarge he
  refine ⟨ht, hg, ?_⟩
  cases hl : vm'.tables (leafPath va) with
  | none => exact Or.inl ⟨by rw [hr, hl]; rfl, mapped_none hl⟩
  | some g => exact Or.inr ⟨g, by rw [hr, hl]; rfl, rfl⟩

/-- The leaf entry of the page of `va`. -/
def leafOf (vm : VirtualMemory) (va : BitVec 64) : BitVec 64 :=
  vm.mapped (leafPath va) (pageIndex va 12)

theorem leafOf_eq (hg : vm.tables (leafPath va) = some g) :
    vm.leafOf va = vm.mem.load64 (g + 8 * pageIndex va 12) := by
  rw [leafOf, mapped_leaf, entryOf_eq hg]

theorem protectPages_rule (hI : LoopInv slots (RootOnly slots) va n I)
    (hleaf : ∀ i vm g, i < n → Tree slots vm → I i vm →
      vm.tables (leafPath (pageAt va i)) = some g →
      vm.leafOf (pageAt va i) ≠ 0#64 →
      I (i + 1) (vm.setLeaf g (pageAt va i) ((vm.leafOf (pageAt va i) &&& kEntryAddressMask) |||
        flagsToEntry flags.withPresent)))
    (remaining i : Nat) (hn : i + remaining = n) (h : Tree slots vm) (hi : I i vm)
    (he : protectPages va flags remaining i vm = (ok, vm')) :
    Tree slots vm' ∧ ∃ k ≤ n, I k vm' ∧ (ok = true ↔ k = n) ∧
      (k < n → vm'.leafOf (pageAt va k) = 0#64) := by
  induction remaining generalizing i vm with
  | zero =>
    cases he
    exact ⟨h, n, le_refl _, by rw [← hn]; exact hi, by simp, fun h => absurd h (by omega)⟩
  | succ r ih =>
    unfold protectPages at he
    rcases hw : vm.walkToLeaf (pageAt va i) false false with ⟨vm1, r1⟩
    obtain ⟨ht1, hg1, hr1⟩ := walkToLeaf_cases h (hI.slot i (by omega))
      (hI.noLarge i vm (by omega) h hi) hw
    have hi1 := hI.grow i vm vm1 hi h ht1 hg1
    rw [hw] at he
    rcases hr1 with ⟨rfl, h0⟩ | ⟨g, rfl, hg⟩
    · cases he
      exact ⟨ht1, i, by omega, hi1, by simp; omega, fun _ => h0⟩
    · simp only [← leafOf_eq hg] at he
      by_cases h0 : vm1.leafOf (pageAt va i) = 0#64
      · rw [if_pos h0] at he
        cases he
        exact ⟨ht1, i, by omega, hi1, by simp; omega, fun _ => h0⟩
      · rw [if_neg h0] at he
        exact ih (i + 1) (by omega) (ht1.setLeaf (hI.slot i (by omega)) hg)
          (hleaf i vm1 g (by omega) ht1 hi1 hg h0) he

/-- The state after the frame of a leaf entry has been freed and the entry cleared. -/
def clearLeaf (vm : VirtualMemory) (g : Nat) (va : BitVec 64) : VirtualMemory :=
  { vm.setLeaf g va 0#64 with frames := (vm.frames.free (entryAddress (vm.leafOf va))).2 }

/-- Freeing a frame that is no table keeps the tree. -/
theorem Tree.of_free (h : Tree slots vm) {a : Nat}
    (hfree : ∀ q, InSlots slots q → q.length ≤ 3 → vm.tables q ≠ some a) :
    Tree slots { vm with frames := (vm.frames.free a).2 } := by
  refine h.of_same (free_spec h.tracked a).1 (fun _ _ _ => rfl) (fun _ _ _ _ => rfl) ?_
  intro q g hs hl hg
  obtain ⟨m, hm, rfl, hb⟩ := h.owned q g hs hl hg
  refine ⟨m, by rw [(free_spec h.tracked a).2.pageCount]; exact hm, rfl, ?_⟩
  by_contra hne
  rcases (isFree_free vm.frames a m).mp (by simpa using hne) with hb' | ⟨hf, hma⟩
  · simp [hb] at hb'
  · apply hfree q hs hl
    have hdiv : a = m * kPageSize := by
      have hmod := hf.2.1
      rw [Nat.shiftRight_eq_div_pow] at hma
      unfold kPageSize at hmod ⊢
      omega
    rw [hg, hdiv]

theorem Tree.clearLeaf (h : Tree slots vm) (hs : slots (pageIndex va 39))
    (hg : vm.tables (leafPath va) = some g)
    (hfree : ∀ q, InSlots slots q → q.length ≤ 3 →
      vm.tables q ≠ some (entryAddress (vm.leafOf va))) : Tree slots (vm.clearLeaf g va) := by
  apply Tree.of_free (h.setLeaf hs hg)
  intro q hq hl
  rw [tables_setLeaf h hs hg hq hl]
  exact hfree q hq hl

theorem freePages_rule (hI : LoopInv slots (RootOnly slots) va n I)
    (hfree : ∀ i vm, i < n → Tree slots vm → I i vm → vm.leafOf (pageAt va i) ≠ 0#64 →
      ∀ q, InSlots slots q → q.length ≤ 3 →
        vm.tables q ≠ some (entryAddress (vm.leafOf (pageAt va i))))
    (hleaf : ∀ i vm g, i < n → Tree slots vm → I i vm →
      vm.tables (leafPath (pageAt va i)) = some g →
      vm.leafOf (pageAt va i) ≠ 0#64 → I (i + 1) (vm.clearLeaf g (pageAt va i)))
    (remaining i : Nat) (hn : i + remaining = n) (h : Tree slots vm) (hi : I i vm)
    (he : freePages va remaining i vm = (ok, vm')) :
    Tree slots vm' ∧ ∃ k ≤ n, I k vm' ∧ (ok = true ↔ k = n) ∧
      (k < n → vm'.leafOf (pageAt va k) = 0#64) := by
  induction remaining generalizing i vm with
  | zero =>
    cases he
    exact ⟨h, n, le_refl _, by rw [← hn]; exact hi, by simp, fun h => absurd h (by omega)⟩
  | succ r ih =>
    unfold freePages at he
    rcases hw : vm.walkToLeaf (pageAt va i) false false with ⟨vm1, r1⟩
    obtain ⟨ht1, hg1, hr1⟩ := walkToLeaf_cases h (hI.slot i (by omega))
      (hI.noLarge i vm (by omega) h hi) hw
    have hi1 := hI.grow i vm vm1 hi h ht1 hg1
    rw [hw] at he
    rcases hr1 with ⟨rfl, h0⟩ | ⟨g, rfl, hg⟩
    · cases he
      exact ⟨ht1, i, by omega, hi1, by simp; omega, fun _ => h0⟩
    · simp only [← leafOf_eq hg] at he
      by_cases h0 : vm1.leafOf (pageAt va i) = 0#64
      · rw [if_pos h0] at he
        cases he
        exact ⟨ht1, i, by omega, hi1, by simp; omega, fun _ => h0⟩
      · rw [if_neg h0] at he
        exact ih (i + 1) (by omega)
          (ht1.clearLeaf (hI.slot i (by omega)) hg (hfree i vm1 (by omega) ht1 hi1 h0))
          (hleaf i vm1 g (by omega) ht1 hi1 hg h0) he

theorem pageAt_zero (va : BitVec 64) : pageAt va 0 = va := by simp [pageAt]

theorem pageAt_aligned (h : va &&& kPageOffsetMask = 0#64) (i : Nat) :
    pageAt va i &&& kPageOffsetMask = 0#64 := by
  rw [aligned_iff] at h ⊢
  rw [pageAt, BitVec.toNat_add, BitVec.toNat_ofNat]
  unfold kPageSize at *
  omega

/-- The leaf word for the frame `m`. -/
def frameWord (m : Nat) (flags : PageFlags) : BitVec 64 :=
  leafWord (BitVec.ofNat 64 (m * kPageSize)) flags.withPresent 0

/-- `map_physical` of a single aligned page. -/
theorem mapPhysical_one {m : Nat} (h : Tree slots vm) (hs : slots (pageIndex va 39))
    (hlarge : NoLargePage vm va) (hva : va &&& kPageOffsetMask = 0#64) (hm : m < 2 ^ 40)
    (he : vm.mapPhysical va (BitVec.ofNat 64 (m * kPageSize)) 1#64 flags.withPresent = (ok, vm')) :
    ∃ vm1 r, vm.walkToLeaf va true flags.withPresent.user = (vm1, r) ∧ (r = none ∧ ok = false ∧
        vm' = vm1 ∨
      r ≠ none ∧ ok = true ∧ ∃ g, vm1.tables (leafPath va) = some g ∧
        vm' = vm1.setLeaf g va (frameWord m flags)) := by
  have hpa : BitVec.ofNat 64 (m * kPageSize) &&& kPageOffsetMask = 0#64 := by
    rw [aligned_iff, toNat_frame hm]
    exact Nat.mul_mod_left m kPageSize
  rw [mapPhysical, if_neg (by simp [hva, hpa]), show (1#64).toNat = 0 + 1 from rfl,
    mapPhysicalPages, pageAt_zero] at he
  rcases hw : vm.walkToLeaf va true flags.withPresent.user with ⟨vm1, r1⟩
  obtain ⟨ht1, hg1, hr1⟩ := walkToLeaf_create_spec h hs hlarge hw
  rw [hw] at he
  refine ⟨vm1, r1, rfl, ?_⟩
  cases r1 with
  | none =>
    cases he
    exact Or.inl ⟨rfl, rfl, rfl⟩
  | some a =>
    obtain ⟨g, hg, rfl⟩ := hr1 a rfl
    cases he
    exact Or.inr ⟨by simp, rfl, g, hg, rfl⟩

/-- A relation that holds from before to after every creating walk of the loop. -/
def WalksTo (slots : Nat → Prop) (user : Bool) (walk : VirtualMemory → VirtualMemory → Prop) :
    Prop :=
  ∀ vm va vm' r, Tree slots vm → slots (pageIndex va 39) → NoLargePage vm va →
    vm.walkToLeaf va true user = (vm', r) → walk vm vm'

theorem walksTo_grows {user : Bool} : WalksTo slots user (Grows slots 3) :=
  fun _ _ _ _ h hs hlarge hw => (walkToLeaf_create_spec h hs hlarge hw).2.1

/-- In the rule of `allocate_and_map`, `J i m` holds while the frame `m` is taken and not yet
mapped. -/
theorem allocatePages_rule {J : Nat → Nat → VirtualMemory → Prop}
    {walk : VirtualMemory → VirtualMemory → Prop} (hwalk : WalksTo slots flags.user walk)
    (hva : va &&& kPageOffsetMask = 0#64)
    (hJ : ∀ m, LoopInv slots walk va n (fun i => J i m))
    (hzero : ∀ i vm m, i < n → Tree slots vm → I i vm → m < vm.frames.pageCount →
      vm.frames.isFree m = true → J i m (vm.zeroFrame m))
    (hleak : ∀ i vm m, J i m vm → I i vm)
    (hleaf : ∀ i vm m g, i < n → m < 2 ^ 40 → Tree slots vm → J i m vm →
      vm.tables (leafPath (pageAt va i)) = some g →
      I (i + 1) (vm.setLeaf g (pageAt va i) (frameWord m flags)))
    (remaining i firstPage : Nat) {r : Option Nat} (hn : i + remaining = n) (h : Tree slots vm)
    (hi : I i vm) (he : allocatePages va flags remaining i firstPage vm = (r, vm')) :
    Tree slots vm' ∧ ∃ k ≤ n, I k vm' ∧ (r.isSome = true ↔ k = n) := by
  induction remaining generalizing i firstPage vm with
  | zero =>
    cases he
    exact ⟨h, n, le_refl _, by rw [← hn]; exact hi, by simp⟩
  | succ r' ih =>
    unfold allocatePages at he
    cases ha : vm.frames.allocate with
    | none =>
      rw [ha] at he
      cases he
      exact ⟨h, i, by omega, hi, by simp; omega⟩
    | some p =>
      obtain ⟨a, frames⟩ := p
      obtain ⟨m, rfl, hm, hf, rfl, -⟩ := allocate_some h.tracked ha
      have hm40 : m < 2 ^ 40 := lt_of_lt_of_le hm h.tracked.bounded
      have hz := hzero i vm m (by omega) h hi hm hf
      have htz := h.of_zeroFrame hm hf
      have hs := (hJ m).slot i (by omega)
      have hlarge := (hJ m).noLarge i _ (by omega) htz hz
      simp only [ha] at he
      rcases hmap : (vm.zeroFrame m).mapPhysical (pageAt va i) (BitVec.ofNat 64 (m * kPageSize))
        1#64 flags.withPresent with ⟨ok1, vm2⟩
      obtain ⟨vm1, r1, hw, hcase⟩ := mapPhysical_one htz hs hlarge (pageAt_aligned hva i) hm40 hmap
      have ht1 := (walkToLeaf_create_spec htz hs hlarge hw).1
      have hj1 := (hJ m).grow i _ vm1 hz htz ht1 (hwalk _ _ _ _ htz hs hlarge hw)
      unfold zeroFrame at hmap
      rw [hmap] at he
      rcases hcase with ⟨-, rfl, rfl⟩ | ⟨-, rfl, g, hg, rfl⟩
      · cases he
        exact ⟨ht1, i, by omega, hleak i _ m hj1, by simp; omega⟩
      · exact ih (i + 1) _ (by omega) (ht1.setLeaf hs hg)
          (hleaf i vm1 m g (by omega) hm40 ht1 hj1 hg) he

end Os1.VirtualMemory
