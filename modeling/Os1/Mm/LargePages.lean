import Os1.Lib.Along
import Os1.Mm.AddressSpace

/-!
# Mixing 4 KiB and 2 MiB pages

`walk_to_leaf` does not look at the large-page bit. A 4 KiB call below a 2 MiB mapping takes the
mapped memory for a table; every other call writes only to tables.
-/

namespace Os1.VirtualMemory

open PageFrameContainer

variable {slots : Nat → Prop} {vm vm' : VirtualMemory} {q : List Nat} {g k n d : Nat}
  {va pa e : BitVec 64} {flags : PageFlags} {ok : Bool} {I : Nat → VirtualMemory → Prop}

/-! ## Large entries -/

/-- The word `map_physical_2m` writes for a page. -/
def largeWord (pa : BitVec 64) (flags : PageFlags) : BitVec 64 :=
  (pa &&& kLargePageAddressMask2MiB) ||| flagsToEntry flags.withPresent ||| kEntryLargePage

theorem largeWord_large (pa : BitVec 64) (flags : PageFlags) :
    largeWord pa flags &&& kEntryLargePage ≠ 0#64 := by
  intro h
  have hbit : (largeWord pa flags &&& kEntryLargePage).getLsbD 7 = true := by
    rw [BitVec.getLsbD_and, largeWord, BitVec.getLsbD_or,
      show kEntryLargePage.getLsbD 7 = true by decide]
    simp
  rw [h] at hbit
  simp at hbit

/-- The state after the third-level entry of `va` in the table at `g` is made a large entry. -/
def setLarge (vm : VirtualMemory) (g : Nat) (va e : BitVec 64) : VirtualMemory :=
  vm.storeEntry (g + 8 * pageIndex va 21) e

theorem midPath_inSlots (va : BitVec 64) (hs : slots (pageIndex va 39)) :
    InSlots slots (midPath va ++ [pageIndex va 21]) :=
  (leafPath_inSlots va hs (pageIndex_lt va 12)).of_append

section Large

variable (h : Tree slots vm) (hs : slots (pageIndex va 39)) (hg : vm.tables (midPath va) = some g)
  (hl : e &&& kEntryLargePage ≠ 0#64)
include h hs hg hl

theorem Tree.setLarge : Tree slots (vm.setLarge g va e) :=
  h.of_store_large (midPath_inSlots va hs) rfl hg hl

theorem tables_setLarge (hq : InSlots slots q) (hq3 : q.length ≤ 3) :
    (vm.setLarge g va e).tables q = if q = leafPath va then none else vm.tables q :=
  (h.store_large (midPath_inSlots va hs) rfl hg hl).1 q hq hq3

theorem entryOf_setLarge (hq : InSlots slots (q ++ [k])) (hq3 : q.length ≤ 3) :
    (vm.setLarge g va e).entryOf q k = if q = midPath va ∧ k = pageIndex va 21 then e
      else if q = leafPath va then 0#64 else vm.entryOf q k :=
  (h.store_large (midPath_inSlots va hs) rfl hg hl).2 q k hq hq3

theorem setLarge_inTable {x : Nat} (hd : d ≤ 2) (hx : InTable slots d vm x) :
    InTable slots d (vm.setLarge g va e) x := by
  obtain ⟨q, g', hq, hqd, hg', hx⟩ := hx
  refine ⟨q, g', hq, hqd, ?_, hx⟩
  rw [tables_setLarge h hs hg hl hq (by omega), if_neg, hg']
  rintro rfl
  simp [leafPath] at hqd
  omega

theorem setLarge_wrote {x : Nat} (hx : (vm.setLarge g va e).mem x ≠ vm.mem x) :
    InTable slots 2 (vm.setLarge g va e) x := by
  have hp := midPath_inSlots va hs
  refine storeEntry_wrote hp (by simp [midPath]) ?_ hx
  rw [tables_setLarge h hs hg hl hp.of_append (by simp [midPath]),
    if_neg (by simp [midPath, leafPath]), hg]

end Large

theorem mapLargePage_spec (h : Tree slots vm) (hs : slots (pageIndex va 39))
    (he : vm.mapLargePage va pa flags = (ok, vm')) :
    ∃ vm1, Tree slots vm1 ∧ Grows slots 2 vm vm1 ∧ (ok = false ∧ vm' = vm1 ∨
      ok = true ∧ ∃ g, vm1.tables (midPath va) = some g ∧
        vm' = vm1.setLarge g va (largeWord pa flags)) := by
  unfold mapLargePage at he
  rcases hw : vm.walkToPml2 va true flags.user with ⟨vm1, r1⟩
  obtain ⟨ht1, hg1, hr1⟩ := walkToPml2_create_spec h hs hw
  rw [hw] at he
  refine ⟨vm1, ht1, hg1, ?_⟩
  cases r1 with
  | none =>
    cases he
    exact Or.inl ⟨rfl, rfl⟩
  | some g =>
    cases he
    exact Or.inr ⟨rfl, g, hr1 g rfl, rfl⟩

theorem mapLargePages_rule (hslot : ∀ i, i < n → slots (pageIndex (largePageAt va i) 39))
    (hgrow : ∀ i vm vm', I i vm → Tree slots vm → Tree slots vm' → Grows slots 2 vm vm' → I i vm')
    (hlarge : ∀ i vm g, i < n → Tree slots vm → I i vm →
      vm.tables (midPath (largePageAt va i)) = some g →
      I (i + 1) (vm.setLarge g (largePageAt va i) (largeWord (largePageAt pa i) flags)))
    (remaining i : Nat) (hn : i + remaining = n) (h : Tree slots vm) (hi : I i vm)
    (he : mapLargePages va pa flags remaining i vm = (ok, vm')) :
    Tree slots vm' ∧ ∃ k ≤ n, I k vm' ∧ (ok = true ↔ k = n) := by
  induction remaining generalizing i vm with
  | zero =>
    cases he
    exact ⟨h, n, le_refl _, by rw [← hn]; exact hi, by simp⟩
  | succ r ih =>
    unfold mapLargePages at he
    have hs := hslot i (by omega)
    rcases hm : vm.mapLargePage (largePageAt va i) (largePageAt pa i) flags with ⟨ok1, vm2⟩
    obtain ⟨vm1, ht1, hg1, hcase⟩ := mapLargePage_spec h hs hm
    have hi1 := hgrow i vm vm1 hi h ht1 hg1
    rw [hm] at he
    rcases hcase with ⟨rfl, rfl⟩ | ⟨rfl, g, hg, rfl⟩
    · cases he
      exact ⟨ht1, i, by omega, hi1, by simp; omega⟩
    · exact ih (i + 1) (by omega) (ht1.setLarge hs hg (largeWord_large _ _))
        (hlarge i vm1 g (by omega) ht1 hi1 hg) he

/-! ## Writes stay in the tables -/

/-- Every byte that differs between the two states lies in a table of the address space. -/
def WritesTables (d : Nat) (vm vm' : VirtualMemory) : Prop :=
  ∀ x, vm'.mem x ≠ vm.mem x → InTable AllSlots d vm' x

section Writes

variable {vm₀ : VirtualMemory}

theorem WritesTables.refl (vm : VirtualMemory) : WritesTables d vm vm := fun _ h => (h rfl).elim

/-- Writes compose when the tables of the middle state stay. -/
theorem WritesTables.trans (h : WritesTables d vm₀ vm)
    (hkeep : ∀ x, InTable AllSlots d vm x → InTable AllSlots d vm' x)
    (h' : WritesTables d vm vm') : WritesTables d vm₀ vm' := by
  intro x hx
  by_cases hx' : vm'.mem x = vm.mem x
  · exact hkeep x (h x (hx' ▸ hx))
  · exact h' x hx'

theorem WritesTables.grow (h : WritesTables d vm₀ vm) (hg : Grows AllSlots d vm vm') :
    WritesTables d vm₀ vm' :=
  h.trans (fun _ hx => hg.inTable hg.depth hx) hg.wrote

theorem WritesTables.setLeaf (h : WritesTables 3 vm₀ vm) (ht : Tree AllSlots vm)
    (hg : vm.tables (leafPath va) = some g) : WritesTables 3 vm₀ (vm.setLeaf g va e) := by
  refine h.trans (fun x hx => ?_) (fun x hx => setLeaf_wrote ht trivial hg hx)
  obtain ⟨q, g', hq, hl, hg', hx⟩ := hx
  exact ⟨q, g', hq, hl, by rw [tables_setLeaf ht trivial hg hq hl, hg'], hx⟩

theorem WritesTables.clearLeaf (h : WritesTables 3 vm₀ vm) (ht : Tree AllSlots vm)
    (hg : vm.tables (leafPath va) = some g) : WritesTables 3 vm₀ (vm.clearLeaf g va) :=
  h.setLeaf (e := 0#64) ht hg

theorem WritesTables.setLarge (h : WritesTables 2 vm₀ vm) (ht : Tree AllSlots vm)
    (hg : vm.tables (midPath va) = some g) (hl : e &&& kEntryLargePage ≠ 0#64) :
    WritesTables 2 vm₀ (vm.setLarge g va e) :=
  h.trans (fun _ hx => setLarge_inTable ht trivial hg hl (by decide) hx)
    (fun _ hx => setLarge_wrote ht trivial hg hl hx)

end Writes

/-! ## Operations on pages of both sizes -/

inductive MapOp where
  | mapPhysical (va pa n : BitVec 64) (flags : PageFlags)
  | mapPhysical2m (va pa n : BitVec 64) (flags : PageFlags)
  | protect (va n : BitVec 64) (flags : PageFlags)
  | free (va n : BitVec 64)
  deriving DecidableEq, Repr

/-- The state after a call. -/
def MapOp.exec (vm : VirtualMemory) : MapOp → VirtualMemory
  | mapPhysical va pa n flags => (vm.mapPhysical va pa n flags).2
  | mapPhysical2m va pa n flags => (vm.mapPhysical2m va pa n flags).2
  | protect va n flags => (vm.protect va n flags).2
  | free va n => (vm.freeRange va n).2

/-- No page of the range lies below a 2 MiB mapping. -/
def SmallRange (vm : VirtualMemory) (va : BitVec 64) (n : Nat) : Prop :=
  ∀ i < n, NoLargePage vm (pageAt va i)

/-- No page of the range is mapped to a page table. -/
def MapsNoTable (vm : VirtualMemory) (va : BitVec 64) (n : Nat) : Prop :=
  ∀ i < n, vm.leafOf (pageAt va i) ≠ 0#64 → ∀ q, InSlots AllSlots q → q.length ≤ 3 →
    vm.tables q ≠ some (entryAddress (vm.leafOf (pageAt va i)))

/-- A 4 KiB call stays clear of 2 MiB mappings, and `free` frees no page table. -/
def Respects (vm : VirtualMemory) : MapOp → Prop
  | .mapPhysical va _ n _ | .protect va n _ => SmallRange vm va n.toNat
  | .mapPhysical2m _ _ _ _ => True
  | .free va n => SmallRange vm va n.toNat ∧ MapsNoTable vm va n.toNat

theorem SmallRange.grow (h : SmallRange vm va n) (hg : Grows AllSlots d vm vm') :
    SmallRange vm' va n :=
  fun i hi => hg.noLargePage trivial (h i hi)

theorem SmallRange.setLeaf {va' : BitVec 64} (h : SmallRange vm va n) (ht : Tree AllSlots vm)
    (hg : vm.tables (leafPath va') = some g) : SmallRange (vm.setLeaf g va' e) va n := by
  intro i hi
  unfold NoLargePage
  rw [mapped_setLeaf ht trivial hg (midPath_inSlots _ trivial) (by simp [midPath]),
    if_neg (by simp [midPath, leafPath])]
  exact h i hi

theorem MapsNoTable.rootOnly (h : MapsNoTable vm va n) (hg : RootOnly AllSlots vm vm') :
    MapsNoTable vm' va n := by
  rcases hg with rfl | ⟨-, h0⟩
  · exact h
  · intro i _ hne
    rw [leafOf, mapped_leaf, (h0 _ _ (allSlots_path _)).2] at hne
    exact (hne rfl).elim

theorem MapsNoTable.clearLeaf {va' : BitVec 64} (h : MapsNoTable vm va n) (ht : Tree AllSlots vm)
    (hg : vm.tables (leafPath va') = some g) : MapsNoTable (vm.clearLeaf g va') va n := by
  intro i hi hne q hq hl
  have hleaf : (vm.clearLeaf g va').leafOf (pageAt va i) =
      if pageNumber (pageAt va i) = pageNumber va' then 0#64 else vm.leafOf (pageAt va i) :=
    leafOf_setLeaf ht hg _
  rw [hleaf] at hne ⊢
  split at hne
  · exact (hne rfl).elim
  · rename_i hva
    rw [if_neg hva, show (vm.clearLeaf g va').tables q = _ from tables_setLeaf ht trivial hg hq hl]
    exact h i hi hne q hq hl

/-- A call that respects the 2 MiB mappings and the tables writes only to tables. -/
theorem exec_writesTables {op : MapOp} (ht : Tree AllSlots vm) (hr : Respects vm op) :
    Tree AllSlots (op.exec vm) ∧ WritesTables 3 vm (op.exec vm) := by
  have hrefused := And.intro ht (WritesTables.refl (d := 3) vm)
  cases op with
  | mapPhysical va pa n flags =>
    simp only [MapOp.exec, mapPhysical]
    split
    · exact hrefused
    obtain ⟨ht', -, -, hI, -⟩ := mapPhysicalPages_rule
      (I := fun _ s => WritesTables 3 vm s ∧ SmallRange s va n.toNat)
      ⟨fun _ _ => trivial, fun i s hi _ hs => hs.2 i hi,
        fun i s s' hs _ _ hg => ⟨hs.1.grow hg, hs.2.grow hg⟩⟩
      (fun i s g _ hts hs hg => ⟨hs.1.setLeaf hts hg, hs.2.setLeaf hts hg⟩)
      n.toNat 0 (Nat.zero_add _) ht ⟨WritesTables.refl vm, hr⟩ (Prod.mk.eta).symm
    exact ⟨ht', hI.1⟩
  | mapPhysical2m va pa n flags =>
    simp only [MapOp.exec, mapPhysical2m]
    split
    · exact hrefused
    obtain ⟨ht', -, -, hI, -⟩ := mapLargePages_rule (I := fun _ s => WritesTables 2 vm s)
      (fun _ _ => trivial) (fun i s s' hs _ _ hg => hs.grow hg)
      (fun i s g _ hts hs hg => hs.setLarge hts hg (largeWord_large _ _))
      n.toNat 0 (Nat.zero_add _) ht (WritesTables.refl vm) (Prod.mk.eta).symm
    exact ⟨ht', fun x hx => (hI x hx).mono (by decide)⟩
  | protect va n flags =>
    simp only [MapOp.exec, protect]
    split
    · exact hrefused
    obtain ⟨ht', -, -, hI, -⟩ := protectPages_rule
      (I := fun _ s => WritesTables 3 vm s ∧ SmallRange s va n.toNat)
      ⟨fun _ _ => trivial, fun i s hi _ hs => hs.2 i hi,
        fun i s s' hs _ _ hg => ⟨hs.1.grow (hg.grows.mono (by decide) (by decide)),
          hs.2.grow hg.grows⟩⟩
      (fun i s g _ hts hs hg _ => ⟨hs.1.setLeaf hts hg, hs.2.setLeaf hts hg⟩)
      n.toNat 0 (Nat.zero_add _) ht ⟨WritesTables.refl vm, hr⟩ (Prod.mk.eta).symm
    exact ⟨ht', hI.1⟩
  | free va n =>
    simp only [MapOp.exec, freeRange]
    split
    · exact hrefused
    obtain ⟨ht', -, -, hI, -⟩ := freePages_rule
      (I := fun _ s => WritesTables 3 vm s ∧ SmallRange s va n.toNat ∧ MapsNoTable s va n.toNat)
      ⟨fun _ _ => trivial, fun i s hi _ hs => hs.2.1 i hi,
        fun i s s' hs _ _ hg => ⟨hs.1.grow (hg.grows.mono (by decide) (by decide)),
          hs.2.1.grow hg.grows, hs.2.2.rootOnly hg⟩⟩
      (fun i s hi _ hs hne q hq hl => hs.2.2 i hi hne q hq hl)
      (fun i s g _ hts hs hg _ =>
        ⟨hs.1.clearLeaf hts hg, hs.2.1.setLeaf hts hg, hs.2.2.clearLeaf hts hg⟩)
      n.toNat 0 (Nat.zero_add _) ht ⟨WritesTables.refl vm, hr⟩ (Prod.mk.eta).symm
    exact ⟨ht', hI.1⟩

/-- In every run of such calls on a new address space, each call writes only to page tables. -/
theorem mixed_run_writes_only_tables (vm : VirtualMemory) (hfresh : vm.initialized = false)
    (hframes : vm.frames.Tracked) (ops : List MapOp) (h : Along MapOp.exec Respects vm ops) :
    Along MapOp.exec (fun s op => WritesTables 3 s (op.exec s)) vm ops :=
  h.imp_of_inv (Tree AllSlots) (fun _ _ ht hr => exec_writesTables ht hr)
    (tree_fresh hfresh hframes)

/-- A 2 MiB mapping with a 4 KiB mapping beside it. -/
theorem mixed_run_writes_only_tables_beside :
    Along MapOp.exec (fun s op => WritesTables 3 s (op.exec s)) bootedSpace
      [.mapPhysical2m 0x8000000000#64 0x40000000#64 1#64 { write := true },
        .mapPhysical 0x8000200000#64 0xFEE00000#64 1#64 { write := true },
        .protect 0x8000200000#64 1#64 {}] := by
  refine mixed_run_writes_only_tables bootedSpace rfl bootedFrames_tracked _
    ⟨trivial, ?_, ?_, trivial⟩
  · intro i hi
    obtain rfl : i = 0 := Nat.lt_one_iff.mp hi
    unfold NoLargePage
    decide +kernel
  · intro i hi
    obtain rfl : i = 0 := Nat.lt_one_iff.mp hi
    unfold NoLargePage
    decide +kernel

/-! ## Below a 2 MiB mapping -/

theorem stepDown_existing (hne : vm.mem.load64 (g + 8 * k) ≠ 0#64) :
    vm.stepDown g k true false = (vm, some (entryAddress (vm.mem.load64 (g + 8 * k)))) := by
  simp [stepDown, ensureTableEntry, hne]

theorem entryOf_ne_zero_of_tables {i : Nat} {q : List Nat} (h : vm.tables (q ++ [i]) = some g) :
    vm.entryOf q i ≠ 0#64 ∧ entryAddress (vm.entryOf q i) = g := by
  rw [tables_snoc] at h
  obtain ⟨h1, h2⟩ := isTableEntry_of_nextTable h
  exact ⟨(isTableEntry_iff.mp h1).1, h2⟩

theorem descend_existing {p : List Nat} (h : vm.tables p = some g) :
    vm.descend true false p = (vm, some g) := by
  induction p using List.reverseRecOn generalizing g with
  | nil =>
    have hi := initialized_of_tables h
    rw [descend, ensureRoot, if_pos hi, Option.some.inj (h.symm.trans (tables_root hi))]
    rfl
  | append_singleton q j ih =>
    obtain ⟨hne, ha⟩ := entryOf_ne_zero_of_tables h
    cases hq : vm.tables q with
    | none => exact absurd (entryOf_none hq) hne
    | some g' =>
      rw [entryOf_eq hq] at hne ha
      rw [descend_snoc, ih hq]
      exact (stepDown_existing hne).trans (by rw [ha])

/-- The walk takes the memory of a 2 MiB mapping for a leaf table. -/
theorem walkToLeaf_below_large (hl : vm.mapped (midPath va) (pageIndex va 21) ≠ 0#64) :
    vm.walkToLeaf va true false =
      (vm,
        some (entryAddress (vm.mapped (midPath va) (pageIndex va 21)) + 8 * pageIndex va 12)) := by
  have hlarge : vm.mapped (midPath va) (pageIndex va 21) =
      vm.entryOf (midPath va) (pageIndex va 21) := by
    unfold mapped at hl ⊢
    split
    · rfl
    · rename_i hc
      rw [if_neg hc] at hl
      exact (hl rfl).elim
  cases h2 : vm.tables (midPath va) with
  | none => exact (hl (mapped_none h2)).elim
  | some pml2 =>
    rw [hlarge, entryOf_eq h2] at hl ⊢
    rw [walkToLeaf_eq, show leafPath va = midPath va ++ [pageIndex va 21] from rfl, descend_snoc,
      descend_existing h2]
    simp only [stepDown_existing hl, Option.map_some]

/-- Mapping a 4 KiB page below a 2 MiB mapping returns true, and writes the new leaf entry into
the memory behind the mapping. -/
theorem mapPhysical_below_large (hva : va &&& kPageOffsetMask = 0#64)
    (hpa : pa &&& kPageOffsetMask = 0#64) (hu : flags.user = false)
    (hl : vm.mapped (midPath va) (pageIndex va 21) ≠ 0#64) :
    vm.mapPhysical va pa 1#64 flags = (true, vm.storeEntry
      (entryAddress (vm.mapped (midPath va) (pageIndex va 21)) + 8 * pageIndex va 12)
      (leafWord pa flags 0)) := by
  rw [mapPhysical, if_neg (by simp [hva, hpa]), show (1#64).toNat = 0 + 1 from rfl,
    mapPhysicalPages, pageAt_zero, hu, walkToLeaf_below_large hl]
  rfl

theorem Tree.inTable_lt (h : Tree slots vm) {x : Nat} (hx : InTable slots 3 vm x) :
    x < vm.frames.pageCount * kPageSize := by
  obtain ⟨q, g, hq, hl, hg, -, hx⟩ := hx
  obtain ⟨n, hn, rfl, -⟩ := h.owned q g hq hl hg
  calc x < (n + 1) * kPageSize := by rw [Nat.add_mul, Nat.one_mul]; exact hx
    _ ≤ vm.frames.pageCount * kPageSize := Nat.mul_le_mul_right _ hn

/-- A store above the tracked memory changes no table. -/
theorem Tree.not_inTable_storeEntry (h : Tree slots vm) {a x : Nat}
    (ha : vm.frames.pageCount * kPageSize ≤ a) (hx : vm.frames.pageCount * kPageSize ≤ x) :
    ¬ InTable slots 3 (vm.storeEntry a e) x := by
  rintro ⟨q, g, hq, hl, hg, hgx⟩
  have hmem : ∀ y, InTable slots 3 vm y → (vm.storeEntry a e).mem y = vm.mem y := by
    intro y hy
    have hlt := h.inTable_lt hy
    exact Memory.store64_apply_of_not_mem (by omega)
  have hsame := (same_of_mem vm (vm.storeEntry a e) rfl rfl hmem).1 q hq hl
  have := h.inTable_lt ⟨q, g, hq, hl, hsame ▸ hg, hgx⟩
  omega

/-- A 4 KiB call inside a 2 MiB mapping of memory at 1 GiB writes to that memory. -/
theorem mixed_run_writes_mapped_memory :
    ¬ Along MapOp.exec (fun s op => WritesTables 3 s (op.exec s)) bootedSpace
      [.mapPhysical2m 0x8000000000#64 0x40000000#64 1#64 { write := true },
        .mapPhysical 0x8000000000#64 0xFEE00000#64 1#64 { write := true }] := by
  rintro ⟨-, hwrites, -⟩
  obtain ⟨ht, -⟩ := exec_writesTables bootedSpace_tree (show Respects bootedSpace
    (.mapPhysical2m 0x8000000000#64 0x40000000#64 1#64 { write := true }) from trivial)
  have hmapped : ((MapOp.mapPhysical2m 0x8000000000#64 0x40000000#64 1#64 { write := true }).exec
      bootedSpace).mapped (midPath 0x8000000000#64) (pageIndex 0x8000000000#64 21) =
      0x40000083#64 := by decide +kernel
  have hcount : ((MapOp.mapPhysical2m 0x8000000000#64 0x40000000#64 1#64 { write := true }).exec
      bootedSpace).frames.pageCount = 528 := by decide +kernel
  have hzero : ((MapOp.mapPhysical2m 0x8000000000#64 0x40000000#64 1#64 { write := true }).exec
      bootedSpace).mem 0x40000000 = 0#8 := by decide +kernel
  generalize (MapOp.mapPhysical2m 0x8000000000#64 0x40000000#64 1#64 { write := true }).exec
    bootedSpace = s at *
  have hexec : (MapOp.mapPhysical 0x8000000000#64 0xFEE00000#64 1#64 { write := true }).exec s =
      s.storeEntry 0x40000000 0xFEE00003#64 := by
    rw [MapOp.exec, mapPhysical_below_large (by decide) (by decide) rfl (by rw [hmapped]; decide),
      hmapped]
    rfl
  simp only [hexec] at hwrites
  refine ht.not_inTable_storeEntry (a := 0x40000000) (e := 0xFEE00003#64) ?_ ?_
    (hwrites 0x40000000 ?_)
  · rw [hcount]
    decide
  · rw [hcount]
    decide
  · rw [hzero]
    simp [storeEntry, Memory.store64, Memory.store]

end Os1.VirtualMemory
