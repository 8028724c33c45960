import Os1.Mm.UserWrite
import Os1.Proc.LoadBounds

/-! The memory of a loaded program is what its segments say, one after the other. -/
namespace Os1

open VirtualMemory

/-- What user code finds at each address. -/
abbrev UserMemory := BitVec 64 → Option (UserRights × BitVec 8)

namespace UserMemory

/-- Map zeroed pages over `[start, stop)`. -/
def mapZero (M : UserMemory) (start stop : Nat) (rights : UserRights) : UserMemory := fun va =>
  if start ≤ va.toNat ∧ va.toNat < stop then some (rights, 0#8) else M va

/-- Replace the bytes of `[address, address + length)`. -/
def write (M : UserMemory) (address length : Nat) (source : Nat → BitVec 8) : UserMemory :=
  fun va =>
    if address ≤ va.toNat ∧ va.toNat < address + length then
      (M va).map fun v => (v.1, source (va.toNat - address))
    else M va

end UserMemory

namespace UserProgram

open Elf UserElf

abbrev Segment := Elf64ProgramHeader × LoadSegmentPlan

/-- Map the pages of a segment and copy its file bytes. -/
def addSegment (image : Image) (M : UserMemory) (s : Segment) : UserMemory :=
  (M.mapZero s.2.segmentStart.toNat s.2.segmentEnd.toNat (flagRights s.2.pageFlags)).write
    s.1.vaddr.toNat s.1.filesz.toNat (fileBytes image s.1)

def segmentMemory (image : Image) (segments : List Segment) : UserMemory :=
  segments.foldl (addSegment image) fun _ => none

/-- The segments and the stack. -/
def programMemory (image : Image) (segments : List Segment) : UserMemory :=
  (segmentMemory image segments).mapZero stackBase kUserStackTop (flagRights stackFlags)

/-- The kernel's root is an allocated frame, and its two shared entries are closed to user
code. -/
structure KernelRoot (machine : Machine) (cr3 : BitVec 64) : Prop where
  busy : Busy machine.frames cr3.toNat
  kernel : userVisible (machine.mem.load64 (cr3.toNat + 8 * kKernelPml4Index)) = false
  directMap : userVisible (machine.mem.load64 (cr3.toNat + 8 * kDirectMapPml4Index)) = false

/-- An address space in which user code can reach the user slot only. -/
structure ProgramSpace (vm : VirtualMemory) : Prop where
  space : UserSpace kUserPml4Index vm
  opened : OpenTables kUserPml4Index vm
  leaves : OpenLeaves kUserPml4Index vm
  init : vm.initialized = true
  closed : ∀ k < 512, k ≠ kUserPml4Index →
    userVisible (vm.mem.load64 (vm.root.toNat + 8 * k)) = false

variable {vm vm' : VirtualMemory} {image : Image} {s : Segment} {va : BitVec 64} {l : Loading}

theorem ProgramSpace.opening (h : ProgramSpace vm) (hs : UserSpace kUserPml4Index vm')
    (ho : Opening kUserPml4Index vm vm') (hl : OpenLeaves kUserPml4Index vm') :
    ProgramSpace vm' := by
  obtain ⟨hi, hr, hk⟩ := ho.root h.init
  refine ⟨hs, ho.tables h.opened, hl, hi, fun k hlt hne => ?_⟩
  rw [hr, hk k hlt hne]
  exact h.closed k hlt hne

theorem ProgramSpace.mapsPages {flags : PageFlags} {k : Nat} (h : ProgramSpace vm)
    (hm : MapsPages kUserPml4Index vm va flags k vm') : ProgramSpace vm' :=
  h.opening hm.space hm.opening (hm.leaves h.leaves)

theorem ProgramSpace.writesPages {m : Memory} (h : ProgramSpace vm)
    (hm : WritesPages kUserPml4Index vm m) : ProgramSpace { vm with mem := m } := by
  refine h.opening (h.space.of_writesPages hm) (opening_of_writesPages h.space hm) ?_
  intro va hs
  rw [leafOf_of_writesPages h.space hm hs]
  exact h.leaves va hs

/-- What user code does not see is not mapped at all. -/
theorem ProgramSpace.translate_none (h : ProgramSpace vm) (hs : pageIndex va 39 = kUserPml4Index)
    (hview : vm.slotView va = none) : vm.translate va = none := by
  rw [translate_slot h.space hs, if_pos]
  by_contra hne
  rw [slotView, leafView, if_pos (h.leaves va hs hne)] at hview
  cases hview

/-! ## The new root -/

theorem entryOf_of_empty_slot {slot : Nat} (h : vm.entryOf [] slot = 0#64) {q : List Nat} {j : Nat}
    (hs : InSlot slot (q ++ [j])) : vm.entryOf q j = 0#64 := by
  cases q with
  | nil =>
    obtain rfl : j = slot := hs.2 j rfl
    exact h
  | cons i q =>
    obtain rfl : i = slot := hs.2 i rfl
    apply entryOf_none
    rw [← List.singleton_append]
    apply tables_append_none
    rw [← List.nil_append [i], tables_snoc, h, nextTable_zero]

theorem leafOf_of_empty_slot {slot : Nat} (h : vm.entryOf [] slot = 0#64)
    (hs : pageIndex va 39 = slot) : vm.leafOf va = 0#64 := by
  rw [leafOf, mapped_leaf, entryOf_of_empty_slot h (leafPath_inSlots va hs (pageIndex_lt va 12))]

/-- An entry of the new root after the kernel's entries are copied into it. -/
theorem cloned_entry {m : Memory} {root source k : Nat} (hk : k < 512) (hz : ZeroPage m root)
    (hapart : root + kPageSize ≤ source ∨ source + kPageSize ≤ root) :
    let m1 := m.store64 (root + 8 * kKernelPml4Index) (m.load64 (source + 8 * kKernelPml4Index))
    (m1.store64 (root + 8 * kDirectMapPml4Index)
        (m1.load64 (source + 8 * kDirectMapPml4Index))).load64 (root + 8 * k) =
      if k = kDirectMapPml4Index then m.load64 (source + 8 * kDirectMapPml4Index)
      else if k = kKernelPml4Index then m.load64 (source + 8 * kKernelPml4Index)
      else 0#64 := by
  have hkernel : kKernelPml4Index = 511 := by decide
  have hdirect : kDirectMapPml4Index = 256 := by decide
  have hsource : ∀ e, (m.store64 (root + 8 * kKernelPml4Index) e).load64
      (source + 8 * kDirectMapPml4Index) = m.load64 (source + 8 * kDirectMapPml4Index) := by
    intro e
    apply Memory.load64_store64_of_disjoint
    unfold kPageSize at hapart
    omega
  dsimp only
  rw [hsource]
  by_cases hd : k = kDirectMapPml4Index
  · rw [if_pos hd, hd, Memory.load64_store64_self]
  rw [if_neg hd, Memory.load64_store64_of_disjoint (by omega)]
  by_cases hn : k = kKernelPml4Index
  · rw [if_pos hn, hn, Memory.load64_store64_self]
  rw [if_neg hn, Memory.load64_store64_of_disjoint (by omega)]
  refine Memory.load64_of_zero fun x h1 h2 => hz x (by omega) ?_
  unfold kPageSize
  omega

theorem cloneKernelMappings_programSpace {machine : Machine} {kernelRootCr3 : BitVec 64}
    (hframes : machine.frames.Tracked) (hready : machine.frames.initialized = true)
    (hkernel : KernelRoot machine kernelRootCr3)
    (he : machine.newSpace.cloneKernelMappings kernelRootCr3 = (true, vm)) :
    ProgramSpace vm ∧ vm.entryOf [] kUserPml4Index = 0#64 ∧
      ∃ n, machine.frames.allocate = some (n * kPageSize, machine.frames.take n) ∧
        vm.frames = machine.frames.take n ∧ vm.root.toNat = n * kPageSize := by
  have hfresh : UserSpace kUserPml4Index machine.newSpace := userSpace_fresh rfl hframes hready
  have hspace : UserSpace kUserPml4Index (machine.newSpace.cloneKernelMappings kernelRootCr3).2 :=
    hfresh.cloneKernelMappings (by decide) (by decide)
  rw [he] at hspace
  rw [VirtualMemory.cloneKernelMappings, ensureRoot, if_neg (by simp [Machine.newSpace])] at he
  cases ha : machine.newSpace.frames.allocate with
  | none =>
    rw [ha] at he
    cases congrArg Prod.fst he
  | some r =>
    obtain ⟨a, frames⟩ := r
    rw [ha] at he
    obtain ⟨n, rfl, hn, hf, rfl, -⟩ := PageFrameContainer.allocate_some hframes ha
    have hn40 : n < 2 ^ 40 := lt_of_lt_of_le hn hframes.bounded
    have hroot : (BitVec.ofNat 64 (n * kPageSize)).toNat = n * kPageSize := toNat_frame hn40
    have hapart : n * kPageSize + kPageSize ≤ kernelRootCr3.toNat ∨
        kernelRootCr3.toNat + kPageSize ≤ n * kPageSize := by
      obtain ⟨m, -, hm, hb⟩ := hkernel.busy
      have hne : m ≠ n := by
        rintro rfl
        cases hb.symm.trans hf
      unfold kPageSize at *
      omega
    have hzero : ZeroPage (machine.mem.fill (n * kPageSize) kPageSize 0#8) (n * kPageSize) :=
      fun x h1 h2 => Memory.fill_apply_of_mem ⟨h1, h2⟩
    have hsource : ∀ k < 512, (machine.mem.fill (n * kPageSize) kPageSize 0#8).load64
        (kernelRootCr3.toNat + 8 * k) = machine.mem.load64 (kernelRootCr3.toNat + 8 * k) := by
      intro k hk
      refine Memory.load64_congr fun x h1 h2 => Memory.fill_apply_of_not_mem fun hx => ?_
      unfold kPageSize at *
      omega
    have hinit : vm.initialized = true := by rw [← (Prod.mk.inj he).2]
    have hentry : ∀ k < 512, vm.mem.load64 (vm.root.toNat + 8 * k) =
        if k = kDirectMapPml4Index then
          machine.mem.load64 (kernelRootCr3.toNat + 8 * kDirectMapPml4Index)
        else if k = kKernelPml4Index then
          machine.mem.load64 (kernelRootCr3.toNat + 8 * kKernelPml4Index)
        else 0#64 := by
      intro k hk
      rw [← hsource kKernelPml4Index (by decide), ← hsource kDirectMapPml4Index (by decide),
        ← cloned_entry hk hzero hapart, ← (Prod.mk.inj he).2]
      simp only [hroot]
      rfl
    have hempty : vm.entryOf [] kUserPml4Index = 0#64 := by
      rw [entryOf_eq (tables_root hinit), hentry _ (by decide), if_neg (by decide),
        if_neg (by decide)]
    refine ⟨⟨hspace, fun q j hs _ hne => (hne (entryOf_of_empty_slot hempty hs)).elim,
      fun va hs hne => (hne (leafOf_of_empty_slot hempty hs)).elim, hinit, fun k hk _ => ?_⟩,
      hempty, n, ha, ?_, ?_⟩
    · rw [hentry k hk]
      split
      · exact hkernel.directMap
      · split
        · exact hkernel.kernel
        · exact userVisible_zero
    · exact (congrArg VirtualMemory.frames (Prod.mk.inj he).2).symm
    · rw [← (Prod.mk.inj he).2]
      exact hroot

/-! ## Segments -/

/-- The pages of an aligned range of the user slot are the pages of its addresses. -/
theorem page_in_range {start : BitVec 64} {n : Nat} (hal : start.toNat % kPageSize = 0)
    (hlo : kUserSpaceBase ≤ start.toNat) (hhi : start.toNat + n * kPageSize ≤ kUserStackTop)
    (hw : InWindow kUserPml4Index va) :
    (∃ i < n, pageNumber va = pageNumber (pageAt start i)) ↔
      start.toNat ≤ va.toNat ∧ va.toNat < start.toNat + n * kPageSize := by
  have hat : ∀ i < n, (pageAt start i).toNat = start.toNat + i * kPageSize := by
    intro i hi
    have hle : i * kPageSize ≤ n * kPageSize := Nat.mul_le_mul_right _ hi.le
    have htop : kUserStackTop < 2 ^ 64 := by decide
    rw [pageAt, BitVec.toNat_add, BitVec.toNat_ofNat, Nat.add_mod_mod, Nat.mod_eq_of_lt (by omega)]
  unfold InWindow at hw
  simp only [kUserPml4Index, kUserSpaceBase, kUserStackTop, kPageSize] at hal hlo hhi hw hat ⊢
  constructor
  · rintro ⟨i, hi, hnum⟩
    rw [← BitVec.toNat_inj, toNat_pageNumber, toNat_pageNumber, hat i hi] at hnum
    omega
  · rintro ⟨h1, h2⟩
    refine ⟨(va.toNat - start.toNat) / 4096, by omega, ?_⟩
    rw [← BitVec.toNat_inj, toNat_pageNumber, toNat_pageNumber, hat _ (by omega)]
    omega

theorem aligned_of_mod {start : BitVec 64} (h : start.toNat % kPageSize = 0) :
    start &&& kPageOffsetMask = 0#64 := (aligned_iff start).mpr h

theorem stackGuardBase_lt : stackGuardBase < kUserStackTop := by decide

/-- What `allocate_and_map` does for the pages of a segment. -/
theorem segment_mapsPages (b : SegmentBounds image s.1 s.2) (h : UserSpace kUserPml4Index vm)
    {r : Option Nat}
    (he : vm.allocateAndMap s.2.segmentStart s.2.numPages s.2.pageFlags = (r, vm')) :
    ∃ k ≤ s.2.numPages.toNat,
      MapsPages kUserPml4Index vm s.2.segmentStart s.2.pageFlags k vm' ∧
      (r.isSome = true ↔ k = s.2.numPages.toNat) := by
  refine allocateAndMap_mapsPages h b.numPages_ne (aligned_of_mod b.aligned) ?_
    (fun i hi => (b.userPage hi).slot) he
  rw [b.flags]
  rfl

/-- After all pages of the segment are mapped, its range holds zeroes. -/
theorem segment_view_mapped (b : SegmentBounds image s.1 s.2)
    (hm : MapsPages kUserPml4Index vm s.2.segmentStart s.2.pageFlags s.2.numPages.toNat vm')
    (hw : InWindow kUserPml4Index va) :
    vm'.slotView va = UserMemory.mapZero vm.slotView s.2.segmentStart.toNat s.2.segmentEnd.toNat
      (flagRights s.2.pageFlags) va := by
  have hguard := b.guard
  have htop := stackGuardBase_lt
  have hpages := b.toNat_numPages
  rw [hm.view va (hw.pageIndex (by decide)), UserMemory.mapZero]
  simp only [page_in_range (n := s.2.numPages.toNat) b.aligned b.base (by omega) hw, hpages]

theorem toNat_byteAt_of_lt {address : BitVec 64} {i : Nat} (h : address.toNat + i < 2 ^ 64) :
    (byteAt address i).toNat = address.toNat + i := by
  rw [byteAt, BitVec.toNat_add, BitVec.toNat_ofNat, Nat.add_mod_mod, Nat.mod_eq_of_lt h]

/-- The file bytes of a segment go to addresses of its pages. -/
theorem segment_fileByte (b : SegmentBounds image s.1 s.2) {i : Nat}
    (hi : i < s.1.filesz.toNat) :
    (byteAt s.1.vaddr i).toNat = s.1.vaddr.toNat + i ∧
      s.2.segmentStart.toNat ≤ (byteAt s.1.vaddr i).toNat ∧
      (byteAt s.1.vaddr i).toNat < s.2.segmentEnd.toNat := by
  have h1 := b.vaddr_ge
  have h2 := b.end_le
  have h3 := b.filesz_le
  have h4 := b.stop_lt
  have hat : (byteAt s.1.vaddr i).toNat = s.1.vaddr.toNat + i := toNat_byteAt_of_lt (by omega)
  omega

theorem segment_inWindow (b : SegmentBounds image s.1 s.2)
    (h1 : s.2.segmentStart.toNat ≤ va.toNat) (h2 : va.toNat < s.2.segmentEnd.toNat) :
    InWindow kUserPml4Index va := by
  have hbase := b.base
  have hguard := b.guard
  unfold InWindow
  simp only [kUserPml4Index, kUserSpaceBase, stackGuardBase, kUserStackTop, kUserStackPages,
    kPageSize] at *
  omega

theorem userPage_inWindow (h : UserPage va) : InWindow kUserPml4Index va := by
  have hbase := h.base
  have hguard := h.guard
  unfold InWindow
  simp only [kUserPml4Index, kUserSpaceBase, stackGuardBase, kUserStackTop, kUserStackPages,
    kPageSize] at *
  omega

/-- The address space holds the segments that were mapped so far. -/
structure Loaded (image : Image) (l : Loading) : Prop where
  program : ProgramSpace l.vm
  view : ∀ va, InWindow kUserPml4Index va → l.vm.slotView va = segmentMemory image l.segments va
  accepted : Accepted image l.segments

theorem cloneKernelMappings_loaded {machine : Machine} {kernelRootCr3 : BitVec 64}
    (hframes : machine.frames.Tracked) (hready : machine.frames.initialized = true)
    (hkernel : KernelRoot machine kernelRootCr3)
    (he : machine.newSpace.cloneKernelMappings kernelRootCr3 = (true, vm)) :
    Loaded image { vm } := by
  obtain ⟨hprogram, hempty, -⟩ := cloneKernelMappings_programSpace hframes hready hkernel he
  refine ⟨hprogram, fun va hw => ?_, fun _ hs => by cases hs⟩
  rw [slotView, leafOf_of_empty_slot hempty (hw.pageIndex (by decide)), leafView_zero]
  rfl

theorem segmentMemory_append (image : Image) (segments : List Segment) (s : Segment) :
    segmentMemory image (segments ++ [s]) = addSegment image (segmentMemory image segments) s := by
  rw [segmentMemory, List.foldl_append]
  rfl

theorem leafOf_ne_of_view {v : UserRights × BitVec 8} (h : vm.slotView va = some v) :
    vm.leafOf va ≠ 0#64 := by
  intro h0
  rw [slotView, h0, leafView_zero] at h
  cases h

theorem segment_fileByte_inWindow (b : SegmentBounds image s.1 s.2) {i : Nat}
    (hi : i < s.1.filesz.toNat) : InWindow kUserPml4Index (byteAt s.1.vaddr i) := by
  obtain ⟨-, h1, h2⟩ := segment_fileByte b hi
  exact segment_inWindow b h1 h2

theorem segment_fileByte_mapped (b : SegmentBounds image s.1 s.2)
    (hm : MapsPages kUserPml4Index vm s.2.segmentStart s.2.pageFlags s.2.numPages.toNat vm')
    {i : Nat} (hi : i < s.1.filesz.toNat) : vm'.leafOf (byteAt s.1.vaddr i) ≠ 0#64 := by
  obtain ⟨-, h1, h2⟩ := segment_fileByte b hi
  exact leafOf_ne_of_view
    ((segment_view_mapped b hm (segment_fileByte_inWindow b hi)).trans (if_pos ⟨h1, h2⟩))

/-- The memory after the file bytes of a segment are copied. -/
def copiedSegment (image : Image) (s : Segment) (vm : VirtualMemory) : Memory :=
  vm.writeRange s.1.vaddr (fileBytes image s.1) s.1.filesz.toNat

/-- Copying a segment succeeds once its pages are mapped. -/
theorem segment_copied (b : SegmentBounds image s.1 s.2)
    (hm : MapsPages kUserPml4Index vm s.2.segmentStart s.2.pageFlags s.2.numPages.toNat vm') :
    WritesPages kUserPml4Index vm' (copiedSegment image s vm') ∧
      vm'.copyIntoAddressSpace s.1.vaddr (fileBytes image s.1) s.1.filesz =
        (true, { vm' with mem := copiedSegment image s vm' }) ∧
      ∀ va, InWindow kUserPml4Index va →
        { vm' with mem := copiedSegment image s vm' }.slotView va =
          UserMemory.write vm'.slotView s.1.vaddr.toNat s.1.filesz.toNat (fileBytes image s.1)
            va := by
  have hwin : ∀ i < s.1.filesz.toNat, InWindow kUserPml4Index (byteAt s.1.vaddr i) :=
    fun i hi => segment_fileByte_inWindow b hi
  have hwrap : s.1.vaddr.toNat + s.1.filesz.toNat ≤ 2 ^ 64 := by
    have h1 := b.end_le
    have h2 := b.filesz_le
    have h3 := b.stop_lt
    omega
  refine ⟨writesPages_writeRange hm.space (by decide) hwin (Nat.le_refl _),
    copyIntoAddressSpace_spec hm.space (by decide) hwin fun i hi => segment_fileByte_mapped b hm hi,
    fun va hw => ?_⟩
  rw [copiedSegment, slotView_writeRange hm.space (by decide) hwin hwrap (Nat.le_refl _) hw]
  rfl

theorem mapSegment_loaded (hsize : image.length < 2 ^ 64)
    (hplan : planLoadSegment s.1 (imageSize image) = some s.2) (h : Loaded image l)
    (he : mapSegment image s l.vm = (true, vm)) :
    Loaded image { vm, segments := l.segments ++ [s] } := by
  have b := segmentBounds hsize hplan
  rw [mapSegment] at he
  rcases hmap : l.vm.allocateAndMap s.2.segmentStart s.2.numPages s.2.pageFlags with ⟨r, vm1⟩
  obtain ⟨k, -, hm, hr⟩ := segment_mapsPages b h.program.space hmap
  rw [hmap] at he
  cases r with
  | none => cases congrArg Prod.fst he
  | some first =>
    obtain rfl := hr.mp rfl
    obtain ⟨hwrites, hcopy, hview⟩ := segment_copied b hm
    dsimp only at he
    rw [hcopy] at he
    obtain rfl := (Prod.mk.inj he).2
    refine ⟨?_, fun va hw => ?_, h.accepted.append hplan⟩
    · exact (h.program.mapsPages hm).writesPages hwrites
    · rw [hview va hw, segmentMemory_append, addSegment]
      unfold UserMemory.write
      rw [segment_view_mapped b hm hw]
      unfold UserMemory.mapZero
      rw [h.view va hw]

theorem loadSegments_loaded (hsize : image.length < 2 ^ 64) (header : Elf64Header) (n i : Nat)
    (h : Loaded image l) :
    ∃ r, loadSegments header image n i l = .ok r ∧ (r.1 = true → Loaded image r.2) := by
  obtain ⟨r, hr, hloaded, -⟩ := loadSegments_rule hsize (I := Loaded image) (F := fun _ => True)
    (fun _ _ => trivial) (fun _ _ _ hs hl he => mapSegment_loaded hsize hs hl he)
    (fun _ _ _ _ _ _ => trivial) header n i l h
  exact ⟨r, hr, hloaded⟩

/-! ## The stack -/

theorem toNat_stackBase : (BitVec.ofNat 64 stackBase).toNat = stackBase := by decide

theorem stack_mapsPages (h : ProgramSpace vm) {r : Option Nat}
    (he : vm.allocateAndMap (BitVec.ofNat 64 stackBase) (BitVec.ofNat 64 kUserStackPages)
      stackFlags = (r, vm')) :
    ∃ k ≤ kUserStackPages,
      MapsPages kUserPml4Index vm (BitVec.ofNat 64 stackBase) stackFlags k vm' ∧
      (r.isSome = true ↔ k = kUserStackPages) :=
  allocateAndMap_mapsPages h.space (by decide) (by decide) rfl (by decide) he

theorem stack_view_mapped
    (hm : MapsPages kUserPml4Index vm (BitVec.ofNat 64 stackBase) stackFlags kUserStackPages vm')
    (hw : InWindow kUserPml4Index va) :
    vm'.slotView va =
      UserMemory.mapZero vm.slotView stackBase kUserStackTop (flagRights stackFlags) va := by
  have hal : (BitVec.ofNat 64 stackBase).toNat % kPageSize = 0 := by decide
  have hrange := page_in_range (n := kUserStackPages) hal (by decide) (by decide) hw
  rw [hm.view va (hw.pageIndex (by decide)), UserMemory.mapZero]
  simp only [hrange, toNat_stackBase]
  rfl

/-- The stack is the last thing that is mapped. -/
theorem loadStack_view (h : ProgramSpace vm) (he : loadStack vm = (true, vm')) :
    ProgramSpace vm' ∧ ∀ va, InWindow kUserPml4Index va → vm'.slotView va =
      UserMemory.mapZero vm.slotView stackBase kUserStackTop (flagRights stackFlags) va := by
  rw [loadStack] at he
  rcases hmap : vm.allocateAndMap (BitVec.ofNat 64 stackBase) (BitVec.ofNat 64 kUserStackPages)
    stackFlags with ⟨r, vm1⟩
  obtain ⟨k, -, hm, hr⟩ := stack_mapsPages h hmap
  rw [hmap] at he
  cases r with
  | none => cases congrArg Prod.fst he
  | some first =>
    obtain rfl := hr.mp rfl
    obtain rfl := (Prod.mk.inj he).2
    exact ⟨h.mapsPages hm, fun va hw => stack_view_mapped hm hw⟩

/-! ## The whole program -/

/-- The segment maps the page of the address. -/
def Segment.Touches (s : Segment) (va : BitVec 64) : Prop :=
  s.2.segmentStart.toNat ≤ va.toNat ∧ va.toNat < s.2.segmentEnd.toNat

instance (s : Segment) (va : BitVec 64) : Decidable (s.Touches va) :=
  inferInstanceAs (Decidable (_ ∧ _))

/-- The byte of the segment at an address of its pages: a byte of the file, or zero. -/
def segmentByte (image : Image) (program : Elf64ProgramHeader) (va : BitVec 64) : BitVec 8 :=
  if program.vaddr.toNat ≤ va.toNat ∧
      va.toNat < program.vaddr.toNat + program.filesz.toNat then
    fileBytes image program (va.toNat - program.vaddr.toNat)
  else 0#8

/-- A segment replaces what was there on all of its pages. -/
theorem addSegment_apply (b : SegmentBounds image s.1 s.2) (M : UserMemory) (va : BitVec 64) :
    addSegment image M s va =
      if s.Touches va then some (flagRights s.2.pageFlags, segmentByte image s.1 va) else M va := by
  have h1 := b.vaddr_ge
  have h2 := b.end_le
  have h3 := b.filesz_le
  unfold addSegment UserMemory.write UserMemory.mapZero Segment.Touches segmentByte
  split_ifs <;> first | rfl | omega

theorem segmentMemory_outside {segments : List Segment} (hsize : image.length < 2 ^ 64)
    (h : Accepted image segments) (hw : ¬ InWindow kUserPml4Index va) :
    segmentMemory image segments va = none := by
  induction segments using List.reverseRecOn with
  | nil => rfl
  | append_singleton segments s ih =>
    have b := segmentBounds hsize (h s (List.mem_append_right _ (List.mem_singleton_self s)))
    rw [segmentMemory_append, addSegment_apply b,
      if_neg fun ht => hw (segment_inWindow b ht.1 ht.2)]
    exact ih fun s' hs' => h s' (List.mem_append_left _ hs')

theorem programMemory_outside {segments : List Segment} (hsize : image.length < 2 ^ 64)
    (h : Accepted image segments) (hw : ¬ InWindow kUserPml4Index va) :
    programMemory image segments va = none := by
  rw [programMemory, UserMemory.mapZero, if_neg, segmentMemory_outside hsize h hw]
  rintro ⟨h1, h2⟩
  apply hw
  unfold InWindow
  simp only [stackBase, kUserStackTop, kUserStackPages, kPageSize, kUserPml4Index] at *
  omega

theorem pageIndex_of_not_inWindow (hc : isCanonical va = true)
    (hw : ¬ InWindow kUserPml4Index va) : pageIndex va 39 ≠ kUserPml4Index := by
  have hlt := va.isLt
  unfold InWindow at hw
  unfold isCanonical at hc
  rw [pageIndex_eq]
  simp only [kUserPml4Index, Bool.or_eq_true, decide_eq_true_iff] at *
  omega

/-- User code sees the pages of the slot and nothing else. -/
theorem ProgramSpace.userView (h : ProgramSpace vm) (va : BitVec 64) :
    vm.userView va = if InWindow kUserPml4Index va then vm.slotView va else none := by
  by_cases hw : InWindow kUserPml4Index va
  · rw [if_pos hw]
    refine userView_eq h.space h.opened (hw.pageIndex (by decide)) ?_
    unfold InWindow at hw
    simp only [isCanonical, kUserPml4Index, Bool.or_eq_true, decide_eq_true_iff] at *
    omega
  · rw [if_neg hw, VirtualMemory.userView]
    by_cases hc : isCanonical va = true
    · have hclosed : userVisible (vm.pml4e va) = false :=
        h.closed _ (pageIndex_lt va 39) (pageIndex_of_not_inWindow hc hw)
      simp [hclosed]
    · simp [hc]

theorem machine_space {slot : Nat} (h : UserSpace slot vm) (hinit : vm.initialized = true) :
    vm.machine.space vm.root = vm := by
  have hroot := h.tree.owned [] _ ⟨by simp, by simp⟩ (by simp) (tables_root hinit)
  have hne : vm.root ≠ ~~~0#64 := by
    intro heq
    have hlt := (hroot.bounds h.tree.tracked.bounded).2
    rw [heq] at hlt
    exact absurd hlt (by decide)
  obtain ⟨mem, frames, initialized, root⟩ := vm
  dsimp only at hinit hne
  simp only [Machine.space, machine, Machine.newSpace, attach, hinit, hne, ne_eq, not_false_eq_true,
    decide_true]

/-- After a successful load user code finds the program's memory, at every address. -/
theorem loaded_view {machine : Machine} {kernelRootCr3 : BitVec 64} {outcome : LoadOutcome}
    {e : UserEntry} (hsize : image.length < 2 ^ 64) (hframes : machine.frames.Tracked)
    (hready : machine.frames.initialized = true) (hkernel : KernelRoot machine kernelRootCr3)
    (h : loadUserElf machine kernelRootCr3 image = .ok outcome) (he : outcome.loaded = some e) :
    Accepted image outcome.segments ∧
      outcome.segments.map Prod.fst = (loadHeaders image).filter (·.memsz ≠ 0#64) ∧
      ProgramSpace (outcome.machine.space e.cr3) ∧
      ∀ va, (outcome.machine.space e.cr3).userView va =
        programMemory image outcome.segments va := by
  cases loadUserElf_cases h with
  | rejected | noRoot | stopped | noStack => cases he
  | loaded header vm vm' l hheader hvalid hclone hsegments hstack =>
    have h0 : Loaded image { vm } := cloneKernelMappings_loaded hframes hready hkernel hclone
    obtain ⟨r, hr, hloaded⟩ := loadSegments_loaded hsize header header.phnum.toNat 0 h0
    obtain rfl := Except.ok.inj (hr.symm.trans hsegments)
    have hl := hloaded rfl
    obtain ⟨hprogram', hview⟩ := loadStack_view hl.program hstack
    cases he
    have hheaders := loadSegments_headers hsize hsegments
    obtain ⟨r, hr, hdecode⟩ := headerFromImage_ok hsize
    obtain rfl := Except.ok.inj (hr.symm.trans hheader)
    obtain rfl := hdecode header rfl
    dsimp only
    rw [machine_space hprogram'.space hprogram'.init]
    refine ⟨hl.accepted, hheaders, hprogram', fun va => ?_⟩
    rw [hprogram'.userView]
    split
    next hw =>
      rw [hview va hw, programMemory]
      unfold UserMemory.mapZero
      rw [hl.view va hw]
    next hw => rw [programMemory_outside hsize hl.accepted hw]

end UserProgram
end Os1
