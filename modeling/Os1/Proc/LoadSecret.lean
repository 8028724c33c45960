import Os1.Mm.FreeContents
import Os1.Proc.LoadExact

/-! A loaded program learns nothing about what free frames held before. -/
namespace Os1.UserProgram

open Elf UserElf VirtualMemory

/-- Machines that differ in the contents of free frames only. -/
structure DifferInFree (machine machine' : Machine) : Prop where
  frames : machine'.frames = machine.frames
  mem : AgreeBusy machine.frames machine.mem machine'.mem

variable {vm vm' : VirtualMemory} {image : Image} {s : Segment} {l l' : Loading}
  {machine machine' : Machine} {kernelRootCr3 : BitVec 64}

theorem mapSegment_sameBusy (h : SameBusy vm vm') (hp : ProgramSpace vm)
    (b : SegmentBounds image s.1 s.2) :
    (mapSegment image s vm').1 = (mapSegment image s vm).1 ∧
      SameBusy (mapSegment image s vm).2 (mapSegment image s vm').2 := by
  unfold mapSegment
  obtain ⟨hr, h1⟩ := h.allocateAndMap hp.space (fun i hi => (b.userPage hi).slot) s.2.pageFlags
  rcases e1 : vm.allocateAndMap s.2.segmentStart s.2.numPages s.2.pageFlags with ⟨r1, vm1⟩
  rcases e1' : vm'.allocateAndMap s.2.segmentStart s.2.numPages s.2.pageFlags with ⟨r1', vm1'⟩
  rw [e1, e1'] at hr h1
  obtain rfl : r1' = r1 := hr
  replace h1 : SameBusy vm1 vm1' := h1
  obtain ⟨k, -, hm, hk⟩ := segment_mapsPages b hp.space e1
  cases r1' with
  | none => exact ⟨rfl, h1⟩
  | some first =>
    obtain rfl := hk.mp rfl
    have hslot : ∀ i < s.1.filesz.toNat, pageIndex (byteAt s.1.vaddr i) 39 = kUserPml4Index :=
      fun i hi => (segment_fileByte_inWindow b hi).pageIndex (by decide)
    have hcopy' : vm1'.copyIntoAddressSpace s.1.vaddr (fileBytes image s.1) s.1.filesz =
        (true, { vm1' with mem := copiedSegment image s vm1' }) := by
      refine copyIntoAddressSpace_spec (h1.userSpace hm.space) (by decide)
        (fun i hi => segment_fileByte_inWindow b hi) fun i hi => ?_
      rw [leafOf_congr (hslot i hi) (h1.tables hm.space.tree).2]
      exact segment_fileByte_mapped b hm hi
    dsimp only
    rw [(segment_copied b hm).2.1, hcopy']
    exact ⟨rfl, h1.writeRange hm.space hslot⟩

/-- Both loads are at the same point. -/
structure InStep (image : Image) (l l' : Loading) : Prop where
  loaded : Loaded image l
  same : SameBusy l.vm l'.vm
  segments : l'.segments = l.segments

theorem loadSegments_inStep (hsize : image.length < 2 ^ 64) (header : Elf64Header) (n i : Nat)
    (h : InStep image l l') :
    ∃ r r', loadSegments header image n i l = .ok r ∧ loadSegments header image n i l' = .ok r' ∧
      r'.1 = r.1 ∧ (r.1 = true → InStep image r.2 r'.2) := by
  induction n generalizing i l l' with
  | zero => exact ⟨(true, l), (true, l'), rfl, rfl, rfl, fun _ => h⟩
  | succ n ih =>
    rw [loadSegments, loadSegments, programHeaderFromImage_eq hsize]
    cases programHeader image header i with
    | none => exact ⟨_, _, rfl, rfl, rfl, (fun h => by cases h)⟩
    | some program =>
      dsimp only [Except.bind]
      split
      · exact ih (i + 1) h
      cases hplan : planLoadSegment program (imageSize image) with
      | none =>
        rw [loadSegment_reject hplan, loadSegment_reject hplan]
        exact ⟨_, _, rfl, rfl, rfl, (fun h => by cases h)⟩
      | some segment =>
        rw [loadSegment_eq hsize hplan, loadSegment_eq hsize hplan]
        obtain ⟨hr, h1⟩ := mapSegment_sameBusy (s := (program, segment)) h.same h.loaded.program
          (segmentBounds hsize hplan)
        rcases e1 : mapSegment image (program, segment) l.vm with ⟨ok, vm1⟩
        rcases e1' : mapSegment image (program, segment) l'.vm with ⟨ok', vm1'⟩
        rw [e1, e1'] at hr h1
        obtain rfl : ok' = ok := hr
        cases ok' with
        | false => exact ⟨_, _, rfl, rfl, rfl, (fun h => by cases h)⟩
        | true =>
          refine ih (i + 1) ⟨mapSegment_loaded hsize hplan h.loaded e1, h1, ?_⟩
          rw [h.segments]

theorem loadStack_sameBusy (h : SameBusy vm vm') (hp : ProgramSpace vm) :
    (loadStack vm').1 = (loadStack vm).1 ∧ SameBusy (loadStack vm).2 (loadStack vm').2 := by
  unfold loadStack
  have hslot : ∀ i < (BitVec.ofNat 64 kUserStackPages).toNat,
      pageIndex (pageAt (BitVec.ofNat 64 stackBase) i) 39 = kUserPml4Index := by decide
  obtain ⟨hr, h1⟩ := h.allocateAndMap hp.space hslot stackFlags
  rcases e1 : vm.allocateAndMap (BitVec.ofNat 64 stackBase) (BitVec.ofNat 64 kUserStackPages)
    stackFlags with ⟨r1, vm1⟩
  rcases e1' : vm'.allocateAndMap (BitVec.ofNat 64 stackBase) (BitVec.ofNat 64 kUserStackPages)
    stackFlags with ⟨r1', vm1'⟩
  rw [e1, e1'] at hr h1
  obtain rfl : r1' = r1 := hr
  replace h1 : SameBusy vm1 vm1' := h1
  obtain ⟨k, -, hm, -⟩ := stack_mapsPages hp e1
  cases r1' with
  | none => exact ⟨rfl, h1⟩
  | some first =>
    dsimp only
    rw [h1.translate hm.space (by decide)]
    exact ⟨rfl, h1⟩

theorem DifferInFree.kernelRoot (h : DifferInFree machine machine')
    (hk : KernelRoot machine kernelRootCr3) : KernelRoot machine' kernelRootCr3 := by
  refine ⟨h.frames ▸ hk.busy, ?_, ?_⟩
  · rw [h.mem.load64 hk.busy (by decide)]
    exact hk.kernel
  · rw [h.mem.load64 hk.busy (by decide)]
    exact hk.directMap

theorem DifferInFree.newSpace (h : DifferInFree machine machine') :
    SameBusy machine.newSpace machine'.newSpace :=
  ⟨h.frames, rfl, rfl, h.mem⟩

theorem finishLoad_inStep (h : InStep image l l') (header : Elf64Header) :
    (finishLoad header l').loaded = (finishLoad header l).loaded := by
  obtain ⟨hr, h1⟩ := loadStack_sameBusy h.same h.loaded.program
  unfold finishLoad
  rcases e : loadStack l.vm with ⟨ok, vm⟩
  rcases e' : loadStack l'.vm with ⟨ok', vm'⟩
  rw [e, e'] at hr h1
  obtain rfl : ok' = ok := hr
  cases ok' with
  | false => exact (abandon_loaded _).trans (abandon_loaded _).symm
  | true => exact congrArg (fun cr3 => some (UserEntry.mk cr3 _ _)) h1.root

/-- After validation both loads run the same steps. -/
theorem loadAccepted_loaded_eq (hsize : image.length < 2 ^ 64)
    (hframes : machine.frames.Tracked) (hready : machine.frames.initialized = true)
    (hkernel : KernelRoot machine kernelRootCr3) (h : DifferInFree machine machine')
    (header : Elf64Header) :
    ∃ outcome outcome', loadAccepted header image machine kernelRootCr3 = .ok outcome ∧
      loadAccepted header image machine' kernelRootCr3 = .ok outcome' ∧
      outcome'.loaded = outcome.loaded := by
  have hfresh : UserSpace kUserPml4Index machine.newSpace := userSpace_fresh rfl hframes hready
  obtain ⟨hr, h1⟩ := h.newSpace.cloneKernelMappings hfresh.tree hkernel.busy
  unfold loadAccepted
  rcases e : machine.newSpace.cloneKernelMappings kernelRootCr3 with ⟨ok, vm⟩
  rcases e' : machine'.newSpace.cloneKernelMappings kernelRootCr3 with ⟨ok', vm'⟩
  rw [e, e'] at hr h1
  obtain rfl : ok' = ok := hr
  cases ok' with
  | false => exact ⟨_, _, rfl, rfl, rfl⟩
  | true =>
    have h0 : InStep image { vm } { vm := vm' } :=
      ⟨cloneKernelMappings_loaded hframes hready hkernel e, h1, rfl⟩
    obtain ⟨⟨ok, l⟩, ⟨ok', l'⟩, hl, hl', hok, hstep⟩ :=
      loadSegments_inStep hsize header header.phnum.toNat 0 h0
    obtain rfl : ok' = ok := hok
    dsimp only
    rw [hl, hl']
    cases ok' with
    | false => exact ⟨_, _, rfl, rfl, (abandon_loaded l').trans (abandon_loaded l).symm⟩
    | true => exact ⟨_, _, rfl, rfl, finishLoad_inStep (hstep rfl) header⟩

/-- The result of a load does not depend on what free frames hold. -/
theorem loadUserElf_loaded_eq (hsize : image.length < 2 ^ 64)
    (hframes : machine.frames.Tracked) (hready : machine.frames.initialized = true)
    (hkernel : KernelRoot machine kernelRootCr3) (h : DifferInFree machine machine') :
    ∃ outcome outcome', loadUserElf machine kernelRootCr3 image = .ok outcome ∧
      loadUserElf machine' kernelRootCr3 image = .ok outcome' ∧
      outcome'.loaded = outcome.loaded := by
  rcases loadUserElf_split hsize with ⟨-, hnone⟩ | ⟨header, -, -, -, hsome⟩
  · exact ⟨_, _, hnone machine kernelRootCr3, hnone machine' kernelRootCr3, rfl⟩
  · rw [hsome machine kernelRootCr3, hsome machine' kernelRootCr3]
    exact loadAccepted_loaded_eq hsize hframes hready hkernel h header

/-- From machines that differ in free frames only, loading an image gives the same result, and the
same rights and bytes at every address the program can reach. -/
theorem load_reveals_nothing (image : Image) (machine machine' : Machine)
    (kernelRootCr3 : BitVec 64) (hsize : image.length < 2 ^ 64)
    (hframes : machine.frames.Tracked) (hready : machine.frames.initialized = true)
    (hkernel : KernelRoot machine kernelRootCr3) (h : DifferInFree machine machine') :
    ∃ outcome outcome', loadUserElf machine kernelRootCr3 image = .ok outcome ∧
      loadUserElf machine' kernelRootCr3 image = .ok outcome' ∧
      outcome'.loaded = outcome.loaded ∧
      ∀ e ∈ outcome.loaded, ∀ va, (outcome'.machine.space e.cr3).userView va =
        (outcome.machine.space e.cr3).userView va := by
  obtain ⟨outcome, outcome', hload, hload', heq⟩ :=
    loadUserElf_loaded_eq hsize hframes hready hkernel h
  refine ⟨outcome, outcome', hload, hload', heq, fun e he va => ?_⟩
  have h1 := loadedImage hsize hframes hready hkernel hload he
  have h2 := loadedImage hsize (h.frames ▸ hframes) (h.frames ▸ hready) (h.kernelRoot hkernel)
    hload' (heq.trans he)
  rw [h1.view, h2.view]

/-- The free frames hold what an earlier user left. -/
def usedMachine : Machine :=
  { roomyMachine with
    mem := fun x => if 0x200000 ≤ x ∧ x < 0x220000 then 0x5A#8 else 0#8 }

theorem usedMachine_differ : DifferInFree roomyMachine usedMachine := by
  refine ⟨rfl, fun x hx => if_neg fun hin => ?_⟩
  have hfree : ∀ k < 32, roomyFrames.isFree (512 + k) = true := by decide +kernel
  have h1 := hfree (x / kPageSize - 512) (by unfold kPageSize; omega)
  have h2 : 512 + (x / kPageSize - 512) = x / kPageSize := by
    unfold kPageSize
    omega
  rw [h2] at h1
  exact Bool.false_ne_true (hx.symm.trans h1)

theorem load_reveals_nothing_smallImage : smallImage.length < 2 ^ 64 ∧
    DifferInFree roomyMachine usedMachine ∧
    ∃ outcome outcome', loadUserElf roomyMachine 0x1000#64 smallImage = .ok outcome ∧
      loadUserElf usedMachine 0x1000#64 smallImage = .ok outcome' ∧
      outcome'.loaded = outcome.loaded ∧
      ∀ e ∈ outcome.loaded, ∀ va, (outcome'.machine.space e.cr3).userView va =
        (outcome.machine.space e.cr3).userView va :=
  have hsize : smallImage.length < 2 ^ 64 := by decide +kernel
  ⟨hsize, usedMachine_differ, load_reveals_nothing _ _ _ _ hsize roomyFrames_tracked rfl
    roomyMachine_kernelRoot usedMachine_differ⟩

end Os1.UserProgram
