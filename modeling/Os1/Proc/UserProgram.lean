import Os1.Mm.UserCopy
import Os1.Proc.UserElf

/-! The loader of user programs: a new address space, its segments and its stack. -/
namespace Os1

/-- Physical memory and the frame allocator. -/
structure Machine where
  mem : Memory
  frames : PageFrameContainer

namespace Machine

/-- `VirtualMemory vm(frames)` -/
def newSpace (machine : Machine) : VirtualMemory := { mem := machine.mem, frames := machine.frames }

/-- `VirtualMemory vm(frames, cr3)` -/
def space (machine : Machine) (cr3 : BitVec 64) : VirtualMemory := machine.newSpace.attach cr3

end Machine

def VirtualMemory.machine (vm : VirtualMemory) : Machine := { mem := vm.mem, frames := vm.frames }

namespace UserProgram

open Elf UserElf

def destroyUserAddressSpace (machine : Machine) (cr3 : BitVec 64) : Bool × Machine :=
  if cr3 = 0#64 then (false, machine)
  else
    let vm := ((machine.space cr3).destroyUserSlot kUserPml4Index).2
    let (freed, frames) := vm.frames.free cr3.toNat
    (freed, { mem := vm.mem, frames := frames })

/-- What a successful load reports. -/
structure UserEntry where
  cr3 : BitVec 64
  entry : BitVec 64
  userRsp : BitVec 64
  deriving DecidableEq, Repr

/-- The address space under construction, with the segments that were handed to
`allocate_and_map` so far. -/
structure Loading where
  vm : VirtualMemory
  segments : List (Elf64ProgramHeader × LoadSegmentPlan) := []

/-- The part of the loop for a header that is not skipped. -/
def loadSegment (image : Image) (program : Elf64ProgramHeader) (l : Loading) :
    Except ReadFault (Bool × Loading) :=
  match planLoadSegment program (imageSize image) with
  | none => .ok (false, l)
  | some segment =>
    let segments := l.segments ++ [(program, segment)]
    match l.vm.allocateAndMap segment.segmentStart segment.numPages segment.pageFlags with
    | (none, vm) => .ok (false, { vm, segments })
    | (some _, vm) =>
      (readImage image program.offset.toNat program.filesz.toNat).map fun source =>
        let (copied, vm) := vm.copyIntoAddressSpace program.vaddr source program.filesz
        (copied, { vm, segments })

/-- The loop from header `i` on. -/
def loadSegments (header : Elf64Header) (image : Image) :
    (remaining i : Nat) → Loading → Except ReadFault (Bool × Loading)
  | 0, _, l => .ok (true, l)
  | remaining + 1, i, l =>
    (programHeaderFromImage header image (BitVec.ofNat 16 i)).bind fun
      | none => .ok (false, l)
      | some program =>
        if isSkipped program then loadSegments header image remaining (i + 1) l
        else
          (loadSegment image program l).bind fun
            | (false, l) => .ok (false, l)
            | (true, l) => loadSegments header image remaining (i + 1) l

def stackFlags : PageFlags := { present := true, write := true, user := true, noExecute := true }

/-- The stack pages, and whether the top of the stack translates. -/
def loadStack (vm : VirtualMemory) : Bool × VirtualMemory :=
  match vm.allocateAndMap (BitVec.ofNat 64 stackBase) (BitVec.ofNat 64 kUserStackPages)
      stackFlags with
  | (none, vm) => (false, vm)
  | (some _, vm) => ((vm.translate (BitVec.ofNat 64 (kUserStackTop - 8))).isSome, vm)

/-- The result of a load, the machine it leaves, and the segments it mapped. -/
structure LoadOutcome where
  loaded : Option UserEntry
  machine : Machine
  segments : List (Elf64ProgramHeader × LoadSegmentPlan) := []

/-- Every failure after the new root exists destroys the address space. -/
def abandon (l : Loading) : LoadOutcome where
  loaded := none
  machine := (destroyUserAddressSpace l.vm.machine l.vm.root).2
  segments := l.segments

theorem abandon_loaded (l : Loading) : (abandon l).loaded = none := rfl

def finishLoad (header : Elf64Header) (l : Loading) : LoadOutcome :=
  match loadStack l.vm with
  | (false, vm) => abandon { l with vm }
  | (true, vm) =>
    { loaded := some
        { cr3 := vm.root, entry := header.entry, userRsp := BitVec.ofNat 64 initialStackPointer }
      machine := vm.machine
      segments := l.segments }

def loadUserElf (machine : Machine) (kernelRootCr3 : BitVec 64) (image : Image) :
    Except ReadFault LoadOutcome :=
  (headerFromImage image).bind fun
    | none => .ok { loaded := none, machine }
    | some header =>
      (validateUserElfImage header image).bind fun valid =>
        if !valid then .ok { loaded := none, machine }
        else
          match machine.newSpace.cloneKernelMappings kernelRootCr3 with
          | (false, vm) => .ok { loaded := none, machine := vm.machine }
          | (true, vm) =>
            (loadSegments header image header.phnum.toNat 0 { vm }).map fun
              | (false, l) => abandon l
              | (true, l) => finishLoad header l

/-! ## The loop over the program headers -/

variable {image : Image} {header : Elf64Header} {program : Elf64ProgramHeader}
  {segment : LoadSegmentPlan} {l : Loading}

/-- The bytes a program header names in the image. -/
def fileBytes (image : Image) (program : Elf64ProgramHeader) (i : Nat) : BitVec 8 :=
  imageBytes image (program.offset.toNat + i)

/-- The effect of `load_segment` on the address space, for an accepted segment. -/
def mapSegment (image : Image) (s : Elf64ProgramHeader × LoadSegmentPlan) (vm : VirtualMemory) :
    Bool × VirtualMemory :=
  match vm.allocateAndMap s.2.segmentStart s.2.numPages s.2.pageFlags with
  | (none, vm) => (false, vm)
  | (some _, vm) => vm.copyIntoAddressSpace s.1.vaddr (fileBytes image s.1) s.1.filesz

theorem loadSegment_reject (h : planLoadSegment program (imageSize image) = none) :
    loadSegment image program l = .ok (false, l) := by
  rw [loadSegment, h]

/-- The file part of an accepted segment is read inside the image. -/
theorem loadSegment_eq (hsize : image.length < 2 ^ 64)
    (h : planLoadSegment program (imageSize image) = some segment) :
    loadSegment image program l =
      .ok ((mapSegment image (program, segment) l.vm).1,
        { vm := (mapSegment image (program, segment) l.vm).2
          segments := l.segments ++ [(program, segment)] }) := by
  have hfile := readImage_ok (segmentBounds hsize h).file
  rw [loadSegment, h, mapSegment]
  dsimp only
  generalize l.vm.allocateAndMap segment.segmentStart segment.numPages segment.pageFlags = r
  obtain ⟨_ | first, vm⟩ := r
  · rfl
  · rw [hfile]
    rfl

/-- What holds before the loop, and is kept by every segment that is mapped, holds after it; the
loop reads nothing outside the image. -/
theorem loadSegments_rule (hsize : image.length < 2 ^ 64) {I F : Loading → Prop}
    (hstop : ∀ l, I l → F l)
    (hmapped : ∀ s l vm, planLoadSegment s.1 (imageSize image) = some s.2 → I l →
      mapSegment image s l.vm = (true, vm) → I { vm, segments := l.segments ++ [s] })
    (hfailed : ∀ s l vm, planLoadSegment s.1 (imageSize image) = some s.2 → I l →
      mapSegment image s l.vm = (false, vm) → F { vm, segments := l.segments ++ [s] })
    (header : Elf64Header) (n i : Nat) (l : Loading) (h : I l) :
    ∃ r, loadSegments header image n i l = .ok r ∧ (r.1 = true → I r.2) ∧
      (r.1 = false → F r.2) := by
  induction n generalizing i l with
  | zero => exact ⟨(true, l), rfl, fun _ => h, (fun h => by cases h)⟩
  | succ n ih =>
    rw [loadSegments, programHeaderFromImage_eq hsize]
    cases hprogram : programHeader image header i with
    | none => exact ⟨(false, l), rfl, (fun h => by cases h), fun _ => hstop l h⟩
    | some program =>
      dsimp only [Except.bind]
      split
      · exact ih (i + 1) l h
      cases hplan : planLoadSegment program (imageSize image) with
      | none =>
        rw [loadSegment_reject hplan]
        exact ⟨(false, l), rfl, (fun h => by cases h), fun _ => hstop l h⟩
      | some segment =>
        rw [loadSegment_eq hsize hplan]
        rcases hmap : mapSegment image (program, segment) l.vm with ⟨_ | _, vm⟩
        · exact ⟨_, rfl, (fun h => by cases h),
            fun _ => hfailed (program, segment) l vm hplan h hmap⟩
        · exact ih (i + 1) _ (hmapped (program, segment) l vm hplan h hmap)

/-- The loadable headers from `i` on, in order. -/
def loadHeadersFrom (image : Image) (header : Elf64Header) (n i : Nat) : List Elf64ProgramHeader :=
  (List.range' i n).filterMap fun i =>
    (programHeader image header i).filter fun program => program.type = kProgramTypeLoad

/-- The loadable headers of an image. -/
def loadHeaders (image : Image) : List Elf64ProgramHeader :=
  let header := decodeHeader (imageBytes image)
  loadHeadersFrom image header header.phnum.toNat 0

/-- On success every loadable header with memory has become a segment. -/
theorem loadSegments_headers (hsize : image.length < 2 ^ 64) {n i : Nat} {l' : Loading}
    (h : loadSegments header image n i l = .ok (true, l')) :
    l'.segments.map Prod.fst = l.segments.map Prod.fst ++
      (loadHeadersFrom image header n i).filter (·.memsz ≠ 0#64) := by
  induction n generalizing i l with
  | zero =>
    obtain rfl := (Prod.mk.inj (Except.ok.inj h)).2
    exact (List.append_nil _).symm
  | succ n ih =>
    rw [loadSegments, programHeaderFromImage_eq hsize] at h
    rw [loadHeadersFrom, List.range'_succ, List.filterMap_cons]
    cases hprogram : programHeader image header i with
    | none =>
      rw [hprogram] at h
      cases congrArg Prod.fst (Except.ok.inj h)
    | some program =>
      rw [hprogram] at h
      dsimp only [Except.bind] at h
      by_cases hskip : isSkipped program = true
      · rw [if_pos hskip] at h
        rw [ih h]
        simp only [isSkipped, Bool.or_eq_true, decide_eq_true_iff] at hskip
        by_cases htype : program.type = kProgramTypeLoad
        · have hmemsz : program.memsz = 0#64 := hskip.resolve_left (not_not.mpr htype)
          simp [Option.filter, htype, hmemsz, loadHeadersFrom]
        · simp [Option.filter, htype, loadHeadersFrom]
      · rw [if_neg hskip] at h
        simp only [isSkipped, Bool.or_eq_true, decide_eq_true_iff, not_or, not_not] at hskip
        cases hplan : planLoadSegment program (imageSize image) with
        | none =>
          rw [loadSegment_reject hplan] at h
          cases congrArg Prod.fst (Except.ok.inj h)
        | some segment =>
          rw [loadSegment_eq hsize hplan] at h
          rcases hmap : mapSegment image (program, segment) l.vm with ⟨_ | _, vm⟩
          · rw [hmap] at h
            cases congrArg Prod.fst (Except.ok.inj h)
          · rw [hmap] at h
            rw [ih h]
            simp [Option.filter, hskip.1, hskip.2, loadHeadersFrom]

/-- How a load can end. -/
inductive LoadCases (machine : Machine) (kernelRootCr3 : BitVec 64) (image : Image) :
    LoadOutcome → Prop
  | rejected : LoadCases machine kernelRootCr3 image { loaded := none, machine }
  | noRoot (vm : VirtualMemory)
    (hclone : machine.newSpace.cloneKernelMappings kernelRootCr3 = (false, vm)) :
    LoadCases machine kernelRootCr3 image { loaded := none, machine := vm.machine }
  | stopped (header : Elf64Header) (vm : VirtualMemory) (l : Loading)
    (hclone : machine.newSpace.cloneKernelMappings kernelRootCr3 = (true, vm))
    (hsegments : loadSegments header image header.phnum.toNat 0 { vm } = .ok (false, l)) :
    LoadCases machine kernelRootCr3 image (abandon l)
  | noStack (header : Elf64Header) (vm vm' : VirtualMemory) (l : Loading)
    (hclone : machine.newSpace.cloneKernelMappings kernelRootCr3 = (true, vm))
    (hsegments : loadSegments header image header.phnum.toNat 0 { vm } = .ok (true, l))
    (hstack : loadStack l.vm = (false, vm')) :
    LoadCases machine kernelRootCr3 image (abandon { l with vm := vm' })
  | loaded (header : Elf64Header) (vm vm' : VirtualMemory) (l : Loading)
    (hheader : headerFromImage image = .ok (some header))
    (hvalid : validateUserElfImage header image = .ok true)
    (hclone : machine.newSpace.cloneKernelMappings kernelRootCr3 = (true, vm))
    (hsegments : loadSegments header image header.phnum.toNat 0 { vm } = .ok (true, l))
    (hstack : loadStack l.vm = (true, vm')) :
    LoadCases machine kernelRootCr3 image
      { loaded := some { cr3 := vm'.root, entry := header.entry
                         userRsp := BitVec.ofNat 64 initialStackPointer }
        machine := vm'.machine
        segments := l.segments }

theorem bind_eq_ok {ε α β : Type} {x : Except ε α} {f : α → Except ε β} {b : β}
    (h : x.bind f = .ok b) : ∃ a, x = .ok a ∧ f a = .ok b := by
  cases x with
  | error e => cases h
  | ok a => exact ⟨a, rfl, h⟩

theorem map_eq_ok {ε α β : Type} {x : Except ε α} {f : α → β} {b : β}
    (h : x.map f = .ok b) : ∃ a, x = .ok a ∧ f a = b := by
  cases x with
  | error e => cases h
  | ok a => exact ⟨a, rfl, Except.ok.inj h⟩

theorem loadUserElf_cases {machine : Machine} {kernelRootCr3 : BitVec 64} {outcome : LoadOutcome}
    (h : loadUserElf machine kernelRootCr3 image = .ok outcome) :
    LoadCases machine kernelRootCr3 image outcome := by
  obtain ⟨r, hheader, h⟩ := bind_eq_ok h
  cases r with
  | none => exact Except.ok.inj h ▸ .rejected
  | some header =>
    obtain ⟨valid, hvalid, h⟩ := bind_eq_ok h
    cases valid with
    | false => exact Except.ok.inj h ▸ .rejected
    | true =>
      rw [if_neg (by decide)] at h
      rcases hclone : machine.newSpace.cloneKernelMappings kernelRootCr3 with ⟨_ | _, vm⟩
      · rw [hclone] at h
        exact Except.ok.inj h ▸ .noRoot vm hclone
      · rw [hclone] at h
        obtain ⟨⟨ok, l⟩, hsegments, rfl⟩ := map_eq_ok h
        cases ok with
        | false => exact .stopped header vm l hclone hsegments
        | true =>
          dsimp only
          rw [finishLoad]
          rcases hstack : loadStack l.vm with ⟨_ | _, vm'⟩
          · exact .noStack header vm vm' l hclone hsegments hstack
          · exact .loaded header vm vm' l hheader hvalid hclone hsegments hstack

end UserProgram
end Os1
