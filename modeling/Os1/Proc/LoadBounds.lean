import Os1.Proc.UserProgram

/-! Parsing and loading stay inside the image and inside the user part of the address space. -/
namespace Os1.UserProgram

open Elf UserElf

variable {image : Image} {header : Elf64Header}

/-- The entry point is inside the memory range of a loadable segment. -/
def EntryInSegment (image : Image) (header : Elf64Header) : Prop :=
  ∃ i program, i < header.phnum.toNat ∧ programHeader image header i = some program ∧
    program.type = kProgramTypeLoad ∧ program.vaddr.toNat ≤ header.entry.toNat ∧
    header.entry.toNat < program.vaddr.toNat + program.memsz.toNat

theorem entryPointTurn_true {program : Elf64ProgramHeader} (hsize : image.length < 2 ^ 64)
    (h : entryPointTurn header (imageSize image) program = some true) :
    program.type = kProgramTypeLoad ∧ program.vaddr.toNat ≤ header.entry.toNat ∧
      header.entry.toNat < program.vaddr.toNat + program.memsz.toNat := by
  unfold entryPointTurn at h
  split at h
  · cases h
  · split at h
    next segment rawSegmentEnd hplan hraw =>
      split at h
      next hentry =>
        rw [← toNat_checkedAdd hraw]
        exact ⟨(segmentBounds hsize hplan).load, hentry⟩
      · cases h
    · cases h

theorem entryPointFrom_ok (hsize : image.length < 2 ^ 64) (n i : Nat)
    (hn : i + n = header.phnum.toNat) :
    ∃ valid, entryPointFrom header image n i = .ok valid ∧
      (valid = true → EntryInSegment image header) := by
  induction n generalizing i with
  | zero => exact ⟨false, rfl, (fun h => by cases h)⟩
  | succ n ih =>
    rw [entryPointFrom, programHeaderFromImage_eq hsize]
    cases hprogram : programHeader image header i with
    | none => exact ⟨false, rfl, (fun h => by cases h)⟩
    | some program =>
      dsimp only [Except.bind]
      cases hturn : entryPointTurn header (imageSize image) program with
      | none => exact ih (i + 1) (by omega)
      | some result =>
        refine ⟨result, rfl, fun hr => ?_⟩
        rw [hr] at hturn
        exact ⟨i, program, by omega, hprogram, entryPointTurn_true hsize hturn⟩

theorem validateUserElfImage_ok (hsize : image.length < 2 ^ 64) (header : Elf64Header) :
    ∃ valid, validateUserElfImage header image = .ok valid ∧
      (valid = true → EntryInSegment image header) := by
  unfold validateUserElfImage
  split
  · exact entryPointFrom_ok hsize _ 0 (Nat.zero_add _)
  · exact ⟨false, rfl, (fun h => by cases h)⟩

/-- Every mapped segment was accepted. -/
def Accepted (image : Image) (segments : List (Elf64ProgramHeader × LoadSegmentPlan)) : Prop :=
  ∀ s ∈ segments, planLoadSegment s.1 (imageSize image) = some s.2

theorem Accepted.append {segments : List (Elf64ProgramHeader × LoadSegmentPlan)}
    (h : Accepted image segments) {s : Elf64ProgramHeader × LoadSegmentPlan}
    (hs : planLoadSegment s.1 (imageSize image) = some s.2) : Accepted image (segments ++ [s]) := by
  intro s' hs'
  rcases List.mem_append.mp hs' with hs' | hs'
  · exact h s' hs'
  · rwa [List.mem_singleton.mp hs']

theorem loadSegments_accepted (hsize : image.length < 2 ^ 64) (header : Elf64Header) (n i : Nat)
    (vm : VirtualMemory) :
    ∃ r, loadSegments header image n i { vm } = .ok r ∧ Accepted image r.2.segments := by
  obtain ⟨r, hr, hmapped, hfailed⟩ := loadSegments_rule hsize
    (I := fun l => Accepted image l.segments) (F := fun l => Accepted image l.segments)
    (fun _ h => h) (fun _ _ _ hs h _ => h.append hs) (fun _ _ _ hs h _ => h.append hs)
    header n i { vm } (fun _ h => by cases h)
  refine ⟨r, hr, ?_⟩
  cases hok : r.1 with
  | true => exact hmapped hok
  | false => exact hfailed hok

theorem finishLoad_segments (header : Elf64Header) (l : Loading) :
    (finishLoad header l).segments = l.segments := by
  unfold finishLoad
  split <;> rfl

theorem finishLoad_entry (header : Elf64Header) (l : Loading) :
    ∀ e ∈ (finishLoad header l).loaded, e.entry = header.entry := by
  intro e he
  unfold finishLoad at he
  split at he
  · cases he
  · rw [← Option.some.inj he]

/-- `load_user_elf` once the image is accepted. -/
def loadAccepted (header : Elf64Header) (image : Image) (machine : Machine)
    (kernelRootCr3 : BitVec 64) : Except ReadFault LoadOutcome :=
  match machine.newSpace.cloneKernelMappings kernelRootCr3 with
  | (false, vm) => .ok { loaded := none, machine := vm.machine }
  | (true, vm) =>
    (loadSegments header image header.phnum.toNat 0 { vm }).map fun
      | (false, l) => abandon l
      | (true, l) => finishLoad header l

/-- The header of an image that passes validation. -/
def acceptedHeader (image : Image) : Option Elf64Header :=
  match headerFromImage image with
  | .ok (some header) => if validateUserElfImage header image = .ok true then some header else none
  | _ => none

/-- An image is either rejected on every machine or accepted on every machine. -/
theorem loadUserElf_split (hsize : image.length < 2 ^ 64) :
    (acceptedHeader image = none ∧ ∀ machine kernelRootCr3,
      loadUserElf machine kernelRootCr3 image = .ok { loaded := none, machine }) ∨
    ∃ header, acceptedHeader image = some header ∧ headerFromImage image = .ok (some header) ∧
      EntryInSegment image header ∧ ∀ machine kernelRootCr3,
        loadUserElf machine kernelRootCr3 image =
          loadAccepted header image machine kernelRootCr3 := by
  obtain ⟨r, hheader, -⟩ := headerFromImage_ok hsize
  rw [acceptedHeader, hheader]
  cases r with
  | none =>
    refine .inl ⟨rfl, fun machine kernelRootCr3 => ?_⟩
    rw [loadUserElf, hheader]
    rfl
  | some header =>
    obtain ⟨valid, hvalid, hentry⟩ := validateUserElfImage_ok hsize header
    dsimp only
    rw [hvalid]
    cases valid with
    | false =>
      refine .inl ⟨if_neg (fun h => by cases h), fun machine kernelRootCr3 => ?_⟩
      rw [loadUserElf, hheader]
      dsimp only [Except.bind]
      rw [hvalid]
      rfl
    | true =>
      refine .inr ⟨header, if_pos rfl, rfl, hentry rfl, fun machine kernelRootCr3 => ?_⟩
      rw [loadUserElf, hheader]
      dsimp only [Except.bind]
      rw [hvalid]
      rfl

/-- For every image the loader reads only inside the image, maps segments only between the user
base and the stack guard, and starts the program inside one of its segments. -/
theorem load_in_bounds (machine : Machine) (kernelRootCr3 : BitVec 64) (image : Image)
    (hsize : image.length < 2 ^ 64) :
    ∃ outcome, loadUserElf machine kernelRootCr3 image = .ok outcome ∧
      (∀ s ∈ outcome.segments, SegmentBounds image s.1 s.2 ∧
        ∀ i < s.2.numPages.toNat, UserPage (pageAt s.2.segmentStart i)) ∧
      ∀ e ∈ outcome.loaded, ∃ header, headerFromImage image = .ok (some header) ∧
        e.entry = header.entry ∧ EntryInSegment image header := by
  have hbounds : ∀ {segments}, Accepted image segments → ∀ s ∈ segments,
      SegmentBounds image s.1 s.2 ∧
        ∀ i < s.2.numPages.toNat, UserPage (pageAt s.2.segmentStart i) := by
    intro segments h s hs
    have b := segmentBounds hsize (h s hs)
    exact ⟨b, fun i hi => b.userPage hi⟩
  rcases loadUserElf_split hsize with ⟨-, hnone⟩ | ⟨header, -, hheader, hentry, hsome⟩
  · exact ⟨_, hnone machine kernelRootCr3, (fun _ h => by cases h), (fun _ h => by cases h)⟩
  rw [hsome machine kernelRootCr3, loadAccepted]
  rcases machine.newSpace.cloneKernelMappings kernelRootCr3 with ⟨_ | _, vm⟩
  · exact ⟨_, rfl, (fun _ h => by cases h), (fun _ h => by cases h)⟩
  obtain ⟨⟨ok, l⟩, hr, hsegments⟩ := loadSegments_accepted hsize header header.phnum.toNat 0 vm
  dsimp only
  rw [hr]
  cases ok with
  | false => exact ⟨_, rfl, hbounds hsegments, (fun _ h => by cases h)⟩
  | true =>
    refine ⟨_, rfl, ?_, fun e he => ⟨header, hheader, finishLoad_entry header l e he, hentry⟩⟩
    dsimp only
    rw [finishLoad_segments]
    exact hbounds hsegments

/-- A container with thirty-two free pages at 2 MiB. -/
def roomyFrames : PageFrameContainer :=
  (((⟨0, 0, 0, 0, fun _ => 0#64, 0, 0, 0, false⟩ : PageFrameContainer).initializeFrames
    [⟨0x200000, 0x20000, .usable⟩] 0x300000 64).map (·.2)).getD
      ⟨0, 0, 0, 0, fun _ => 0#64, 0, 0, 0, false⟩

theorem roomyFrames_init :
    (⟨0, 0, 0, 0, fun _ => 0#64, 0, 0, 0, false⟩ : PageFrameContainer).initializeFrames
      [⟨0x200000, 0x20000, .usable⟩] 0x300000 64 = some (true, roomyFrames) := rfl

theorem roomyFrames_tracked : roomyFrames.Tracked :=
  (PageFrameContainer.initializeFrames_spec (by simp) roomyFrames_init).1

/-- Cleared memory, with the kernel's root in the reserved page at 4 KiB. -/
def roomyMachine : Machine := { mem := fun _ => 0#8, frames := roomyFrames }

/-- A read-only executable segment of four bytes at the user base. -/
def smallProgram : Elf64ProgramHeader where
  type := kProgramTypeLoad
  flags := 5#32
  offset := 120#64
  vaddr := BitVec.ofNat 64 kUserSpaceBase
  filesz := 4#64
  memsz := 4#64

def smallImage : Image :=
  encodeImage (BitVec.ofNat 64 kUserSpaceBase) [smallProgram] [0x90#8, 0x90#8, 0xEB#8, 0xFC#8]

theorem load_in_bounds_smallImage : smallImage.length < 2 ^ 64 ∧
    ∃ outcome, loadUserElf roomyMachine 0x1000#64 smallImage = .ok outcome ∧
      (∀ s ∈ outcome.segments, SegmentBounds smallImage s.1 s.2 ∧
        ∀ i < s.2.numPages.toNat, UserPage (pageAt s.2.segmentStart i)) ∧
      ∀ e ∈ outcome.loaded, ∃ header, headerFromImage smallImage = .ok (some header) ∧
        e.entry = header.entry ∧ EntryInSegment smallImage header :=
  have h : smallImage.length < 2 ^ 64 := by decide +kernel
  ⟨h, load_in_bounds _ _ _ h⟩

end Os1.UserProgram
