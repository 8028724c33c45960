import Os1.Elf.Elf64

/-! The boot shim's two passes over the kernel file: inspection and loading. -/
namespace Os1.Boot

open Elf

/-- A program header with the physical address that only the boot shim reads. -/
structure KernelProgramHeader extends Elf64ProgramHeader where
  paddr : BitVec 64
  deriving DecidableEq, Repr

def decodeKernelProgramHeader (m : Memory) (a : Nat) : KernelProgramHeader where
  toElf64ProgramHeader := decodeProgramHeader m a
  paddr := BitVec.ofNat 64 (m.load (a + 24) 8)

/-- `program_header_from_image` as the shim uses it. -/
def kernelProgramHeaderFromImage (header : Elf64Header) (image : Image) (index : BitVec 16) :
    Except ReadFault (Option KernelProgramHeader) :=
  match programHeaderOffset header (imageSize image) index with
  | none => .ok none
  | some offset =>
    (readImage image offset.toNat programHeaderBytes).map fun _ =>
      some (decodeKernelProgramHeader (imageBytes image) offset.toNat)

/-! ## Inspection -/

/-- The locals of `inspect_kernel_image`. -/
structure Inspection where
  kernelPhysicalStart : BitVec 64 := ~~~0#64
  kernelPhysicalEnd : BitVec 64 := 0#64
  entryMapped : Bool := false
  deriving DecidableEq, Repr

/-- What a loadable segment adds to the inspection. -/
def Inspection.add (inspection : Inspection) (entry : BitVec 64) (program : KernelProgramHeader) :
    Inspection where
  kernelPhysicalStart :=
    if program.paddr < inspection.kernelPhysicalStart then program.paddr
    else inspection.kernelPhysicalStart
  kernelPhysicalEnd :=
    if program.paddr + program.memsz > inspection.kernelPhysicalEnd then
      program.paddr + program.memsz
    else inspection.kernelPhysicalEnd
  entryMapped :=
    inspection.entryMapped ||
      (entry ≥ program.vaddr && entry < program.vaddr + program.memsz)

/-- The loop of `inspect_kernel_image`, with `remaining` program headers from `index` on. -/
def inspectFrom (header : Elf64Header) (image : Image) :
    (remaining index : Nat) → Inspection → Except ReadFault (Option Inspection)
  | 0, _, inspection => .ok (some inspection)
  | remaining + 1, index, inspection =>
    (kernelProgramHeaderFromImage header image (BitVec.ofNat 16 index)).bind fun
      | none => .ok none
      | some program =>
        if program.type ≠ kProgramTypeLoad then
          inspectFrom header image remaining (index + 1) inspection
        else if !loadableSegmentBoundsValid program.toElf64ProgramHeader (imageSize image) then
          .ok none
        else if program.vaddr ≠ program.paddr + BitVec.ofNat 64 kKernelVirtualOffset then .ok none
        else
          inspectFrom header image remaining (index + 1) (inspection.add header.entry program)

/-- What an accepted inspection reports. -/
structure KernelImage where
  entryPoint : BitVec 64
  kernelPhysicalStart : BitVec 64
  kernelPhysicalEnd : BitVec 64
  deriving DecidableEq, Repr

def inspectKernelImage (image : Image) : Except ReadFault (Option KernelImage) :=
  (headerFromImage image).bind fun
    | none => .ok none
    | some header =>
      (inspectFrom header image header.phnum.toNat 0 {}).map fun
        | none => none
        | some inspection =>
          if inspection.kernelPhysicalStart = ~~~0#64 ∨
              inspection.kernelPhysicalEnd ≤ inspection.kernelPhysicalStart then none
          else if header.entry ≥ BitVec.ofNat 64 kKernelVirtualOffset ∧ inspection.entryMapped then
            some ⟨header.entry, inspection.kernelPhysicalStart, inspection.kernelPhysicalEnd⟩
          else none

/-! ## Loading -/

/-- Physical memory, and the ranges written to it in order: start and number of bytes. Addresses
wrap as the shim's pointers do. -/
structure LoadState where
  mem : BitVec 64 → BitVec 8
  writes : List (BitVec 64 × BitVec 64) := []

def LoadState.zeroBytes (state : LoadState) (segment length : BitVec 64) : LoadState where
  mem x := if x - segment < length then 0#8 else state.mem x
  writes := state.writes ++ [(segment, length)]

def LoadState.copyBytes (state : LoadState) (segment length : BitVec 64)
    (source : Nat → BitVec 8) : LoadState where
  mem x := if x - segment < length then source (x - segment).toNat else state.mem x
  writes := state.writes ++ [(segment, length)]

/-- `map_physical` is null for the one address that the offset takes to zero. -/
def mapPhysical (hhdmOffset physicalAddress : BitVec 64) : Option (BitVec 64) :=
  if physicalAddress + hhdmOffset = 0#64 then none else some physicalAddress

/-- The loop of `load_kernel_segments`; physical memory holds what was written before a failure. -/
def loadFrom (hhdmOffset : BitVec 64) (header : Elf64Header) (image : Image) :
    (remaining index : Nat) → LoadState → Except ReadFault (Bool × LoadState)
  | 0, _, state => .ok (true, state)
  | remaining + 1, index, state =>
    (kernelProgramHeaderFromImage header image (BitVec.ofNat 16 index)).bind fun
      | none => .ok (false, state)
      | some program =>
        if program.type ≠ kProgramTypeLoad then
          loadFrom hhdmOffset header image remaining (index + 1) state
        else if !loadableSegmentBoundsValid program.toElf64ProgramHeader (imageSize image) then
          .ok (false, state)
        else
          match mapPhysical hhdmOffset program.paddr with
          | none => .ok (false, state)
          | some segment =>
            let state := state.zeroBytes segment program.memsz
            (readImage image program.offset.toNat program.filesz.toNat).bind fun source =>
              loadFrom hhdmOffset header image remaining (index + 1)
                (state.copyBytes segment program.filesz source)

def loadKernelSegments (hhdmOffset : BitVec 64) (image : Image) (mem : BitVec 64 → BitVec 8) :
    Except ReadFault (Bool × LoadState) :=
  (headerFromImage image).bind fun
    | none => .ok (false, { mem })
    | some header => loadFrom hhdmOffset header image header.phnum.toNat 0 { mem }

/-! ## The segments of a file -/

variable {image : Image} {header : Elf64Header} {hhdmOffset : BitVec 64}

def segmentAt (header : Elf64Header) (image : Image) (i : Nat) : Option KernelProgramHeader :=
  (programHeaderOffset header (imageSize image) (BitVec.ofNat 16 i)).map fun offset =>
    decodeKernelProgramHeader (imageBytes image) offset.toNat

theorem kernelProgramHeaderFromImage_ok (hsize : image.length < 2 ^ 64) (i : Nat) :
    kernelProgramHeaderFromImage header image (BitVec.ofNat 16 i) =
      .ok (segmentAt header image i) := by
  unfold kernelProgramHeaderFromImage segmentAt
  cases hoffset : programHeaderOffset header (imageSize image) (BitVec.ofNat 16 i) with
  | none => rfl
  | some offset =>
    have hle := programHeaderOffset_le hoffset
    rw [toNat_imageSize hsize] at hle
    simp only [readImage_ok hle, Option.map_some]
    rfl

/-- A loadable segment among the program headers from `i` up to `stop`. -/
def SegmentIn (header : Elf64Header) (image : Image) (i stop : Nat)
    (program : KernelProgramHeader) : Prop :=
  ∃ j, i ≤ j ∧ j < stop ∧ segmentAt header image j = some program ∧
    program.type = kProgramTypeLoad

theorem segmentIn_succ {i n : Nat} {program next : KernelProgramHeader}
    (hnext : segmentAt header image i = some next) :
    SegmentIn header image i (i + (n + 1)) program ↔
      (program = next ∧ next.type = kProgramTypeLoad) ∨
        SegmentIn header image (i + 1) (i + 1 + n) program := by
  constructor
  · rintro ⟨j, hij, hj, hat, hload⟩
    rcases Nat.eq_or_lt_of_le hij with rfl | hlt
    · obtain rfl := Option.some.inj (hnext.symm.trans hat)
      exact Or.inl ⟨rfl, hload⟩
    · exact Or.inr ⟨j, hlt, by omega, hat, hload⟩
  · rintro (⟨rfl, hload⟩ | ⟨j, hij, hj, hat, hload⟩)
    · exact ⟨i, Nat.le_refl _, by omega, hnext, hload⟩
    · exact ⟨j, by omega, by omega, hat, hload⟩

/-- What an inspection that goes through has found in the program headers it has passed. -/
structure Covers (header : Elf64Header) (image : Image) (i n : Nat) (before after : Inspection) :
    Prop where
  start_le : after.kernelPhysicalStart ≤ before.kernelPhysicalStart
  le_end : before.kernelPhysicalEnd ≤ after.kernelPhysicalEnd
  present (j : Nat) (hij : i ≤ j) (hj : j < i + n) :
    ∃ program, segmentAt header image j = some program
  valid (program : KernelProgramHeader) (h : SegmentIn header image i (i + n) program) :
    loadableSegmentBoundsValid program.toElf64ProgramHeader (imageSize image) = true ∧
      after.kernelPhysicalStart ≤ program.paddr ∧
      program.paddr + program.memsz ≤ after.kernelPhysicalEnd
  entry (h : after.entryMapped = true) : before.entryMapped = true ∨
    ∃ program, SegmentIn header image i (i + n) program ∧ program.vaddr ≤ header.entry ∧
      header.entry < program.vaddr + program.memsz

theorem Inspection.add_le (inspection : Inspection) (entry : BitVec 64)
    (program : KernelProgramHeader) :
    (inspection.add entry program).kernelPhysicalStart ≤ inspection.kernelPhysicalStart ∧
      (inspection.add entry program).kernelPhysicalStart ≤ program.paddr ∧
      inspection.kernelPhysicalEnd ≤ (inspection.add entry program).kernelPhysicalEnd ∧
      program.paddr + program.memsz ≤ (inspection.add entry program).kernelPhysicalEnd := by
  simp only [Inspection.add, gt_iff_lt, BitVec.lt_def, BitVec.le_def]
  refine ⟨?_, ?_, ?_, ?_⟩ <;> split <;> omega

theorem inspectFrom_covers (hsize : image.length < 2 ^ 64) {n i : Nat}
    {before after : Inspection} (h : inspectFrom header image n i before = .ok (some after)) :
    Covers header image i n before after := by
  induction n generalizing i before with
  | zero =>
    obtain rfl := Option.some.inj (Except.ok.inj h)
    refine ⟨BitVec.le_refl _, BitVec.le_refl _, fun j hij hj => by omega,
      fun program hin => ?_, fun hentry => Or.inl hentry⟩
    obtain ⟨j, hij, hj, -⟩ := hin
    omega
  | succ n ih =>
    rw [inspectFrom, kernelProgramHeaderFromImage_ok hsize] at h
    cases hnext : segmentAt header image i with
    | none =>
      rw [hnext] at h
      cases h
    | some next =>
      rw [hnext] at h
      simp only [Except.bind] at h
      have hpresent (hrest : ∀ j, i + 1 ≤ j → j < i + 1 + n →
          ∃ program, segmentAt header image j = some program) (j : Nat) (hij : i ≤ j)
          (hj : j < i + (n + 1)) : ∃ program, segmentAt header image j = some program := by
        rcases Nat.eq_or_lt_of_le hij with rfl | hlt
        · exact ⟨next, hnext⟩
        · exact hrest j hlt (by omega)
      split at h
      next hother =>
        have hrest := ih h
        refine ⟨hrest.start_le, hrest.le_end, hpresent hrest.present, fun program hin => ?_,
          fun hentry => (hrest.entry hentry).imp_right ?_⟩
        · obtain ⟨-, hload⟩ | hin := (segmentIn_succ hnext).mp hin
          · exact absurd hload hother
          · exact hrest.valid program hin
        · rintro ⟨program, hin, hle⟩
          exact ⟨program, (segmentIn_succ hnext).mpr (Or.inr hin), hle⟩
      next hload =>
        split at h
        · cases h
        next hvalid =>
          split at h
          · cases h
          next =>
            have hrest := ih h
            obtain ⟨hstart, hpaddr, hend, hsum⟩ := before.add_le header.entry next
            refine ⟨BitVec.le_trans hrest.start_le hstart, BitVec.le_trans hend hrest.le_end,
              hpresent hrest.present, fun program hin => ?_, fun hentry => ?_⟩
            · obtain ⟨rfl, -⟩ | hin := (segmentIn_succ hnext).mp hin
              · exact ⟨by simpa using hvalid, BitVec.le_trans hrest.start_le hpaddr,
                  BitVec.le_trans hsum hrest.le_end⟩
              · exact hrest.valid program hin
            · obtain hadded | ⟨program, hin, hle⟩ := hrest.entry hentry
              · simp only [Inspection.add, Bool.or_eq_true, Bool.and_eq_true,
                  decide_eq_true_iff] at hadded
                refine hadded.imp_right fun hle => ⟨next, ?_, hle⟩
                exact (segmentIn_succ hnext).mpr (Or.inl ⟨rfl, not_not.mp hload⟩)
              · exact Or.inr ⟨program, (segmentIn_succ hnext).mpr (Or.inr hin), hle⟩

/-! ## Loading what was inspected -/

/-- The bytes that a load has written. -/
def LoadState.Written (state : LoadState) (x : BitVec 64) : Prop :=
  ∃ w ∈ state.writes, x - w.1 < w.2

/-- How the load of valid program headers ends: it is accepted unless a segment's pointer is null,
and then exactly the segments are written. -/
structure Loads (hhdmOffset : BitVec 64) (header : Elf64Header) (image : Image) (i n : Nat)
    (before : LoadState) (accepted : Bool) (after : LoadState) : Prop where
  accepted_iff : accepted = true ↔
    ∀ program, SegmentIn header image i (i + n) program → program.paddr + hhdmOffset ≠ 0#64
  writes (h : accepted = true) (w : BitVec 64 × BitVec 64) : w ∈ after.writes ↔
    w ∈ before.writes ∨ ∃ program, SegmentIn header image i (i + n) program ∧
      (w = (program.paddr, program.memsz) ∨ w = (program.paddr, program.filesz))

theorem loadFrom_loads (hsize : image.length < 2 ^ 64) (hhdmOffset : BitVec 64) {n i : Nat}
    (hpresent : ∀ j, i ≤ j → j < i + n → ∃ program, segmentAt header image j = some program)
    (hvalid : ∀ program, SegmentIn header image i (i + n) program →
      loadableSegmentBoundsValid program.toElf64ProgramHeader (imageSize image) = true)
    (before : LoadState) :
    ∃ accepted after, loadFrom hhdmOffset header image n i before = .ok (accepted, after) ∧
      Loads hhdmOffset header image i n before accepted after := by
  induction n generalizing i before with
  | zero =>
    have hnone (program : KernelProgramHeader) : ¬ SegmentIn header image i (i + 0) program := by
      rintro ⟨j, hij, hj, -⟩
      omega
    refine ⟨true, before, rfl, iff_of_true rfl fun program hin => absurd hin (hnone program),
      fun _ w => ⟨Or.inl, ?_⟩⟩
    rintro (hw | ⟨program, hin, -⟩)
    · exact hw
    · exact absurd hin (hnone program)
  | succ n ih =>
    obtain ⟨next, hnext⟩ := hpresent i (Nat.le_refl _) (by omega)
    have hsegment := @segmentIn_succ image header i n
    rw [loadFrom, kernelProgramHeaderFromImage_ok hsize, hnext]
    simp only [Except.bind]
    have hrest := @ih (i + 1) (fun j hij hj => hpresent j (by omega) (by omega))
      (fun program hin => hvalid program ((segmentIn_succ hnext).mpr (Or.inr hin)))
    by_cases hload : next.type = kProgramTypeLoad
    · have hbounds := hvalid next ((segmentIn_succ hnext).mpr (Or.inl ⟨rfl, hload⟩))
      have hread := ((loadableSegmentBoundsValid_iff hsize).mp hbounds).2
      rw [if_neg (not_not.mpr hload), hbounds, readImage_ok hread]
      simp only [Bool.not_true, Bool.false_eq_true, if_false]
      unfold mapPhysical
      by_cases hnull : next.paddr + hhdmOffset = 0#64
      · rw [if_pos hnull]
        refine ⟨false, before, rfl, iff_of_false Bool.false_ne_true fun hall => ?_,
          fun haccepted => by cases haccepted⟩
        exact hall next ((segmentIn_succ hnext).mpr (Or.inl ⟨rfl, hload⟩)) hnull
      · rw [if_neg hnull]
        obtain ⟨accepted, after, hrun, hloads⟩ := hrest
          ((before.zeroBytes next.paddr next.memsz).copyBytes next.paddr next.filesz
            fun i => imageBytes image (next.offset.toNat + i))
        refine ⟨accepted, after, hrun, ?_, fun haccepted w => ?_⟩
        · rw [hloads.accepted_iff]
          constructor
          · intro hall program hin
            obtain ⟨rfl, -⟩ | hin := (segmentIn_succ hnext).mp hin
            · exact hnull
            · exact hall program hin
          · exact fun hall program hin => hall program ((segmentIn_succ hnext).mpr (Or.inr hin))
        · rw [hloads.writes haccepted]
          simp only [LoadState.zeroBytes, LoadState.copyBytes, List.mem_append, List.mem_singleton]
          constructor
          · rintro (((hw | hw) | hw) | ⟨program, hin, hw⟩)
            · exact Or.inl hw
            · exact Or.inr ⟨next, (segmentIn_succ hnext).mpr (Or.inl ⟨rfl, hload⟩), Or.inl hw⟩
            · exact Or.inr ⟨next, (segmentIn_succ hnext).mpr (Or.inl ⟨rfl, hload⟩), Or.inr hw⟩
            · exact Or.inr ⟨program, (segmentIn_succ hnext).mpr (Or.inr hin), hw⟩
          · rintro (hw | ⟨program, hin, hw⟩)
            · exact Or.inl (Or.inl (Or.inl hw))
            · obtain ⟨rfl, -⟩ | hin := (segmentIn_succ hnext).mp hin
              · exact Or.inl (hw.imp_left Or.inr)
              · exact Or.inr ⟨program, hin, hw⟩
    · rw [if_pos hload]
      obtain ⟨accepted, after, hrun, hloads⟩ := hrest before
      have hiff (program : KernelProgramHeader) :
          SegmentIn header image i (i + (n + 1)) program ↔
            SegmentIn header image (i + 1) (i + 1 + n) program := by
        simp [hsegment hnext, hload]
      refine ⟨accepted, after, hrun, ?_, ?_⟩
      · simpa only [hiff] using hloads.accepted_iff
      · simpa only [hiff] using hloads.writes

/-- The file is loaded as its inspection says: the load is accepted without a read outside the
file, it writes only inside the reported range, and the entry point is in a loaded segment. -/
def LoadsAsInspected (hhdmOffset : BitVec 64) (image : Image) (mem : BitVec 64 → BitVec 8)
    (report : KernelImage) : Prop :=
  (∃ state, loadKernelSegments hhdmOffset image mem = .ok (true, state) ∧
    ∀ x, state.Written x → report.kernelPhysicalStart ≤ x ∧ x < report.kernelPhysicalEnd) ∧
  ∃ program, SegmentIn (decodeHeader (imageBytes image)) image 0
      (decodeHeader (imageBytes image)).phnum.toNat program ∧
    program.vaddr.toNat ≤ report.entryPoint.toNat ∧
    report.entryPoint.toNat < program.vaddr.toNat + program.memsz.toNat

/-- Every segment ends below 2^64 and is not at the address that has a null pointer. -/
def PhysicalInRange (hhdmOffset : BitVec 64) (image : Image) : Prop :=
  ∀ program, SegmentIn (decodeHeader (imageBytes image)) image 0
      (decodeHeader (imageBytes image)).phnum.toNat program →
    program.paddr.toNat + program.memsz.toNat < 2 ^ 64 ∧ program.paddr + hhdmOffset ≠ 0#64

theorem sub_lt_of_no_wrap {x start length : BitVec 64} (h : x - start < length)
    (hwrap : start.toNat + length.toNat < 2 ^ 64) :
    start.toNat ≤ x.toNat ∧ x.toNat < start.toNat + length.toNat := by
  have hx := x.isLt
  have hstart := start.isLt
  rw [BitVec.lt_def, BitVec.toNat_sub] at h
  omega

theorem inspectKernelImage_some {report : KernelImage} (hsize : image.length < 2 ^ 64)
    (h : inspectKernelImage image = .ok (some report)) :
    ∃ after, headerFromImage image = .ok (some (decodeHeader (imageBytes image))) ∧
      Covers (decodeHeader (imageBytes image)) image 0
        (decodeHeader (imageBytes image)).phnum.toNat {} after ∧
      after.entryMapped = true ∧
      report = ⟨(decodeHeader (imageBytes image)).entry, after.kernelPhysicalStart,
        after.kernelPhysicalEnd⟩ := by
  obtain ⟨r, hheader, hdecoded⟩ := headerFromImage_ok hsize
  rw [inspectKernelImage, hheader] at h
  cases r with
  | none => cases h
  | some header =>
    obtain rfl := hdecoded header rfl
    simp only [Except.bind] at h
    cases hinspect : inspectFrom (decodeHeader (imageBytes image)) image
        (decodeHeader (imageBytes image)).phnum.toNat 0 {} with
    | error e =>
      rw [hinspect] at h
      cases h
    | ok found =>
      rw [hinspect] at h
      cases found with
      | none => cases h
      | some after =>
        have hreport := Except.ok.inj h
        dsimp only at hreport
        split at hreport
        · cases hreport
        · split at hreport
          next hentry =>
            exact ⟨after, hheader, inspectFrom_covers hsize hinspect, hentry.2,
              (Option.some.inj hreport).symm⟩
          · cases hreport

/-- A file that passes the inspection is loaded as inspected exactly when the physical addresses
of its segments are in range. -/
theorem loads_as_inspected_iff {report : KernelImage} (hsize : image.length < 2 ^ 64)
    (h : inspectKernelImage image = .ok (some report)) (hhdmOffset : BitVec 64)
    (mem : BitVec 64 → BitVec 8) :
    LoadsAsInspected hhdmOffset image mem report ↔ PhysicalInRange hhdmOffset image := by
  obtain ⟨after, hheader, hcovers, hentry, rfl⟩ := inspectKernelImage_some hsize h
  obtain ⟨accepted, state, hrun, hloads⟩ := loadFrom_loads hsize hhdmOffset hcovers.present
    (fun program hin => (hcovers.valid program hin).1) { mem }
  have hload : loadKernelSegments hhdmOffset image mem = .ok (accepted, state) := by
    rw [loadKernelSegments, hheader]
    exact hrun
  have haccepted := hloads.accepted_iff
  have hwrites := hloads.writes
  have hvalid := hcovers.valid
  have hmapped := hcovers.entry hentry
  rw [Nat.zero_add] at haccepted hwrites hvalid hmapped
  constructor
  · rintro ⟨⟨state', hstate', hinside⟩, -⟩ program hin
    obtain ⟨rfl, rfl⟩ := Prod.mk.inj (Except.ok.inj (hload.symm.trans hstate'))
    refine ⟨Nat.lt_of_not_le fun hwrap => ?_, haccepted.mp rfl program hin⟩
    -- the last byte of the address space is written, and no range reaches it
    have hwritten : state.Written (~~~0#64) :=
      ⟨_, (hwrites rfl _).mpr (Or.inr ⟨program, hin, Or.inl rfl⟩), by
        have := program.paddr.isLt
        have := program.memsz.isLt
        rw [BitVec.lt_def, BitVec.toNat_sub]
        simp only [BitVec.toNat_not, BitVec.toNat_ofNat]
        omega⟩
    have hlast := (hinside _ hwritten).2
    have := after.kernelPhysicalEnd.isLt
    rw [BitVec.lt_def] at hlast
    simp only [BitVec.toNat_not, BitVec.toNat_ofNat] at hlast
    omega
  · intro hrange
    have htrue : accepted = true := haccepted.mpr fun program hin => (hrange program hin).2
    rw [htrue] at hload
    refine ⟨⟨state, hload, fun x hx => ?_⟩, ?_⟩
    · obtain ⟨w, hw, hlt⟩ := hx
      obtain hbefore | ⟨program, hin, hw⟩ := (hwrites htrue w).mp hw
      · cases hbefore
      · obtain ⟨hbounds, hstart, hend⟩ := hvalid program hin
        have hfilesz := ((loadableSegmentBoundsValid_iff hsize).mp hbounds).1
        have hwrap := (hrange program hin).1
        have hx : program.paddr.toNat ≤ x.toNat ∧
            x.toNat < program.paddr.toNat + program.memsz.toNat := by
          rcases hw with rfl | rfl
          · exact sub_lt_of_no_wrap hlt hwrap
          · have := @sub_lt_of_no_wrap x program.paddr program.filesz hlt (by omega)
            omega
        rw [BitVec.le_def] at hstart hend
        rw [BitVec.toNat_add, Nat.mod_eq_of_lt hwrap] at hend
        rw [BitVec.le_def, BitVec.lt_def]
        dsimp only
        omega
    · obtain hnone | ⟨program, hin, hvaddr, hlt⟩ := hmapped
      · cases hnone
      · refine ⟨program, hin, hvaddr, ?_⟩
        rw [BitVec.lt_def, BitVec.toNat_add] at hlt
        exact Nat.lt_of_lt_of_le hlt (Nat.mod_le _ _)

/-! ## Two files -/

def encodeKernelProgramHeader (program : KernelProgramHeader) : List (BitVec 8) :=
  encodeWord program.type.toNat 4 ++ encodeWord program.flags.toNat 4 ++
    encodeWord program.offset.toNat 8 ++ encodeWord program.vaddr.toNat 8 ++
    encodeWord program.paddr.toNat 8 ++ encodeWord program.filesz.toNat 8 ++
    encodeWord program.memsz.toNat 8 ++ encodeWord kPageSize 8

/-- A kernel file with its program headers right after the header. -/
def encodeKernelImage (entry : BitVec 64) (programs : List KernelProgramHeader) : Image :=
  encodeWord kMagic.toNat 4 ++ encodeWord 0x10102 4 ++ encodeWord 0 8 ++
    encodeWord kTypeExec.toNat 2 ++ encodeWord kMachineX8664.toNat 2 ++ encodeWord 1 4 ++
    encodeWord entry.toNat 8 ++ encodeWord headerBytes 8 ++ encodeWord 0 8 ++ encodeWord 0 4 ++
    encodeWord headerBytes 2 ++ encodeWord programHeaderBytes 2 ++
    encodeWord programs.length 2 ++ encodeWord 0 6 ++
    programs.flatMap encodeKernelProgramHeader

/-- A segment at the kernel's place that takes its first bytes from the start of the file. -/
def textSegment : KernelProgramHeader where
  type := kProgramTypeLoad
  flags := 5#32
  offset := 0#64
  vaddr := 0xFFFFFFFF80100000#64
  paddr := 0x100000#64
  filesz := 64#64
  memsz := 0x1000#64

/-- A segment whose end wraps to the second page of physical memory. -/
def wrappingSegment : KernelProgramHeader where
  type := kProgramTypeLoad
  flags := 6#32
  offset := 0#64
  vaddr := 0xFFFFFFFF7FFFF000#64
  paddr := 0xFFFFFFFFFFFFF000#64
  filesz := 0#64
  memsz := 0x2000#64

def kernelEntry : BitVec 64 := 0xFFFFFFFF80100000#64

theorem text_segment_loads_as_inspected :
    inspectKernelImage (encodeKernelImage kernelEntry [textSegment]) =
        .ok (some ⟨kernelEntry, 0x100000#64, 0x101000#64⟩) ∧
      LoadsAsInspected (BitVec.ofNat 64 kDirectMapBase)
        (encodeKernelImage kernelEntry [textSegment]) (fun _ => 0xFF#8)
        ⟨kernelEntry, 0x100000#64, 0x101000#64⟩ := by
  have hinspect : inspectKernelImage (encodeKernelImage kernelEntry [textSegment]) =
      .ok (some ⟨kernelEntry, 0x100000#64, 0x101000#64⟩) := by decide +kernel
  refine ⟨hinspect, (loads_as_inspected_iff (by decide) hinspect _ _).mpr ?_⟩
  rintro program ⟨j, -, hj, hat, -⟩
  have hcount : (decodeHeader
      (imageBytes (encodeKernelImage kernelEntry [textSegment]))).phnum.toNat = 1 := by
    decide +kernel
  obtain rfl : j = 0 := by omega
  have hfirst : segmentAt (decodeHeader (imageBytes (encodeKernelImage kernelEntry [textSegment])))
      (encodeKernelImage kernelEntry [textSegment]) 0 = some textSegment := by decide +kernel
  obtain rfl := Option.some.inj (hfirst.symm.trans hat)
  decide

/-- The inspection reports one page, and the load zeroes the end of physical memory as well. -/
theorem wrapping_segment_loads_outside :
    inspectKernelImage (encodeKernelImage kernelEntry [textSegment, wrappingSegment]) =
        .ok (some ⟨kernelEntry, 0x100000#64, 0x101000#64⟩) ∧
      ¬ LoadsAsInspected (BitVec.ofNat 64 kDirectMapBase)
        (encodeKernelImage kernelEntry [textSegment, wrappingSegment]) (fun _ => 0xFF#8)
        ⟨kernelEntry, 0x100000#64, 0x101000#64⟩ := by
  refine ⟨by decide +kernel, ?_⟩
  rintro ⟨⟨state, hload, hinside⟩, -⟩
  have hwrites : (loadKernelSegments (BitVec.ofNat 64 kDirectMapBase)
      (encodeKernelImage kernelEntry [textSegment, wrappingSegment]) fun _ => 0xFF#8).map
        (fun r => r.2.writes) = .ok [(0x100000#64, 0x1000#64), (0x100000#64, 64#64),
          (0xFFFFFFFFFFFFF000#64, 0x2000#64), (0xFFFFFFFFFFFFF000#64, 0#64)] := by decide +kernel
  rw [hload] at hwrites
  have hstate := Except.ok.inj hwrites
  dsimp only at hstate
  have hwritten : state.Written 0xFFFFFFFFFFFFF000#64 :=
    ⟨(0xFFFFFFFFFFFFF000#64, 0x2000#64), by rw [hstate]; decide, by decide⟩
  exact absurd (hinside _ hwritten).2 (by decide)

end Os1.Boot
