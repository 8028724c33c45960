import Os1.Elf.Elf64
import Os1.Mm.AddressSpace

/-! Which user ELF images are accepted, and where their segments go. -/
namespace Os1.UserElf

open Elf

def alignUpChecked (value alignment : BitVec 64) : Option (BitVec 64) :=
  if alignment = 0#64 then none
  else (checkedAdd value (alignment - 1#64)).map fun biased => biased &&& ~~~(alignment - 1#64)

def loadableSegmentRawEnd (program : Elf64ProgramHeader) : Option (BitVec 64) :=
  checkedAdd program.vaddr program.memsz

def stackGuardBase : Nat := kUserStackTop - (kUserStackPages + 1) * kPageSize
def stackBase : Nat := kUserStackTop - kUserStackPages * kPageSize
def initialStackPointer : Nat := alignDown kUserStackTop 16 - 8

def validateExecutableHeader (header : Elf64Header) : Bool :=
  header.type = kTypeExec && header.machine = kMachineX8664

structure LoadSegmentPlan where
  segmentStart : BitVec 64
  segmentEnd : BitVec 64
  pageFlags : PageFlags
  deriving DecidableEq, Repr

def segmentFlags (program : Elf64ProgramHeader) : PageFlags where
  present := true
  user := true
  write := program.flags &&& kProgramFlagWrite ≠ 0#32
  noExecute := program.flags &&& kProgramFlagExecute = 0#32

def planLoadSegment (program : Elf64ProgramHeader) (size : BitVec 64) : Option LoadSegmentPlan :=
  if program.type ≠ kProgramTypeLoad ∨ program.memsz = 0#64 then none
  else if !loadableSegmentBoundsValid program size then none
  else
    match loadableSegmentRawEnd program with
    | none => none
    | some rawSegmentEnd =>
      match alignUpChecked rawSegmentEnd (BitVec.ofNat 64 kPageSize) with
      | none => none
      | some segmentEnd =>
        let segmentStart := BitVec.ofNat 64 (alignDown program.vaddr.toNat kPageSize)
        if segmentStart < BitVec.ofNat 64 kUserSpaceBase ∨
            segmentEnd > BitVec.ofNat 64 stackGuardBase ∨
            pageIndex segmentStart 39 ≠ kUserPml4Index then none
        else if segmentEnd ≤ segmentStart then none
        else some { segmentStart, segmentEnd, pageFlags := segmentFlags program }

/-- A header that the loops over the program headers pass over. -/
def isSkipped (program : Elf64ProgramHeader) : Bool :=
  program.type ≠ kProgramTypeLoad || program.memsz = 0#64

/-- One turn of the loop: the value it returns, or `none` to go on. -/
def entryPointTurn (header : Elf64Header) (size : BitVec 64) (program : Elf64ProgramHeader) :
    Option Bool :=
  if isSkipped program then none
  else
    match planLoadSegment program size, loadableSegmentRawEnd program with
    | some _, some rawSegmentEnd =>
      if program.vaddr ≤ header.entry ∧ header.entry < rawSegmentEnd then some true else none
    | _, _ => some false

/-- The loop from header `i` on. -/
def entryPointFrom (header : Elf64Header) (image : Image) :
    (remaining i : Nat) → Except ReadFault Bool
  | 0, _ => .ok false
  | remaining + 1, i =>
    (programHeaderFromImage header image (BitVec.ofNat 16 i)).bind fun
      | none => .ok false
      | some program =>
        match entryPointTurn header (imageSize image) program with
        | some result => .ok result
        | none => entryPointFrom header image remaining (i + 1)

def entryPointInLoadableSegment (header : Elf64Header) (image : Image) : Except ReadFault Bool :=
  entryPointFrom header image header.phnum.toNat 0

def validateUserElfImage (header : Elf64Header) (image : Image) : Except ReadFault Bool :=
  if validateExecutableHeader header then entryPointInLoadableSegment header image else .ok false

/-! ## Segments -/

/-- The program header at an index, when the image has it. -/
def programHeader (image : Image) (header : Elf64Header) (i : Nat) : Option Elf64ProgramHeader :=
  (programHeaderOffset header (imageSize image) (BitVec.ofNat 16 i)).map fun offset =>
    decodeProgramHeader (imageBytes image) offset.toNat

/-- The bounds of an accepted segment, as numbers: nothing wraps, and its pages lie between the
user base and the stack guard. -/
structure SegmentBounds (image : Image) (program : Elf64ProgramHeader) (plan : LoadSegmentPlan) :
    Prop where
  load : program.type = kProgramTypeLoad
  memsz_pos : 0 < program.memsz.toNat
  filesz_le : program.filesz.toNat ≤ program.memsz.toNat
  file : program.offset.toNat + program.filesz.toNat ≤ image.length
  start : plan.segmentStart.toNat = program.vaddr.toNat / kPageSize * kPageSize
  stop : plan.segmentEnd.toNat =
    (program.vaddr.toNat + program.memsz.toNat + (kPageSize - 1)) / kPageSize * kPageSize
  base : kUserSpaceBase ≤ plan.segmentStart.toNat
  guard : plan.segmentEnd.toNat ≤ stackGuardBase
  flags : plan.pageFlags = segmentFlags program

variable {image : Image} {header : Elf64Header} {program : Elf64ProgramHeader}
  {plan : LoadSegmentPlan}

theorem programHeaderFromImage_eq (hsize : image.length < 2 ^ 64) (header : Elf64Header) (i : Nat) :
    programHeaderFromImage header image (BitVec.ofNat 16 i) = .ok (programHeader image header i) :=
  programHeaderFromImage_ok hsize header _

theorem kPageSize_eq : kPageSize = 2 ^ 12 := rfl

theorem toNat_alignUpChecked {v r : BitVec 64}
    (h : alignUpChecked v (BitVec.ofNat 64 kPageSize) = some r) :
    r.toNat = (v.toNat + (kPageSize - 1)) / kPageSize * kPageSize := by
  rw [alignUpChecked, if_neg (by decide), Option.map_eq_some_iff] at h
  obtain ⟨biased, hbiased, rfl⟩ := h
  rw [kPageSize_eq, toNat_and_not_low _ 12 (by decide), toNat_checkedAdd hbiased]
  rfl

theorem segmentBounds (hsize : image.length < 2 ^ 64)
    (h : planLoadSegment program (imageSize image) = some plan) :
    SegmentBounds image program plan := by
  unfold planLoadSegment at h
  split at h
  · cases h
  next hload =>
    rw [not_or, not_not] at hload
    split at h
    · cases h
    next hvalid =>
      rw [Bool.not_eq_true', Bool.not_eq_false] at hvalid
      obtain ⟨hfilesz, hfile⟩ := (loadableSegmentBoundsValid_iff hsize).mp hvalid
      split at h
      · cases h
      next rawEnd hraw =>
        split at h
        · cases h
        next segmentEnd hend =>
          dsimp only at h
          split at h
          · cases h
          next hwindow =>
            split at h
            · cases h
            next =>
              cases h
              simp only [not_or, BitVec.lt_def, gt_iff_lt, Nat.not_lt] at hwindow
              have hstop := toNat_alignUpChecked hend
              rw [toNat_checkedAdd hraw] at hstop
              have hv := program.vaddr.isLt
              have hdown := alignDown_eq (k := 12) (by decide) hv
              refine
                { load := hload.1
                  memsz_pos := Nat.pos_of_ne_zero fun hz => hload.2 (BitVec.eq_of_toNat_eq hz)
                  filesz_le := hfilesz
                  file := hfile
                  start := ?_
                  stop := hstop
                  base := ?_
                  guard := ?_
                  flags := rfl }
              · rw [BitVec.toNat_ofNat, kPageSize_eq, hdown]
                exact Nat.mod_eq_of_lt (by omega)
              · exact hwindow.1
              · exact hwindow.2.1

namespace SegmentBounds

variable (b : SegmentBounds image program plan)
include b

theorem stop_lt : plan.segmentEnd.toNat < 2 ^ 64 := plan.segmentEnd.isLt

theorem vaddr_ge : plan.segmentStart.toNat ≤ program.vaddr.toNat := by
  rw [b.start]
  exact Nat.div_mul_le_self _ _

theorem end_le : program.vaddr.toNat + program.memsz.toNat ≤ plan.segmentEnd.toNat := by
  rw [b.stop, kPageSize_eq]
  omega

theorem start_lt_stop : plan.segmentStart.toNat < plan.segmentEnd.toNat := by
  have := b.vaddr_ge
  have := b.end_le
  have := b.memsz_pos
  omega

end SegmentBounds

/-- The number of pages of a segment. -/
def LoadSegmentPlan.numPages (plan : LoadSegmentPlan) : BitVec 64 :=
  (plan.segmentEnd - plan.segmentStart) / BitVec.ofNat 64 kPageSize

theorem SegmentBounds.toNat_numPages (b : SegmentBounds image program plan) :
    plan.segmentStart.toNat + plan.numPages.toNat * kPageSize = plan.segmentEnd.toNat := by
  have hlt := b.start_lt_stop
  have hstart := b.start
  have hstop := b.stop
  rw [LoadSegmentPlan.numPages, BitVec.toNat_udiv,
    BitVec.toNat_sub_of_le (BitVec.le_def.mpr hlt.le), BitVec.toNat_ofNat]
  rw [kPageSize_eq] at *
  rw [Nat.mod_eq_of_lt (by decide)]
  omega

theorem SegmentBounds.aligned (b : SegmentBounds image program plan) :
    plan.segmentStart.toNat % kPageSize = 0 := by
  rw [b.start]
  exact Nat.mul_mod_left _ _

theorem SegmentBounds.numPages_ne (b : SegmentBounds image program plan) :
    plan.numPages ≠ 0#64 := by
  intro h0
  have hpages := b.toNat_numPages
  have hlt := b.start_lt_stop
  rw [h0] at hpages
  simp at hpages
  omega

/-- Every page of a segment is between the user base and the stack guard, in the user slot. -/
structure UserPage (page : BitVec 64) : Prop where
  base : kUserSpaceBase ≤ page.toNat
  guard : page.toNat + kPageSize ≤ stackGuardBase
  slot : pageIndex page 39 = kUserPml4Index

theorem SegmentBounds.userPage (b : SegmentBounds image program plan) {i : Nat}
    (hi : i < plan.numPages.toNat) : UserPage (pageAt plan.segmentStart i) := by
  have hpages := b.toNat_numPages
  have hbase := b.base
  have hguard := b.guard
  have hle : (i + 1) * kPageSize ≤ plan.numPages.toNat * kPageSize := Nat.mul_le_mul_right _ hi
  have hpos : 0 < kPageSize := by decide
  rw [Nat.add_mul, Nat.one_mul] at hle
  have htop : stackGuardBase < 2 ^ 64 := by decide
  have hat : (pageAt plan.segmentStart i).toNat = plan.segmentStart.toNat + i * kPageSize := by
    rw [pageAt, BitVec.toNat_add, BitVec.toNat_ofNat, Nat.add_mod_mod, Nat.mod_eq_of_lt (by omega)]
  refine ⟨by omega, by omega, ?_⟩
  rw [pageIndex_eq, hat, kUserPml4Index]
  simp only [kUserSpaceBase, stackGuardBase, kUserStackTop, kUserStackPages, kPageSize] at *
  omega

end Os1.UserElf
