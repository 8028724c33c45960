import Os1.Lib.ByteMemory
import Os1.Handoff.MemoryLayout

/-! ELF64 headers, read from an image of any content and length. -/
namespace Os1.Elf

def kMagic : BitVec 32 := 0x464C457F#32
def kTypeExec : BitVec 16 := 2#16
def kMachineX8664 : BitVec 16 := 62#16
def kProgramTypeLoad : BitVec 32 := 1#32
def kProgramFlagExecute : BitVec 32 := 1#32
def kProgramFlagWrite : BitVec 32 := 2#32

/-- The fields of `Elf64Header` that the loader reads. -/
structure Elf64Header where
  magic : BitVec 32
  type : BitVec 16
  machine : BitVec 16
  entry : BitVec 64
  phoff : BitVec 64
  phentsize : BitVec 16
  phnum : BitVec 16
  deriving DecidableEq, Repr

/-- The fields of `Elf64ProgramHeader` that the loader reads. -/
structure Elf64ProgramHeader where
  type : BitVec 32
  flags : BitVec 32
  offset : BitVec 64
  vaddr : BitVec 64
  filesz : BitVec 64
  memsz : BitVec 64
  deriving DecidableEq, Repr

def headerBytes : Nat := 64
def programHeaderBytes : Nat := 56

abbrev Image := List (BitVec 8)

def imageSize (image : Image) : BitVec 64 := BitVec.ofNat 64 image.length

/-- A read of a byte that is not part of the image. -/
inductive ReadFault where
  | outOfBounds
  deriving DecidableEq, Repr

def imageBytes (image : Image) : Memory := fun i => image.getD i 0#8

def decodeHeader (m : Memory) : Elf64Header where
  magic := BitVec.ofNat 32 (m.load 0 4)
  type := BitVec.ofNat 16 (m.load 16 2)
  machine := BitVec.ofNat 16 (m.load 18 2)
  entry := BitVec.ofNat 64 (m.load 24 8)
  phoff := BitVec.ofNat 64 (m.load 32 8)
  phentsize := BitVec.ofNat 16 (m.load 54 2)
  phnum := BitVec.ofNat 16 (m.load 56 2)

def decodeProgramHeader (m : Memory) (a : Nat) : Elf64ProgramHeader where
  type := BitVec.ofNat 32 (m.load a 4)
  flags := BitVec.ofNat 32 (m.load (a + 4) 4)
  offset := BitVec.ofNat 64 (m.load (a + 8) 8)
  vaddr := BitVec.ofNat 64 (m.load (a + 16) 8)
  filesz := BitVec.ofNat 64 (m.load (a + 32) 8)
  memsz := BitVec.ofNat 64 (m.load (a + 40) 8)

/-- The bytes from `offset` on, of which `length` are read. -/
def readImage (image : Image) (offset length : Nat) : Except ReadFault (Nat → BitVec 8) :=
  if offset + length ≤ image.length then .ok fun i => imageBytes image (offset + i)
  else .error .outOfBounds

def readHeader (image : Image) : Except ReadFault Elf64Header :=
  (readImage image 0 headerBytes).map fun _ => decodeHeader (imageBytes image)

def readProgramHeader (image : Image) (offset : Nat) : Except ReadFault Elf64ProgramHeader :=
  (readImage image offset programHeaderBytes).map fun _ =>
    decodeProgramHeader (imageBytes image) offset

def checkedAdd (left right : BitVec 64) : Option (BitVec 64) :=
  if left > ~~~0#64 - right then none else some (left + right)

def headerFromImage (image : Image) : Except ReadFault (Option Elf64Header) :=
  if imageSize image < BitVec.ofNat 64 headerBytes then .ok none
  else (readHeader image).map fun header =>
    if header.magic ≠ kMagic ∨ header.phoff ≥ imageSize image ∨
        header.phentsize ≠ BitVec.ofNat 16 programHeaderBytes then none
    else some header

/-- The offset of a program header, if all of its bytes are inside the image. -/
def programHeaderOffset (header : Elf64Header) (size : BitVec 64) (index : BitVec 16) :
    Option (BitVec 64) :=
  let phentsize : BitVec 64 := header.phentsize.setWidth 64
  let indexOffset := index.setWidth 64 * phentsize
  if phentsize ≠ 0#64 ∧ indexOffset / phentsize ≠ index.setWidth 64 then none
  else
    match checkedAdd header.phoff indexOffset with
    | none => none
    | some programOffset =>
      match checkedAdd programOffset (BitVec.ofNat 64 programHeaderBytes) with
      | none => none
      | some programEnd => if programEnd > size then none else some programOffset

def programHeaderFromImage (header : Elf64Header) (image : Image) (index : BitVec 16) :
    Except ReadFault (Option Elf64ProgramHeader) :=
  match programHeaderOffset header (imageSize image) index with
  | none => .ok none
  | some offset => (readProgramHeader image offset.toNat).map some

def loadableSegmentBoundsValid (program : Elf64ProgramHeader) (size : BitVec 64) : Bool :=
  program.memsz ≥ program.filesz &&
    match checkedAdd program.offset program.filesz with
    | none => false
    | some fileEnd => fileEnd ≤ size

/-! ## Images -/

/-- A little-endian number. -/
def encodeWord (value : Nat) : (bytes : Nat) → List (BitVec 8)
  | 0 => []
  | bytes + 1 => BitVec.ofNat 8 value :: encodeWord (value / 256) bytes

def encodeProgramHeader (program : Elf64ProgramHeader) : List (BitVec 8) :=
  encodeWord program.type.toNat 4 ++ encodeWord program.flags.toNat 4 ++
    encodeWord program.offset.toNat 8 ++ encodeWord program.vaddr.toNat 8 ++
    encodeWord 0 8 ++ encodeWord program.filesz.toNat 8 ++ encodeWord program.memsz.toNat 8 ++
    encodeWord kPageSize 8

/-- An executable with its program headers right after the header, and `data` after them. -/
def encodeImage (entry : BitVec 64) (programs : List Elf64ProgramHeader)
    (data : List (BitVec 8)) : Image :=
  encodeWord kMagic.toNat 4 ++ encodeWord 0x10102 4 ++ encodeWord 0 8 ++
    encodeWord kTypeExec.toNat 2 ++ encodeWord kMachineX8664.toNat 2 ++ encodeWord 1 4 ++
    encodeWord entry.toNat 8 ++ encodeWord headerBytes 8 ++ encodeWord 0 8 ++ encodeWord 0 4 ++
    encodeWord headerBytes 2 ++ encodeWord programHeaderBytes 2 ++
    encodeWord programs.length 2 ++ encodeWord 0 6 ++ programs.flatMap encodeProgramHeader ++ data

/-! ## Bounds -/

variable {image : Image} {header : Elf64Header} {program : Elf64ProgramHeader} {index : BitVec 16}

theorem checkedAdd_eq_some {l r s : BitVec 64} :
    checkedAdd l r = some s ↔ s = l + r ∧ l.toNat + r.toNat < 2 ^ 64 := by
  have hr := r.isLt
  have hall : (~~~0#64 - r).toNat = 2 ^ 64 - 1 - r.toNat := by
    rw [BitVec.toNat_sub_of_le (BitVec.le_def.mpr (by
      simp only [BitVec.toNat_not, BitVec.toNat_ofNat]; omega))]
    simp
  unfold checkedAdd
  simp only [gt_iff_lt, BitVec.lt_def, hall]
  split
  · exact iff_of_false (fun h => by cases h) fun h => by omega
  · rw [Option.some.injEq, eq_comm]
    exact ⟨fun h => ⟨h, by omega⟩, fun h => h.1⟩

theorem toNat_checkedAdd {l r s : BitVec 64} (h : checkedAdd l r = some s) :
    s.toNat = l.toNat + r.toNat := by
  obtain ⟨rfl, hlt⟩ := checkedAdd_eq_some.mp h
  rw [BitVec.toNat_add, Nat.mod_eq_of_lt hlt]

theorem toNat_imageSize (h : image.length < 2 ^ 64) : (imageSize image).toNat = image.length := by
  rw [imageSize, BitVec.toNat_ofNat, Nat.mod_eq_of_lt h]

theorem readImage_ok {offset length : Nat} (h : offset + length ≤ image.length) :
    readImage image offset length = .ok fun i => imageBytes image (offset + i) := if_pos h

/-- The header is read only when it is inside the image. -/
theorem headerFromImage_ok (h : image.length < 2 ^ 64) :
    ∃ r, headerFromImage image = .ok r ∧ ∀ header ∈ r,
      header = decodeHeader (imageBytes image) := by
  unfold headerFromImage
  split
  · exact ⟨none, rfl, fun _ h => by cases h⟩
  next hsize =>
    rw [BitVec.lt_def, toNat_imageSize h] at hsize
    have hread : 0 + headerBytes ≤ image.length := by
      simpa [headerBytes] using hsize
    rw [readHeader, readImage_ok hread]
    refine ⟨_, rfl, fun header hheader => ?_⟩
    dsimp only at hheader
    split at hheader
    · cases hheader
    · exact (Option.some.inj hheader).symm

theorem programHeaderOffset_le {size offset : BitVec 64}
    (h : programHeaderOffset header size index = some offset) :
    offset.toNat + programHeaderBytes ≤ size.toNat := by
  unfold programHeaderOffset at h
  dsimp only at h
  split at h
  · cases h
  · split at h
    · cases h
    next programOffset _ =>
      split at h
      · cases h
      next programEnd hend =>
        split at h
        · cases h
        next hle =>
          cases h
          have hsum := toNat_checkedAdd hend
          rw [gt_iff_lt, BitVec.lt_def] at hle
          simp only [programHeaderBytes, BitVec.toNat_ofNat] at hsum ⊢
          omega

/-- A program header is read only when it is inside the image. -/
theorem programHeaderFromImage_ok (h : image.length < 2 ^ 64) (header : Elf64Header)
    (index : BitVec 16) :
    programHeaderFromImage header image index =
      .ok ((programHeaderOffset header (imageSize image) index).map fun offset =>
        decodeProgramHeader (imageBytes image) offset.toNat) := by
  unfold programHeaderFromImage
  cases hoffset : programHeaderOffset header (imageSize image) index with
  | none => rfl
  | some offset =>
    have hle := programHeaderOffset_le hoffset
    rw [toNat_imageSize h] at hle
    simp only [readProgramHeader, readImage_ok hle, Option.map_some]
    rfl

theorem loadableSegmentBoundsValid_iff (h : image.length < 2 ^ 64) :
    loadableSegmentBoundsValid program (imageSize image) = true ↔
      program.filesz.toNat ≤ program.memsz.toNat ∧
        program.offset.toNat + program.filesz.toNat ≤ image.length := by
  unfold loadableSegmentBoundsValid
  rw [Bool.and_eq_true, decide_eq_true_iff, ge_iff_le, BitVec.le_def]
  refine and_congr_right fun _ => ?_
  cases hadd : checkedAdd program.offset program.filesz with
  | none =>
    refine iff_of_false (fun h => by cases h) fun hle => ?_
    have hsome := checkedAdd_eq_some.mpr ⟨rfl, lt_of_le_of_lt hle h⟩
    cases hadd.symm.trans hsome
  | some fileEnd =>
    simp only [decide_eq_true_iff, BitVec.le_def, toNat_checkedAdd hadd, toNat_imageSize h]

end Os1.Elf
