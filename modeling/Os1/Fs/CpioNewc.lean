import Os1.Elf.Elf64

/-!
# CPIO newc archives

A pointer into the archive is the part of the archive that starts there. A read past the
end of the archive, or of any other buffer, is a fault.
-/

namespace Os1.Cpio

open Elf (Image ReadFault)

def kCpioModeTypeMask : BitVec 32 := 0xF000#32
def kCpioModeRegular : BitVec 32 := 0x8000#32

/-- The text "070701". -/
def kCpioNewcMagic : Image := [0x30#8, 0x37#8, 0x30#8, 0x37#8, 0x30#8, 0x31#8]

/-- The text "TRAILER!!!". -/
def trailerName : Image :=
  [0x54#8, 0x52#8, 0x41#8, 0x49#8, 0x4C#8, 0x45#8, 0x52#8, 0x21#8, 0x21#8, 0x21#8]

def dot : BitVec 8 := 0x2E#8
def slash : BitVec 8 := 0x2F#8

/-! ## Header fields -/

def headerSize : Nat := 110

/- Offsets of the members of `CpioNewcHeader` that the parser reads. -/
def modeOffset : Nat := 14
def filesizeOffset : Nat := 54
def namesizeOffset : Nat := 94

def checkedAdd (left right : Nat) : Option Nat :=
  if left > 2 ^ 64 - 1 - right then none else some (left + right)

def alignUpChecked (value alignment : Nat) : Option Nat :=
  if alignment = 0 then none
  else (checkedAdd value (alignment - 1)).map fun biased => alignDown biased alignment

def readByte : Image → Nat → Except ReadFault (BitVec 8)
  | [], _ => .error .outOfBounds
  | c :: _, 0 => .ok c
  | _ :: buffer, i + 1 => readByte buffer i

/-- The loop of `magic_matches` over the wanted bytes. -/
def magicMatches : (magic header : Image) → Except ReadFault Bool
  | [], _ => .ok true
  | _ :: _, [] => .error .outOfBounds
  | m :: magic, c :: header => if c = m then magicMatches magic header else .ok false

def hexNibble (c : BitVec 8) : Option (BitVec 32) :=
  if 0x30#8 ≤ c ∧ c ≤ 0x39#8 then some ((c - 0x30#8).zeroExtend 32)
  else if 0x61#8 ≤ c ∧ c ≤ 0x66#8 then some ((c - 0x61#8 + 10#8).zeroExtend 32)
  else if 0x41#8 ≤ c ∧ c ≤ 0x46#8 then some ((c - 0x41#8 + 10#8).zeroExtend 32)
  else none

def parseHex : (text : Image) → (digits : Nat) → (value : BitVec 32) →
    Except ReadFault (Option (BitVec 32))
  | _, 0, value => .ok (some value)
  | [], _ + 1, _ => .error .outOfBounds
  | c :: text, digits + 1, value =>
    match hexNibble c with
    | none => .ok none
    | some nibble => parseHex text digits (value <<< 4 ||| nibble)

def isRegularEntry (mode : BitVec 32) : Bool := mode &&& kCpioModeTypeMask = kCpioModeRegular

/-! ## Paths -/

/-- `while(('.' == path[0]) && ('/' == path[1])) path += 2;` -/
def skipDotSlash : Image → Except ReadFault Image
  | [] => .error .outOfBounds
  | [c] => if c = dot then .error .outOfBounds else .ok [c]
  | c :: d :: path => if c = dot ∧ d = slash then skipDotSlash path else .ok (c :: d :: path)

/-- `while('/' == *path) ++path;` -/
def skipSlashes : Image → Except ReadFault Image
  | [] => .error .outOfBounds
  | c :: path => if c = slash then skipSlashes path else .ok (c :: path)

def normalizeArchivePath (path : Image) : Except ReadFault Image :=
  (skipDotSlash path).bind skipSlashes

/-- The comparison loop, which ends at the first difference or the common terminator. -/
def equalStrings : Image → Image → Except ReadFault Bool
  | a :: left, b :: right =>
    if a ≠ b then .ok false else if a = 0#8 then .ok true else equalStrings left right
  | _, _ => .error .outOfBounds

def cpioNewcPathsEqual (archiveName wanted : Image) : Except ReadFault Bool :=
  (normalizeArchivePath archiveName).bind fun left =>
    (normalizeArchivePath wanted).bind fun right => equalStrings left right

/-! ## Traversal -/

/-- What the visitor is given: where the name and the data start, and the file size. -/
structure CpioFile where
  name : Nat
  data : Nat
  size : Nat
  deriving DecidableEq, Repr

inductive CpioTurn
  | malformed
  | trailer
  | entry (mode : BitVec 32) (file : CpioFile) (fileEnd : Nat)
  deriving DecidableEq, Repr

/-- A check of the parser: without a value the entry is malformed. -/
def require {α : Type} (value : Option α) (next : α → Except ReadFault CpioTurn) :
    Except ReadFault CpioTurn :=
  match value with
  | none => .ok .malformed
  | some a => next a

/-- A sum that must not pass the end of the archive. -/
def within (archive : Image) (position : Option Nat) : Option Nat :=
  position.filter (· ≤ archive.length)

/-- The three numbers of a header: mode, name size and file size. -/
def parseHeader (header : Image) (next : BitVec 32 → Nat → Nat → Except ReadFault CpioTurn) :
    Except ReadFault CpioTurn :=
  (magicMatches kCpioNewcMagic header).bind fun matched =>
    if !matched then .ok .malformed
    else
      (parseHex (header.drop modeOffset) 8 0#32).bind fun mode =>
        require mode fun mode =>
          (parseHex (header.drop namesizeOffset) 8 0#32).bind fun nameSize =>
            require nameSize fun nameSize =>
              (parseHex (header.drop filesizeOffset) 8 0#32).bind fun fileSize =>
                require fileSize fun fileSize => next mode nameSize.toNat fileSize.toNat

/-- The entry at `offset`, up to the call of the visitor. -/
def cpioTurn (archive : Image) (offset : Nat) : Except ReadFault CpioTurn :=
  require (within archive (checkedAdd offset headerSize)) fun headerEnd =>
    parseHeader (archive.drop offset) fun mode nameSize fileSize =>
      if nameSize = 0 then .ok .malformed
      else
        require (within archive (checkedAdd headerEnd nameSize)) fun nameEnd =>
          (readByte (archive.drop headerEnd) (nameSize - 1)).bind fun last =>
            if last ≠ 0#8 then .ok .malformed
            else
              require (within archive (alignUpChecked nameEnd 4)) fun fileOffset =>
                require (within archive (checkedAdd fileOffset fileSize)) fun fileEnd =>
                  (cpioNewcPathsEqual (archive.drop headerEnd) (trailerName ++ [0#8])).map
                    fun isTrailer =>
                      if isTrailer then .trailer
                      else .entry mode ⟨headerEnd, fileOffset, fileSize⟩ fileEnd

/-- A visitor answers whether to go on, and may change its context. -/
abbrev CpioNewcFileVisitor (σ : Type) := CpioFile → σ → Except ReadFault (Bool × σ)

variable {σ : Type}

/-- The loop over the entries. Every turn moves the offset forward, so one turn more than the
archive has bytes is enough. -/
def forEachFrom (archive : Image) (visitor : CpioNewcFileVisitor σ) :
    (fuel offset : Nat) → σ → Except ReadFault (Bool × σ)
  | 0, _, context => .ok (false, context)
  | fuel + 1, offset, context =>
    if offset ≤ archive.length then
      (cpioTurn archive offset).bind fun
        | .malformed => .ok (false, context)
        | .trailer => .ok (true, context)
        | .entry mode file fileEnd =>
          (if isRegularEntry mode then visitor file context else .ok (true, context)).bind fun
            | (false, context) => .ok (false, context)
            | (true, context) =>
              match alignUpChecked fileEnd 4 with
              | none => .ok (false, context)
              | some nextOffset =>
                if nextOffset ≤ offset then .ok (false, context)
                else forEachFrom archive visitor fuel nextOffset context
    else .ok (false, context)

def forEachCpioNewcFile (archive : Image) (visitor : CpioNewcFileVisitor σ) (context : σ) :
    Except ReadFault (Bool × σ) :=
  forEachFrom archive visitor (archive.length + 1) 0 context

end Os1.Cpio
