import Os1.Fs.CpioNewc
import Mathlib.Data.List.Basic

/-!
# Reading back an encoded archive

The writer is not part of the kernel: it states what a newc archive is. Numbers have eight
hexadecimal digits in either case, and names and data are padded to four bytes.
-/

namespace Os1.Cpio

open Elf (Image ReadFault)

/-- The header members that the parser does not read. -/
structure CpioHeaderRest where
  inode : BitVec 32
  uid : BitVec 32
  gid : BitVec 32
  nlink : BitVec 32
  mtime : BitVec 32
  devmajor : BitVec 32
  devminor : BitVec 32
  rdevmajor : BitVec 32
  rdevminor : BitVec 32
  check : BitVec 32

/-- An entry that the format can hold: its name has no NUL and its sizes fit 32 bits. -/
structure CpioEntry where
  name : Image
  mode : BitVec 32
  data : Image
  rest : CpioHeaderRest
  noNul : 0#8 ∉ name
  nameFits : name.length + 1 < 2 ^ 32
  dataFits : data.length < 2 ^ 32

/-! ## Encoding -/

def hexDigit (upper : Bool) (d : Nat) : BitVec 8 :=
  BitVec.ofNat 8 (if d < 10 then 0x30 + d else (if upper then 0x41 else 0x61) + (d - 10))

/-- The low `digits` hexadecimal digits, the highest one first. -/
def encodeHex (upper : Bool) : (digits value : Nat) → Image
  | 0, _ => []
  | digits + 1, value =>
    hexDigit upper (value / 16 ^ digits % 16) :: encodeHex upper digits value

def padding (n : Nat) : Image := List.replicate ((4 - n % 4) % 4) 0#8

/-- The numbers of a header in the order of `CpioNewcHeader`. -/
def CpioEntry.numbers (e : CpioEntry) : List Nat :=
  [e.rest.inode.toNat, e.mode.toNat, e.rest.uid.toNat, e.rest.gid.toNat, e.rest.nlink.toNat,
    e.rest.mtime.toNat, e.data.length, e.rest.devmajor.toNat, e.rest.devminor.toNat,
    e.rest.rdevmajor.toNat, e.rest.rdevminor.toNat, e.name.length + 1, e.rest.check.toNat]

def encodeHeader (upper : Bool) (e : CpioEntry) : Image :=
  kCpioNewcMagic ++ e.numbers.flatMap (encodeHex upper 8)

def encodeEntry (upper : Bool) (e : CpioEntry) : Image :=
  encodeHeader upper e ++ (e.name ++ 0#8 :: padding (headerSize + (e.name.length + 1))) ++
    (e.data ++ padding e.data.length)

def trailerEntry (rest : CpioHeaderRest) : CpioEntry :=
  ⟨trailerName, 0#32, [], rest, by decide, by decide, by decide⟩

def encodeArchive (upper : Bool) (entries : List CpioEntry) (last : CpioHeaderRest) : Image :=
  (entries ++ [trailerEntry last]).flatMap (encodeEntry upper)

/-! ## Numbers -/

theorem hexNibble_hexDigit (upper : Bool) {d : Nat} (hd : d < 16) :
    hexNibble (hexDigit upper d) = some (BitVec.ofNat 32 d) := by
  have hall : ∀ (upper : Bool) (d : Fin 16),
      hexNibble (hexDigit upper d) = some (BitVec.ofNat 32 d) := by decide
  exact hall upper ⟨d, hd⟩

theorem shiftNibble (value : BitVec 32) {d : Nat} (hd : d < 16) :
    value <<< 4 ||| BitVec.ofNat 32 d = BitVec.ofNat 32 (value.toNat * 16 + d) := by
  apply BitVec.eq_of_toNat_eq
  have hd32 : d % 2 ^ 32 = d := Nat.mod_eq_of_lt (by omega)
  have hshift : (value <<< 4).toNat = (value.toNat % 2 ^ 28) <<< 4 := by
    rw [BitVec.toNat_shiftLeft, Nat.shiftLeft_eq, Nat.shiftLeft_eq]
    omega
  rw [BitVec.toNat_or, hshift, BitVec.toNat_ofNat, BitVec.toNat_ofNat, hd32,
    ← Nat.shiftLeft_add_eq_or_of_lt (show d < 2 ^ 4 from hd), Nat.shiftLeft_eq]
  omega

/-- Parsing the digits of a number appends them to the value so far. -/
theorem parseHex_encodeHex (upper : Bool) (digits value : Nat) (acc : BitVec 32) (tail : Image) :
    parseHex (encodeHex upper digits value ++ tail) digits acc =
      .ok (some (BitVec.ofNat 32 (acc.toNat * 16 ^ digits + value % 16 ^ digits))) := by
  induction digits generalizing acc with
  | zero => simp [encodeHex, parseHex, Nat.mod_one]
  | succ digits ih =>
    have hd : value / 16 ^ digits % 16 < 16 := Nat.mod_lt _ (by decide)
    have hsum : acc.toNat * 16 ^ (digits + 1) + value % 16 ^ (digits + 1) =
        (acc.toNat * 16 + value / 16 ^ digits % 16) * 16 ^ digits + value % 16 ^ digits := by
      rw [Nat.mod_pow_succ]
      ring
    rw [encodeHex, List.cons_append, parseHex, hexNibble_hexDigit upper hd]
    simp only
    rw [shiftNibble acc hd, ih, hsum]
    congr 2
    apply BitVec.eq_of_toNat_eq
    simp only [BitVec.toNat_ofNat]
    rw [Nat.add_mod, Nat.mod_mul_mod, ← Nat.add_mod]

theorem parseHex_eight (upper : Bool) {value : Nat} (h : value < 2 ^ 32) (tail : Image) :
    parseHex (encodeHex upper 8 value ++ tail) 8 0#32 = .ok (some (BitVec.ofNat 32 value)) := by
  rw [parseHex_encodeHex, Nat.mod_eq_of_lt (show value < 16 ^ 8 by omega)]
  simp

@[simp] theorem length_encodeHex (upper : Bool) (digits value : Nat) :
    (encodeHex upper digits value).length = digits := by
  induction digits with
  | zero => rfl
  | succ digits ih => simp [encodeHex, ih]

/-! ## Paths as strings -/

/-- The path after its leading `./` components. -/
def stripDotSlash : Image → Image
  | c :: d :: path => if c = dot ∧ d = slash then stripDotSlash path else c :: d :: path
  | path => path

/-- The path after its leading `./` components and the slashes that follow them. -/
def normalizedPath (path : Image) : Image :=
  (stripDotSlash path).dropWhile (fun c => c = slash)

variable {a b path tail : Image}

theorem stripDotSlash_suffix (path : Image) : stripDotSlash path <:+ path := by
  fun_induction stripDotSlash path with
  | case1 c d path h ih =>
    exact ih.trans ((List.suffix_cons d path).trans (List.suffix_cons c (d :: path)))
  | case2 c d path h => exact List.suffix_refl _
  | case3 path h => exact List.suffix_refl _

theorem normalizedPath_noNul (h : 0#8 ∉ path) : 0#8 ∉ normalizedPath path := fun hm =>
  h ((stripDotSlash_suffix path).subset ((List.dropWhile_suffix _).subset hm))

theorem skipDotSlash_string (h : 0#8 ∉ path) :
    skipDotSlash (path ++ 0#8 :: tail) = .ok (stripDotSlash path ++ 0#8 :: tail) := by
  fun_induction stripDotSlash path with
  | case1 c d path hcd ih =>
    rw [List.cons_append, List.cons_append, skipDotSlash, if_pos hcd]
    exact ih (fun hm => h (by simp [hm]))
  | case2 c d path hcd => rw [List.cons_append, List.cons_append, skipDotSlash, if_neg hcd]
  | case3 path hshort =>
    match path, hshort with
    | [], _ =>
      cases tail with
      | nil => rfl
      | cons d tail => rfl
    | [c], _ => exact if_neg (fun hcd => absurd hcd.2 (by decide))
    | c :: d :: path, hshort => exact (hshort c d path rfl).elim

theorem skipSlashes_string (h : 0#8 ∉ path) :
    skipSlashes (path ++ 0#8 :: tail) =
      .ok (path.dropWhile (fun c => c = slash) ++ 0#8 :: tail) := by
  induction path with
  | nil => rfl
  | cons c path ih =>
    by_cases hc : c = slash
    · simpa [skipSlashes, hc] using ih (fun hm => h (by simp [hm]))
    · simp [skipSlashes, hc]

theorem normalizeArchivePath_string (h : 0#8 ∉ path) :
    normalizeArchivePath (path ++ 0#8 :: tail) = .ok (normalizedPath path ++ 0#8 :: tail) := by
  have hstrip : 0#8 ∉ stripDotSlash path := fun hm => h ((stripDotSlash_suffix path).subset hm)
  unfold normalizeArchivePath
  rw [skipDotSlash_string h]
  exact skipSlashes_string hstrip

theorem equalStrings_string {s t : Image} (ha : 0#8 ∉ a) (hb : 0#8 ∉ b) :
    equalStrings (a ++ 0#8 :: s) (b ++ 0#8 :: t) = .ok (decide (a = b)) := by
  induction a generalizing b with
  | nil =>
    cases b with
    | nil => rfl
    | cons d b =>
      have hd : 0#8 ≠ d := fun h => hb (by simp [h])
      simp [equalStrings, hd]
  | cons c a ih =>
    have hc : c ≠ 0#8 := fun h => ha (by simp [h])
    cases b with
    | nil => simp [equalStrings, hc]
    | cons d b =>
      by_cases hcd : c = d
      · subst hcd
        have htail := ih (b := b) (fun hm => ha (by simp [hm])) (fun hm => hb (by simp [hm]))
        simpa [equalStrings, hc] using htail
      · simp [equalStrings, hcd]

/-- The path comparison of two terminated strings compares them after normalisation. -/
theorem cpioNewcPathsEqual_string {s t : Image} (ha : 0#8 ∉ a) (hb : 0#8 ∉ b) :
    cpioNewcPathsEqual (a ++ 0#8 :: s) (b ++ 0#8 :: t) =
      .ok (decide (normalizedPath a = normalizedPath b)) := by
  unfold cpioNewcPathsEqual
  rw [normalizeArchivePath_string ha, normalizeArchivePath_string hb]
  exact equalStrings_string (normalizedPath_noNul ha) (normalizedPath_noNul hb)

end Os1.Cpio
