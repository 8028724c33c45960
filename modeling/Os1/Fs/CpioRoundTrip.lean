import Os1.Fs.CpioEncode

/-! The traversal of an encoded archive visits its regular entries in order. -/
namespace Os1.Cpio

open Elf (Image ReadFault)

variable {archive tail : Image} {e : CpioEntry} {offset : Nat} {upper : Bool}

/-! ## Layout of an entry -/

def roundUp4 (n : Nat) : Nat := (n + 3) / 4 * 4

namespace CpioEntry

/-- Where the data starts, counted from the start of the entry. -/
def dataStart (e : CpioEntry) : Nat := roundUp4 (headerSize + (e.name.length + 1))

def entrySize (e : CpioEntry) : Nat := roundUp4 (e.dataStart + e.data.length)

/-- What the visitor is given for an entry at `offset`. -/
def fileAt (e : CpioEntry) (offset : Nat) : CpioFile :=
  ⟨offset + headerSize, offset + e.dataStart, e.data.length⟩

def regular (e : CpioEntry) : Bool := isRegularEntry e.mode

theorem headerSize_le_entrySize (e : CpioEntry) : headerSize ≤ e.entrySize := by
  unfold entrySize dataStart roundUp4
  omega

theorem entrySize_pos (e : CpioEntry) : 0 < e.entrySize :=
  Nat.lt_of_lt_of_le (by decide) e.headerSize_le_entrySize

end CpioEntry

theorem length_padding (n : Nat) : (padding n).length = (4 - n % 4) % 4 := List.length_replicate

theorem length_flatMap_encodeHex (upper : Bool) (numbers : List Nat) :
    (numbers.flatMap (encodeHex upper 8)).length = 8 * numbers.length := by
  induction numbers with
  | nil => rfl
  | cons n numbers ih =>
    rw [List.flatMap_cons, List.length_append, ih, length_encodeHex, List.length_cons]
    omega

theorem length_encodeHeader (upper : Bool) (e : CpioEntry) :
    (encodeHeader upper e).length = headerSize := by
  rw [encodeHeader, List.length_append, length_flatMap_encodeHex]
  rfl

/-- The number with index `k` starts `8 * k` bytes after the magic. -/
theorem drop_encodeHeader (upper : Bool) (e : CpioEntry) (tail : Image) {k : Nat}
    (hk : k ≤ e.numbers.length) :
    (encodeHeader upper e ++ tail).drop (6 + 8 * k) =
      (e.numbers.drop k).flatMap (encodeHex upper 8) ++ tail := by
  have hsplit : encodeHeader upper e ++ tail =
      (kCpioNewcMagic ++ (e.numbers.take k).flatMap (encodeHex upper 8)) ++
        ((e.numbers.drop k).flatMap (encodeHex upper 8) ++ tail) := by
    unfold encodeHeader
    conv_lhs => rw [← List.take_append_drop k e.numbers]
    simp only [List.flatMap_append, List.append_assoc]
  rw [hsplit]
  apply List.drop_left'
  rw [List.length_append, length_flatMap_encodeHex, List.length_take, Nat.min_eq_left hk]
  rfl

theorem magicMatches_append (magic tail : Image) :
    magicMatches magic (magic ++ tail) = .ok true := by
  induction magic with
  | nil => rfl
  | cons m magic ih => simpa [magicMatches] using ih

theorem parseHeader_encodeHeader (upper : Bool) (e : CpioEntry) (tail : Image)
    (next : BitVec 32 → Nat → Nat → Except ReadFault CpioTurn) :
    parseHeader (encodeHeader upper e ++ tail) next =
      next e.mode (e.name.length + 1) e.data.length := by
  have hmagic : magicMatches kCpioNewcMagic (encodeHeader upper e ++ tail) = .ok true := by
    rw [encodeHeader, List.append_assoc]
    exact magicMatches_append _ _
  -- Each field is the first of the numbers left after skipping those before it.
  have hfield : ∀ {k value : Nat} {rest : List Nat}, e.numbers.drop k = value :: rest →
      value < 2 ^ 32 → parseHex ((encodeHeader upper e ++ tail).drop (6 + 8 * k)) 8 0#32 =
        .ok (some (BitVec.ofNat 32 value)) := by
    intro k value rest hdrop hvalue
    have hk : k ≤ e.numbers.length := by
      by_contra hlt
      rw [List.drop_eq_nil_of_le (by omega)] at hdrop
      simp at hdrop
    rw [drop_encodeHeader upper e tail hk, hdrop, List.flatMap_cons, List.append_assoc]
    exact parseHex_eight upper hvalue _
  have hmode := hfield (k := 1) rfl e.mode.isLt
  have hname := hfield (k := 11) rfl e.nameFits
  have hdata := hfield (k := 6) rfl e.dataFits
  have hnameNat : (BitVec.ofNat 32 (e.name.length + 1)).toNat = e.name.length + 1 :=
    Nat.mod_eq_of_lt e.nameFits
  have hdataNat : (BitVec.ofNat 32 e.data.length).toNat = e.data.length :=
    Nat.mod_eq_of_lt e.dataFits
  unfold parseHeader modeOffset namesizeOffset filesizeOffset
  rw [hmagic, hmode, hname, hdata]
  simp only [Except.bind, require, BitVec.ofNat_toNat, BitVec.setWidth_eq, hnameNat, hdataNat]
  rfl

theorem length_encodeEntry (upper : Bool) (e : CpioEntry) :
    (encodeEntry upper e).length = e.entrySize := by
  simp only [encodeEntry, List.length_append, List.length_cons, length_encodeHeader,
    length_padding, CpioEntry.entrySize, CpioEntry.dataStart, roundUp4]
  omega

/-- The archive holds the encoding of `e` at `offset`, on a four-byte boundary. -/
structure EntryAt (upper : Bool) (archive : Image) (offset : Nat) (e : CpioEntry)
    (tail : Image) : Prop where
  bytes : archive.drop offset = encodeEntry upper e ++ tail
  aligned : offset % 4 = 0
  fits : archive.length < 2 ^ 64

namespace EntryAt

variable (h : EntryAt upper archive offset e tail)
include h

theorem stop_le : offset + e.entrySize ≤ archive.length := by
  have hlen := congrArg List.length h.bytes
  have hpos := e.entrySize_pos
  rw [List.length_drop, List.length_append, length_encodeEntry] at hlen
  omega

theorem next : archive.drop (offset + e.entrySize) = tail := by
  rw [← List.drop_drop, h.bytes]
  exact List.drop_left' (length_encodeEntry upper e)

theorem name_bytes : ∃ t, archive.drop (offset + headerSize) = e.name ++ 0#8 :: t := by
  rw [← List.drop_drop, h.bytes, encodeEntry, List.append_assoc, List.append_assoc,
    List.drop_left' (length_encodeHeader upper e), List.append_assoc]
  exact ⟨_, rfl⟩

theorem data_bytes : ∃ t, archive.drop (offset + e.dataStart) = e.data ++ t := by
  have hstart : (encodeHeader upper e ++
      (e.name ++ 0#8 :: padding (headerSize + (e.name.length + 1)))).length = e.dataStart := by
    simp only [List.length_append, List.length_cons, length_encodeHeader, length_padding,
      CpioEntry.dataStart, roundUp4]
    omega
  rw [← List.drop_drop, h.bytes, encodeEntry, List.append_assoc, List.drop_left' hstart,
    List.append_assoc]
  exact ⟨_, rfl⟩

end EntryAt

theorem readByte_append (before : Image) (c : BitVec 8) (tail : Image) :
    readByte (before ++ c :: tail) before.length = .ok c := by
  induction before with
  | nil => rfl
  | cons b before ih => exact ih

theorem within_checkedAdd {left right : Nat} (h : left + right ≤ archive.length)
    (hfits : archive.length < 2 ^ 64) :
    within archive (checkedAdd left right) = some (left + right) := by
  unfold within checkedAdd
  rw [if_neg (by omega)]
  simp [Option.filter, h]

theorem alignUpChecked_four {value : Nat} (h : value + 3 < 2 ^ 64) :
    alignUpChecked value 4 = some (roundUp4 value) := by
  unfold alignUpChecked checkedAdd
  rw [if_neg (by decide), if_neg (by omega)]
  exact congrArg some (alignDown_eq (k := 2) (by decide) h)

theorem normalizedPath_trailerName : normalizedPath trailerName = trailerName := by decide

/-- The turn at an encoded entry passes every check and ends at the trailer only. -/
theorem cpioTurn_encoded (h : EntryAt upper archive offset e tail) :
    cpioTurn archive offset = .ok (if normalizedPath e.name = trailerName then .trailer
      else .entry e.mode (e.fileAt offset) (offset + e.dataStart + e.data.length)) := by
  have hstop := h.stop_le
  have hal := h.aligned
  have hfits := h.fits
  have hdata : headerSize + (e.name.length + 1) ≤ e.dataStart := by
    unfold CpioEntry.dataStart roundUp4
    omega
  have hsize : e.dataStart + e.data.length ≤ e.entrySize := by
    unfold CpioEntry.entrySize roundUp4
    omega
  obtain ⟨t, hname⟩ := h.name_bytes
  have hheader : ∃ t, archive.drop offset = encodeHeader upper e ++ t := by
    rw [h.bytes, encodeEntry, List.append_assoc, List.append_assoc]
    exact ⟨_, rfl⟩
  obtain ⟨t', hheader⟩ := hheader
  have hstart : roundUp4 (offset + headerSize + (e.name.length + 1)) = offset + e.dataStart := by
    unfold CpioEntry.dataStart roundUp4
    omega
  have hfile : within archive (alignUpChecked (offset + headerSize + (e.name.length + 1)) 4) =
      some (offset + e.dataStart) := by
    rw [alignUpChecked_four (by unfold roundUp4 at hstart; omega), hstart]
    have hle : offset + e.dataStart ≤ archive.length := by omega
    simp [within, Option.filter, hle]
  have hequal := cpioNewcPathsEqual_string (s := t) (t := []) e.noNul
    (show 0#8 ∉ trailerName by decide)
  rw [normalizedPath_trailerName] at hequal
  unfold cpioTurn
  rw [within_checkedAdd (by omega) hfits]
  simp only [require]
  rw [hheader, parseHeader_encodeHeader, if_neg (by omega),
    within_checkedAdd (by omega) hfits]
  simp only [hname, Nat.add_sub_cancel]
  rw [readByte_append]
  simp only [Except.bind, ne_eq, not_true_eq_false, if_false, hfile]
  rw [within_checkedAdd (by omega) hfits]
  simp only [hequal, Except.map, decide_eq_true_eq]
  rfl

/-! ## The whole archive -/

variable {σ : Type}

/-- The files that a traversal from `offset` passes to the visitor. -/
def filesFrom (offset : Nat) : List CpioEntry → List CpioFile
  | [] => []
  | e :: entries =>
    (if e.regular then [e.fileAt offset] else []) ++ filesFrom (offset + e.entrySize) entries

/-- Visit files in order until the visitor stops. -/
def visitAll (visitor : CpioNewcFileVisitor σ) : List CpioFile → σ → Except ReadFault (Bool × σ)
  | [], context => .ok (true, context)
  | file :: files, context =>
    (visitor file context).bind fun
      | (false, context) => .ok (false, context)
      | (true, context) => visitAll visitor files context

/-- The name and the data that a visited file shows. -/
def seen (archive : Image) (file : CpioFile) : Image × Image :=
  ((archive.drop file.name).takeWhile (fun c => c ≠ 0#8), (archive.drop file.data).take file.size)

theorem takeWhile_string {path : Image} (h : 0#8 ∉ path) (tail : Image) :
    (path ++ 0#8 :: tail).takeWhile (fun c => c ≠ 0#8) = path := by
  induction path with
  | nil => rfl
  | cons c path ih =>
    have hc : c ≠ 0#8 := fun hz => h (by simp [hz])
    rw [List.cons_append, List.takeWhile_cons, if_pos (by simpa using hc),
      ih (fun hm => h (by simp [hm]))]

theorem EntryAt.seen (h : EntryAt upper archive offset e tail) :
    seen archive (e.fileAt offset) = (e.name, e.data) := by
  obtain ⟨t, hname⟩ := h.name_bytes
  obtain ⟨t', hdata⟩ := h.data_bytes
  simp only [Cpio.seen, CpioEntry.fileAt, hname, hdata, takeWhile_string e.noNul,
    List.take_left']

/-- The archive holds the encoded entries and a trailer from `offset` on. -/
structure ArchiveAt (upper : Bool) (archive : Image) (offset : Nat) (entries : List CpioEntry)
    (last : CpioHeaderRest) (rest : Image) : Prop where
  bytes : archive.drop offset = encodeArchive upper entries last ++ rest
  aligned : offset % 4 = 0
  fits : archive.length < 2 ^ 64

variable {entries : List CpioEntry} {last : CpioHeaderRest} {rest : Image}

theorem ArchiveAt.trailer (h : ArchiveAt upper archive offset [] last rest) :
    EntryAt upper archive offset (trailerEntry last) rest := by
  refine ⟨?_, h.aligned, h.fits⟩
  rw [h.bytes, encodeArchive, List.nil_append, List.flatMap_singleton]

theorem ArchiveAt.head (h : ArchiveAt upper archive offset (e :: entries) last rest) :
    EntryAt upper archive offset e (encodeArchive upper entries last ++ rest) := by
  refine ⟨?_, h.aligned, h.fits⟩
  rw [h.bytes, encodeArchive, List.cons_append, List.flatMap_cons, List.append_assoc]
  rfl

theorem ArchiveAt.next (h : ArchiveAt upper archive offset (e :: entries) last rest) :
    ArchiveAt upper archive (offset + e.entrySize) entries last rest := by
  have hal := h.aligned
  refine ⟨h.head.next, ?_, h.fits⟩
  unfold CpioEntry.entrySize roundUp4
  omega

theorem ArchiveAt.length_le (h : ArchiveAt upper archive offset entries last rest) :
    offset + entries.length ≤ archive.length := by
  induction entries generalizing offset with
  | nil =>
    have := h.trailer.stop_le
    simp only [List.length_nil]
    omega
  | cons e entries ih =>
    have hnext := ih h.next
    have hpos := e.entrySize_pos
    simp only [List.length_cons]
    omega

theorem filesFrom_seen (h : ArchiveAt upper archive offset entries last rest) :
    (filesFrom offset entries).map (seen archive) =
      (entries.filter CpioEntry.regular).map fun e => (e.name, e.data) := by
  induction entries generalizing offset with
  | nil => rfl
  | cons e entries ih =>
    rw [filesFrom, List.map_append, ih h.next, List.filter_cons]
    split
    · simp [h.head.seen]
    · rfl

/-- The loop over encoded entries visits the regular ones and stops at the trailer. -/
theorem forEachFrom_encoded (visitor : CpioNewcFileVisitor σ)
    (hnames : ∀ e ∈ entries, normalizedPath e.name ≠ trailerName)
    (h : ArchiveAt upper archive offset entries last rest) {fuel : Nat}
    (hfuel : entries.length < fuel) (context : σ) :
    forEachFrom archive visitor fuel offset context =
      visitAll visitor (filesFrom offset entries) context := by
  induction entries generalizing offset fuel context with
  | nil =>
    obtain ⟨fuel, rfl⟩ : ∃ n, fuel = n + 1 := ⟨fuel - 1, by omega⟩
    have hstop := h.trailer.stop_le
    unfold forEachFrom
    rw [if_pos (by omega), cpioTurn_encoded h.trailer,
      if_pos (show normalizedPath (trailerEntry last).name = _ from normalizedPath_trailerName)]
    rfl
  | cons e entries ih =>
    obtain ⟨fuel, rfl⟩ : ∃ n, fuel = n + 1 := ⟨fuel - 1, by omega⟩
    have hstop := h.head.stop_le
    have hal := h.aligned
    have hfits := h.fits
    have hsize := e.entrySize_pos
    have hend : roundUp4 (offset + e.dataStart + e.data.length) = offset + e.entrySize := by
      unfold CpioEntry.entrySize roundUp4
      omega
    have hnext : alignUpChecked (offset + e.dataStart + e.data.length) 4 =
        some (offset + e.entrySize) := by
      rw [alignUpChecked_four (by unfold roundUp4 at hend; omega), hend]
    have hgo := fun context => ih (fun c hc => hnames c (List.mem_cons_of_mem e hc)) h.next
      (show entries.length < fuel by simp only [List.length_cons] at hfuel; omega) context
    unfold forEachFrom
    rw [if_pos (by omega), cpioTurn_encoded h.head,
      if_neg (hnames e (List.mem_cons_self ..)), filesFrom]
    simp only [Except.bind, hnext, if_neg (show ¬ offset + e.entrySize ≤ offset by omega), hgo]
    by_cases hr : e.regular = true
    · rw [if_pos (show isRegularEntry e.mode = true from hr), if_pos hr]
      rfl
    · rw [if_neg (show ¬ isRegularEntry e.mode = true from hr), if_neg hr]
      rfl

theorem forEachCpioNewcFile_encoded (visitor : CpioNewcFileVisitor σ)
    (hnames : ∀ e ∈ entries, normalizedPath e.name ≠ trailerName)
    (h : ArchiveAt upper archive 0 entries last rest) (context : σ) :
    forEachCpioNewcFile archive visitor context =
      visitAll visitor (filesFrom 0 entries) context := by
  have hcount := h.length_le
  exact forEachFrom_encoded visitor hnames h (by omega) context

end Os1.Cpio
