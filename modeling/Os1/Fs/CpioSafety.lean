import Os1.Fs.CpioRoundTrip

/-! Reading an archive of any bytes. -/
namespace Os1.Cpio

open Elf (Image ReadFault)

variable {σ : Type} {archive : Image} {offset : Nat}

/-! ## Reads inside a buffer -/

theorem magicMatches_ok {magic header : Image} (h : magic.length ≤ header.length) :
    ∃ matched, magicMatches magic header = .ok matched := by
  induction magic generalizing header with
  | nil => exact ⟨true, rfl⟩
  | cons m magic ih =>
    cases header with
    | nil => exact absurd h (Nat.not_succ_le_zero _)
    | cons c header =>
      rw [magicMatches]
      split
      · exact ih (Nat.le_of_succ_le_succ h)
      · exact ⟨false, rfl⟩

theorem parseHex_ok {text : Image} {digits : Nat} (h : digits ≤ text.length) (value : BitVec 32) :
    ∃ parsed, parseHex text digits value = .ok parsed := by
  induction digits generalizing text value with
  | zero => exact ⟨some value, by rw [parseHex]⟩
  | succ digits ih =>
    cases text with
    | nil => exact absurd h (Nat.not_succ_le_zero _)
    | cons c text =>
      rw [parseHex]
      split
      · exact ⟨none, rfl⟩
      · exact ih (Nat.le_of_succ_le_succ h) _

theorem readByte_ok {buffer : Image} {i : Nat} (h : i < buffer.length) :
    ∃ c, readByte buffer i = .ok c ∧ buffer[i]? = some c := by
  induction buffer generalizing i with
  | nil => exact absurd h (Nat.not_lt_zero _)
  | cons c buffer ih =>
    cases i with
    | zero => exact ⟨c, rfl, rfl⟩
    | succ i => exact ih (Nat.lt_of_succ_lt_succ h)

/-- A terminator anywhere in a buffer ends the comparison inside it. -/
theorem cpioNewcPathsEqual_ok {name wanted : Image} (hname : 0#8 ∈ name) (hwanted : 0#8 ∈ wanted) :
    ∃ equal, cpioNewcPathsEqual name wanted = .ok equal := by
  obtain ⟨a, s, rfl, ha⟩ := List.eq_append_cons_of_mem hname
  obtain ⟨b, t, rfl, hb⟩ := List.eq_append_cons_of_mem hwanted
  exact ⟨_, cpioNewcPathsEqual_string ha hb⟩

/-! ## One entry -/

/-- The name and the data of an entry whose header is at `offset`, against the sizes its header
declares: the name is terminated, the data follows it, and both are inside the archive. -/
structure EntryFits (archive : Image) (offset : Nat) (file : CpioFile) : Prop where
  name : file.name = offset + headerSize
  terminated : ∃ nameSize : BitVec 32,
    parseHex (archive.drop (offset + namesizeOffset)) 8 0#32 = .ok (some nameSize) ∧
      0 < nameSize.toNat ∧ archive[file.name + (nameSize.toNat - 1)]? = some 0#8 ∧
      file.name + nameSize.toNat ≤ file.data
  size : ∃ fileSize : BitVec 32,
    parseHex (archive.drop (offset + filesizeOffset)) 8 0#32 = .ok (some fileSize) ∧
      file.size = fileSize.toNat
  inside : file.data + file.size ≤ archive.length

/-- A turn that reads inside the archive and reports only entries that fit. -/
def SafeTurn (archive : Image) (offset : Nat) (result : Except ReadFault CpioTurn) : Prop :=
  ∃ turn, result = .ok turn ∧ ∀ mode file fileEnd, turn = .entry mode file fileEnd →
    EntryFits archive offset file ∧ fileEnd = file.data + file.size

theorem SafeTurn.malformed : SafeTurn archive offset (.ok .malformed) := by
  refine ⟨_, rfl, ?_⟩
  intro _ _ _ h
  cases h

theorem SafeTurn.require {α : Type} {value : Option α} {next : α → Except ReadFault CpioTurn}
    (h : ∀ a, value = some a → SafeTurn archive offset (next a)) :
    SafeTurn archive offset (Cpio.require value next) := by
  cases value with
  | none => exact SafeTurn.malformed
  | some a => exact h a rfl

theorem within_eq_some {position : Option Nat} {p : Nat} (h : within archive position = some p) :
    position = some p ∧ p ≤ archive.length := by
  obtain ⟨hp, hle⟩ := Option.filter_eq_some_iff.mp h
  exact ⟨hp, of_decide_eq_true hle⟩

theorem checkedAdd_eq_some {left right sum : Nat} (h : checkedAdd left right = some sum) :
    sum = left + right := by
  unfold checkedAdd at h
  split at h
  · cases h
  · exact (Option.some.inj h).symm

theorem alignUpChecked_le {value aligned : Nat} (h : alignUpChecked value 4 = some aligned) :
    value ≤ aligned := by
  have hfits : value + 3 < 2 ^ 64 := by
    unfold alignUpChecked checkedAdd at h
    rw [if_neg (by decide)] at h
    split at h
    · cases h
    · omega
  rw [alignUpChecked_four hfits] at h
  have := Option.some.inj h
  unfold roundUp4 at this
  omega

theorem SafeTurn.parseHeader {next : BitVec 32 → Nat → Nat → Except ReadFault CpioTurn}
    (hheader : offset + headerSize ≤ archive.length)
    (h : ∀ mode (nameSize fileSize : BitVec 32),
      parseHex (archive.drop (offset + namesizeOffset)) 8 0#32 = .ok (some nameSize) →
      parseHex (archive.drop (offset + filesizeOffset)) 8 0#32 = .ok (some fileSize) →
      SafeTurn archive offset (next mode nameSize.toNat fileSize.toNat)) :
    SafeTurn archive offset (Cpio.parseHeader (archive.drop offset) next) := by
  have hfield {k : Nat} (hk : k + 8 ≤ headerSize) :
      ∃ parsed, parseHex (archive.drop (offset + k)) 8 0#32 = .ok parsed :=
    parseHex_ok (by rw [List.length_drop]; omega) _
  obtain ⟨matched, hmatched⟩ : ∃ matched, magicMatches kCpioNewcMagic (archive.drop offset) =
      .ok matched := magicMatches_ok (by
    rw [List.length_drop]
    have : kCpioNewcMagic.length ≤ headerSize := by decide
    omega)
  obtain ⟨mode, hmode⟩ := hfield (show modeOffset + 8 ≤ headerSize by decide)
  obtain ⟨nameSize, hnameSize⟩ := hfield (show namesizeOffset + 8 ≤ headerSize by decide)
  obtain ⟨fileSize, hfileSize⟩ := hfield (show filesizeOffset + 8 ≤ headerSize by decide)
  unfold Cpio.parseHeader
  simp only [List.drop_drop, hmatched, hmode, hnameSize, hfileSize, Except.bind]
  split
  · exact SafeTurn.malformed
  · refine SafeTurn.require fun mode _ => SafeTurn.require fun nameSize hname =>
      SafeTurn.require fun fileSize hfile => ?_
    exact h mode nameSize fileSize (by rw [hnameSize, hname]) (by rw [hfileSize, hfile])

/-- One turn of the loop reads inside the archive, whatever the archive holds. -/
theorem cpioTurn_safe (archive : Image) (offset : Nat) :
    SafeTurn archive offset (cpioTurn archive offset) := by
  unfold cpioTurn
  refine SafeTurn.require fun headerEnd hheader => ?_
  obtain ⟨hsum, hheaderEnd⟩ := within_eq_some hheader
  obtain rfl := checkedAdd_eq_some hsum
  refine SafeTurn.parseHeader hheaderEnd fun mode nameSize fileSize hnameSize hfileSize => ?_
  split
  · exact SafeTurn.malformed
  next hnonzero =>
    refine SafeTurn.require fun nameEnd hname => ?_
    obtain ⟨hsum, hnameEnd⟩ := within_eq_some hname
    obtain rfl := checkedAdd_eq_some hsum
    obtain ⟨last, hread, hlast⟩ : ∃ c, readByte (archive.drop (offset + headerSize))
        (nameSize.toNat - 1) = .ok c ∧
        (archive.drop (offset + headerSize))[nameSize.toNat - 1]? = some c :=
      readByte_ok (by rw [List.length_drop]; omega)
    simp only [hread, Except.bind]
    split
    · exact SafeTurn.malformed
    next hzero =>
      obtain rfl := not_not.mp hzero
      have hmem := List.mem_of_getElem? hlast
      rw [List.getElem?_drop] at hlast
      refine SafeTurn.require fun fileOffset hfile => SafeTurn.require fun fileEnd hend => ?_
      obtain ⟨haligned, hfileOffset⟩ := within_eq_some hfile
      obtain ⟨hsum, hfileEnd⟩ := within_eq_some hend
      obtain rfl := checkedAdd_eq_some hsum
      obtain ⟨equal, hequal⟩ := cpioNewcPathsEqual_ok hmem
        (show 0#8 ∈ trailerName ++ [0#8] by decide)
      rw [hequal]
      simp only [Except.map]
      refine ⟨_, rfl, fun mode' file fileEnd heq => ?_⟩
      split at heq
      · cases heq
      · cases heq
        exact ⟨⟨rfl, ⟨nameSize, hnameSize, by omega, hlast, alignUpChecked_le haligned⟩,
          ⟨fileSize, hfileSize, rfl⟩, hfileEnd⟩, rfl⟩

/-! ## The loop -/

/-- The body of the loop: either the offset and context of the next turn, or the result. -/
def loopTurn (archive : Image) (visitor : CpioNewcFileVisitor σ) (offset : Nat) (context : σ) :
    Except ReadFault ((Nat × σ) ⊕ (Bool × σ)) :=
  (cpioTurn archive offset).bind fun
    | .malformed => .ok (.inr (false, context))
    | .trailer => .ok (.inr (true, context))
    | .entry mode file fileEnd =>
      (if isRegularEntry mode then visitor file context else .ok (true, context)).bind fun
        | (false, context) => .ok (.inr (false, context))
        | (true, context) =>
          match alignUpChecked fileEnd 4 with
          | none => .ok (.inr (false, context))
          | some nextOffset =>
            if nextOffset ≤ offset then .ok (.inr (false, context))
            else .ok (.inl (nextOffset, context))

/-- The loop of the source, without a bound on its turns, ends with a result. -/
inductive Ends (archive : Image) (visitor : CpioNewcFileVisitor σ) : Nat → σ → Bool × σ → Prop
  | past {offset : Nat} {context : σ} (h : ¬ offset ≤ archive.length) :
      Ends archive visitor offset context (false, context)
  | returns {offset : Nat} {context : σ} {result : Bool × σ} (h : offset ≤ archive.length)
      (hturn : loopTurn archive visitor offset context = .ok (.inr result)) :
      Ends archive visitor offset context result
  | again {offset next : Nat} {context context' : σ} {result : Bool × σ}
      (h : offset ≤ archive.length)
      (hturn : loopTurn archive visitor offset context = .ok (.inl (next, context')))
      (hrest : Ends archive visitor next context' result) :
      Ends archive visitor offset context result

theorem forEachFrom_succ (visitor : CpioNewcFileVisitor σ) (fuel offset : Nat) (context : σ) :
    forEachFrom archive visitor (fuel + 1) offset context =
      if offset ≤ archive.length then
        (loopTurn archive visitor offset context).bind
          (Sum.elim (fun next => forEachFrom archive visitor fuel next.1 next.2) .ok)
      else .ok (false, context) := by
  rw [forEachFrom, loopTurn]
  refine if_congr Iff.rfl ?_ rfl
  cases cpioTurn archive offset with
  | error e => rfl
  | ok turn =>
    cases turn with
    | malformed => rfl
    | trailer => rfl
    | entry mode file fileEnd =>
      simp only [Except.bind]
      generalize (if isRegularEntry mode then visitor file context else .ok (true, context)) = r
      cases r with
      | error e => rfl
      | ok r =>
        obtain ⟨_ | _, context⟩ := r
        · rfl
        · simp only
          cases alignUpChecked fileEnd 4 with
          | none => rfl
          | some next =>
            simp only
            split <;> rfl

/-! ## What the visitor is given -/

/-- A visitor that also keeps the files it was called with. -/
def logged (visit : CpioFile → σ → Bool × σ) : CpioNewcFileVisitor (σ × List CpioFile) :=
  fun file context =>
    .ok ((visit file context.1).1, (visit file context.1).2, context.2 ++ [file])

/-- One entry ends before the header of another starts. -/
def Precedes (file file' : CpioFile) : Prop := file.data + file.size + headerSize ≤ file'.name

/-- Files that fit, one after the other, and end before `offset`. -/
structure Visited (archive : Image) (offset : Nat) (files : List CpioFile) : Prop where
  fits (file : CpioFile) (hfile : file ∈ files) : ∃ start, EntryFits archive start file
  before (file : CpioFile) (hfile : file ∈ files) : file.data + file.size ≤ offset
  ordered : files.Pairwise Precedes

theorem Visited.nil : Visited archive offset [] where
  fits file hfile := absurd hfile List.not_mem_nil
  before file hfile := absurd hfile List.not_mem_nil
  ordered := List.Pairwise.nil

theorem Visited.mono {files : List CpioFile} {next : Nat} (h : Visited archive offset files)
    (hle : offset ≤ next) : Visited archive next files :=
  ⟨h.fits, fun file hfile => Nat.le_trans (h.before file hfile) hle, h.ordered⟩

theorem Visited.append {files : List CpioFile} {file : CpioFile}
    (h : Visited archive offset files) (hfits : EntryFits archive offset file) :
    Visited archive (file.data + file.size) (files ++ [file]) := by
  obtain ⟨nameSize, -, -, -, hdata⟩ := hfits.terminated
  have hname := hfits.name
  refine ⟨fun file' hfile => ?_, fun file' hfile => ?_, ?_⟩
  · rcases List.mem_append.mp hfile with hold | hnew
    · exact h.fits file' hold
    · obtain rfl := List.mem_singleton.mp hnew
      exact ⟨offset, hfits⟩
  · rcases List.mem_append.mp hfile with hold | hnew
    · have := h.before file' hold
      omega
    · obtain rfl := List.mem_singleton.mp hnew
      exact Nat.le_refl _
  · refine List.pairwise_append.mpr ⟨h.ordered, List.pairwise_singleton _ _, fun a ha b hb => ?_⟩
    obtain rfl := List.mem_singleton.mp hb
    have := h.before a ha
    unfold Precedes
    omega

/-- The visitor is called for regular files only. -/
theorem visit_logged (visit : CpioFile → σ → Bool × σ) (context : σ) {files : List CpioFile}
    {file : CpioFile} (mode : BitVec 32) (h : Visited archive offset files)
    (hfits : EntryFits archive offset file) :
    ∃ go context' files',
      (if isRegularEntry mode then logged visit file (context, files)
        else .ok (true, context, files)) = .ok (go, context', files') ∧
      Visited archive (file.data + file.size) files' := by
  obtain ⟨nameSize, -, -, -, hdata⟩ := hfits.terminated
  have hname := hfits.name
  split
  · exact ⟨_, _, _, rfl, h.append hfits⟩
  · exact ⟨_, _, _, rfl, h.mono (by omega)⟩

/-- A turn either ends the loop or goes on behind the entry it has read. -/
theorem loopTurn_logged (visit : CpioFile → σ → Bool × σ) (context : σ) {files : List CpioFile}
    (h : Visited archive offset files) :
    (∃ result context' files',
      loopTurn archive (logged visit) offset (context, files) =
        .ok (.inr (result, context', files')) ∧ ∃ stop, Visited archive stop files') ∨
    ∃ next context' files',
      loopTurn archive (logged visit) offset (context, files) =
        .ok (.inl (next, context', files')) ∧ offset < next ∧ Visited archive next files' := by
  obtain ⟨turn, hturn, hentry⟩ := cpioTurn_safe archive offset
  unfold loopTurn
  rw [hturn]
  simp only [Except.bind]
  cases turn with
  | malformed => exact Or.inl ⟨false, context, files, rfl, offset, h⟩
  | trailer => exact Or.inl ⟨true, context, files, rfl, offset, h⟩
  | entry mode file fileEnd =>
    obtain ⟨hfits, rfl⟩ := hentry mode file fileEnd rfl
    obtain ⟨go, context', files', hvisit, hvisited⟩ := visit_logged visit context mode h hfits
    simp only [hvisit]
    cases go with
    | false => exact Or.inl ⟨false, context', files', rfl, _, hvisited⟩
    | true =>
      simp only
      cases hnext : alignUpChecked (file.data + file.size) 4 with
      | none => exact Or.inl ⟨false, context', files', rfl, _, hvisited⟩
      | some next =>
        simp only
        split
        · exact Or.inl ⟨false, context', files', rfl, _, hvisited⟩
        next hlt =>
          exact Or.inr ⟨next, context', files', rfl, Nat.not_le.mp hlt,
            hvisited.mono (alignUpChecked_le hnext)⟩

/-- The traversal of any archive with any visitor. -/
theorem forEachFrom_logged (visit : CpioFile → σ → Bool × σ) {fuel : Nat} {context : σ}
    {files : List CpioFile} (hfuel : archive.length < offset + fuel)
    (h : Visited archive offset files) :
    ∃ result context' files',
      forEachFrom archive (logged visit) fuel offset (context, files) =
        .ok (result, context', files') ∧
      Ends archive (logged visit) offset (context, files) (result, context', files') ∧
      ∃ stop, Visited archive stop files' := by
  induction fuel generalizing offset context files with
  | zero => exact ⟨false, context, files, rfl, .past (by omega), offset, h⟩
  | succ fuel ih =>
    rw [forEachFrom_succ]
    by_cases hinside : offset ≤ archive.length
    · rw [if_pos hinside]
      obtain ⟨result, context', files', hturn, hvisited⟩ |
        ⟨next, context', files', hturn, hlt, hvisited⟩ := loopTurn_logged visit context h
      · rw [hturn]
        exact ⟨result, context', files', rfl, .returns hinside hturn, hvisited⟩
      · obtain ⟨result, context'', files'', hrest, hends, hfinal⟩ :=
          @ih next context' files' (by omega) hvisited
        rw [hturn]
        exact ⟨result, context'', files'', hrest, .again hinside hturn hends, hfinal⟩
    · rw [if_neg hinside]
      exact ⟨false, context, files, rfl, .past hinside, offset, h⟩

/-- Every byte string is read safely: the loop ends, no read is outside the archive, the visitor
gets names and data inside it and in the archive's order, and comparing paths reads no byte behind
a terminator. -/
theorem traversal_safe (archive : Image) (visit : CpioFile → σ → Bool × σ) (context : σ) :
    (∃ result context' files,
      forEachCpioNewcFile archive (logged visit) (context, []) = .ok (result, context', files) ∧
      Ends archive (logged visit) 0 (context, []) (result, context', files) ∧
      (∀ file ∈ files, ∃ start, EntryFits archive start file) ∧ files.Pairwise Precedes) ∧
    ∀ a b s t : Image, 0#8 ∉ a → 0#8 ∉ b → ∃ equal,
      cpioNewcPathsEqual (a ++ [0#8]) (b ++ [0#8]) = .ok equal ∧
      cpioNewcPathsEqual (a ++ 0#8 :: s) (b ++ 0#8 :: t) = .ok equal := by
  constructor
  · obtain ⟨result, context', files, hrun, hends, stop, hvisited⟩ :=
      forEachFrom_logged visit (show archive.length < 0 + (archive.length + 1) by omega)
        (Visited.nil : Visited archive 0 [])
    exact ⟨result, context', files, hrun, hends, hvisited.fits, hvisited.ordered⟩
  · intro a b s t ha hb
    exact ⟨_, cpioNewcPathsEqual_string ha hb, cpioNewcPathsEqual_string ha hb⟩

end Os1.Cpio
