import Os1.Fs.CpioRoundTrip

/-!
# Initial RAM disk

The boot information is bound once; its first module is the archive.
-/

namespace Os1.Initrd

open Elf (Image ReadFault)
open Cpio

/-- The part of `BootInfo` that the initrd reads: the bytes of each boot module. -/
structure BootInfo where
  modules : List Image

/-- What the lookup has found: where the data starts in the archive, and its size. -/
abbrev InitrdLookup := Option (Nat × Nat)

def matchInitrdFile (archive path : Image) : CpioNewcFileVisitor InitrdLookup :=
  fun file lookup =>
    (cpioNewcPathsEqual (archive.drop file.name) path).map fun equal =>
      if !equal then (true, lookup) else (false, some (file.data, file.size))

/-- `gBootInfo` is `none` before `bind_initrd_boot_info`. -/
def forEachInitrdFile {σ : Type} (gBootInfo : Option BootInfo)
    (visitor : Image → CpioNewcFileVisitor σ) (context : σ) : Except ReadFault (Bool × σ) :=
  match gBootInfo with
  | none => .ok (false, context)
  | some info =>
    match info.modules with
    | [] => .ok (false, context)
    | archive :: _ => forEachCpioNewcFile archive (visitor archive) context

def findInitrdFile (gBootInfo : Option BootInfo) (path : Image) : Except ReadFault InitrdLookup :=
  (forEachInitrdFile gBootInfo (fun archive => matchInitrdFile archive path) none).map fun r => r.2

variable {archive rest wanted tail : Image} {entries : List CpioEntry} {last : CpioHeaderRest}
  {upper : Bool} {offset : Nat}

/-- The bytes a lookup result names. -/
def fileBytes (archive : Image) (found : Nat × Nat) : Image := (archive.drop found.1).take found.2

/-- The entry's name is the wanted path after normalisation. -/
def Matches (wanted : Image) (e : CpioEntry) : Prop :=
  e.regular = true ∧ normalizedPath e.name = normalizedPath wanted

instance (wanted : Image) (e : CpioEntry) : Decidable (Matches wanted e) :=
  inferInstanceAs (Decidable (_ ∧ _))

theorem matchInitrdFile_fileAt {e : CpioEntry} {t : Image} (hwanted : 0#8 ∉ wanted)
    (h : EntryAt upper archive offset e t) (lookup : InitrdLookup) :
    matchInitrdFile archive (wanted ++ 0#8 :: tail) (e.fileAt offset) lookup =
      .ok (if normalizedPath e.name = normalizedPath wanted then
        (false, some (offset + e.dataStart, e.data.length)) else (true, lookup)) := by
  obtain ⟨t, hname⟩ := h.name_bytes
  unfold matchInitrdFile
  rw [show (e.fileAt offset).name = offset + headerSize from rfl, hname,
    cpioNewcPathsEqual_string e.noNul hwanted]
  by_cases he : normalizedPath e.name = normalizedPath wanted
  · rw [decide_eq_true he, if_pos he]
    rfl
  · rw [decide_eq_false he, if_neg he]
    rfl

/-- The lookup over the files of an archive finds the first matching entry. -/
theorem visitAll_matchInitrdFile (tail : Image) (hwanted : 0#8 ∉ wanted)
    (h : ArchiveAt upper archive offset entries last rest) :
    ∃ r, visitAll (matchInitrdFile archive (wanted ++ 0#8 :: tail)) (filesFrom offset entries)
        none = .ok r ∧
      r.2.map (fileBytes archive) =
        (entries.find? (fun e => Matches wanted e)).map CpioEntry.data := by
  induction entries generalizing offset with
  | nil => exact ⟨(true, none), rfl, rfl⟩
  | cons e entries ih =>
    obtain ⟨r, hr, hfound⟩ := ih h.next
    rw [filesFrom, List.find?_cons]
    by_cases hreg : e.regular = true
    · rw [if_pos hreg, List.singleton_append, visitAll, matchInitrdFile_fileAt hwanted h.head]
      by_cases he : normalizedPath e.name = normalizedPath wanted
      · have hm : Matches wanted e := ⟨hreg, he⟩
        obtain ⟨t, hdata⟩ := h.head.data_bytes
        rw [if_pos he]
        refine ⟨_, rfl, ?_⟩
        simp [hm, fileBytes, hdata]
      · have hm : ¬ Matches wanted e := fun hm => he hm.2
        rw [if_neg he]
        refine ⟨r, hr, ?_⟩
        simpa [hm] using hfound
    · have hm : ¬ Matches wanted e := fun hm => hreg hm.1
      rw [if_neg hreg, List.nil_append]
      refine ⟨r, hr, ?_⟩
      simpa [hm] using hfound

theorem visitAll_continue {σ : Type} (visit : CpioFile → σ → σ) (files : List CpioFile)
    (context : σ) :
    visitAll (fun file context => .ok (true, visit file context)) files context =
      .ok (true, files.foldl (fun context file => visit file context) context) := by
  induction files generalizing context with
  | nil => rfl
  | cons file files ih => exact ih (visit file context)

/-- A traversal of an encoded archive that never stops shows exactly the regular entries in
order. A lookup gives the data of the first regular entry with the wanted path. -/
theorem encoded_archive_read_back (entries : List CpioEntry) (last : CpioHeaderRest)
    (rest : Image) (modules : List Image)
    (hnames : ∀ e ∈ entries, normalizedPath e.name ≠ trailerName)
    (hsize : (encodeArchive upper entries last ++ rest).length < 2 ^ 64) :
    let archive := encodeArchive upper entries last ++ rest
    (∃ files : List CpioFile,
      files.map (seen archive) =
        (entries.filter CpioEntry.regular).map (fun e => (e.name, e.data)) ∧
      ∀ {σ : Type} (visit : CpioFile → σ → σ) (context : σ),
        forEachCpioNewcFile archive (fun file context => .ok (true, visit file context)) context =
          .ok (true, files.foldl (fun context file => visit file context) context)) ∧
    ∀ wanted tail : Image, 0#8 ∉ wanted →
      (findInitrdFile (some ⟨archive :: modules⟩) (wanted ++ 0#8 :: tail)).map
          (fun found => found.map (fileBytes archive)) =
        .ok ((entries.find? (fun e => Matches wanted e)).map CpioEntry.data) := by
  intro archive
  have h : ArchiveAt upper archive 0 entries last rest := ⟨rfl, rfl, hsize⟩
  refine ⟨⟨filesFrom 0 entries, filesFrom_seen h, ?_⟩, ?_⟩
  · intro σ visit context
    rw [forEachCpioNewcFile_encoded _ hnames h, visitAll_continue]
  · intro wanted tail hwanted
    obtain ⟨r, hr, hfound⟩ := visitAll_matchInitrdFile tail hwanted h
    unfold findInitrdFile forEachInitrdFile
    simp only [forEachCpioNewcFile_encoded _ hnames h, hr, Except.map, hfound]

def blankHeader : CpioHeaderRest := ⟨0, 0, 0, 1, 0, 0, 0, 0, 0, 0⟩

theorem bin_noNul : 0#8 ∉ [0x62#8, 0x69#8, 0x6E#8] := by decide

theorem binSh_noNul : 0#8 ∉ [0x2E#8, 0x2F#8, 0x62#8, 0x69#8, 0x6E#8, 0x2F#8, 0x73#8, 0x68#8] := by
  decide

theorem bin_fits : [0x62#8, 0x69#8, 0x6E#8].length + 1 < 2 ^ 32 := by decide

theorem binSh_fits :
    [0x2E#8, 0x2F#8, 0x62#8, 0x69#8, 0x6E#8, 0x2F#8, 0x73#8, 0x68#8].length + 1 < 2 ^ 32 := by
  decide

theorem noData_fits : ([] : Image).length < 2 ^ 32 := by decide

theorem twoBytes_fit : [0x7F#8, 0x45#8].length < 2 ^ 32 := by decide

/-- A directory `bin` and the file `./bin/sh` with two bytes. -/
def twoEntries : List CpioEntry :=
  [⟨[0x62#8, 0x69#8, 0x6E#8], 0x41ED#32, [], blankHeader, bin_noNul, bin_fits, noData_fits⟩,
    ⟨[0x2E#8, 0x2F#8, 0x62#8, 0x69#8, 0x6E#8, 0x2F#8, 0x73#8, 0x68#8], 0x81ED#32,
      [0x7F#8, 0x45#8], blankHeader, binSh_noNul, binSh_fits, twoBytes_fit⟩]

/-- The lookup of `/bin/sh` in that archive returns the two bytes. -/
theorem encoded_archive_read_back_two :
    (∀ e ∈ twoEntries, normalizedPath e.name ≠ trailerName) ∧
    (findInitrdFile (some ⟨[encodeArchive true twoEntries blankHeader ++ []]⟩)
        ([0x2F#8, 0x62#8, 0x69#8, 0x6E#8, 0x2F#8, 0x73#8, 0x68#8] ++ [0#8])).map
      (fun found => found.map (fileBytes (encodeArchive true twoEntries blankHeader ++ []))) =
      .ok (some [0x7F#8, 0x45#8]) := by
  have hnames : ∀ e ∈ twoEntries, normalizedPath e.name ≠ trailerName := by decide
  exact ⟨hnames, (encoded_archive_read_back twoEntries blankHeader [] [] hnames
    (by decide +kernel)).2 _ [] (by decide)⟩

end Os1.Initrd
