import Mathlib.Data.List.Nodup
import Os1.Lib.Along

/-! The decoder of boot-keyboard reports, and the keys that a history of reports holds. -/
namespace Os1.Hid

def kBootKeyboardReportBytes : Nat := 8
def kModifierLeftShift : BitVec 8 := 1#8 <<< 1
def kModifierRightShift : BitVec 8 := 1#8 <<< 5

structure BootKeyboardState where
  modifiers : BitVec 8 := 0#8
  keys : List (BitVec 8) := List.replicate 6 0#8
  deriving DecidableEq, Repr

/-- `has_usage` -/
def hasUsage (usages : List (BitVec 8)) (usage : BitVec 8) : Bool := usages.contains usage

/-- `shift_active` -/
def shiftActive (modifiers : BitVec 8) : Bool :=
  modifiers &&& (kModifierLeftShift ||| kModifierRightShift) ≠ 0#8

/-- `boot_key_usage_to_ascii`; usages without a character give the zero character. -/
def bootKeyUsageToAscii (usage : BitVec 8) (shift : Bool) : Char :=
  if 0x04#8 ≤ usage ∧ usage ≤ 0x1d#8 then
    let base := if shift then 'A' else 'a'
    Char.ofNat (base.toNat + (usage.toNat - 0x04))
  else
    match usage.toNat with
    | 0x1e => if shift then '!' else '1'
    | 0x1f => if shift then '@' else '2'
    | 0x20 => if shift then '#' else '3'
    | 0x21 => if shift then '$' else '4'
    | 0x22 => if shift then '%' else '5'
    | 0x23 => if shift then '^' else '6'
    | 0x24 => if shift then '&' else '7'
    | 0x25 => if shift then '*' else '8'
    | 0x26 => if shift then '(' else '9'
    | 0x27 => if shift then ')' else '0'
    | 0x28 => '\n'
    | 0x2a => '\x08'
    | 0x2b => '\t'
    | 0x2c => ' '
    | 0x2d => if shift then '_' else '-'
    | 0x2e => if shift then '+' else '='
    | 0x2f => if shift then '\x7b' else '['
    | 0x30 => if shift then '\x7d' else ']'
    | 0x31 => if shift then '|' else '\\'
    | 0x33 => if shift then ':' else ';'
    | 0x34 => if shift then '\x22' else '\x27'
    | 0x35 => if shift then '~' else '\x60'
    | 0x36 => if shift then '<' else ','
    | 0x37 => if shift then '>' else '.'
    | 0x38 => if shift then '?' else '/'
    | _ => '\x00'

/-- The loop over the key slots; false when the output is full. -/
def applyUsages (keys : List (BitVec 8)) (shift : Bool) (outputCapacity : Nat) :
    List (BitVec 8) → List Char → Bool × List Char
  | [], output => (true, output)
  | usage :: usages, output =>
    if usage = 0#8 ∨ usage = 1#8 ∨ hasUsage keys usage then
      applyUsages keys shift outputCapacity usages output
    else if output.length = outputCapacity then (false, output)
    else
      let ascii := bootKeyUsageToAscii usage shift
      applyUsages keys shift outputCapacity usages
        (if ascii ≠ '\x00' then output ++ [ascii] else output)

/-- The key slots of a report. -/
def usagesOf (report : List (BitVec 8)) : List (BitVec 8) := (report.drop 2).take 6

/-- `boot_keyboard_apply_report`, with the characters it writes. -/
def bootKeyboardApplyReport (state : BootKeyboardState) (report : List (BitVec 8))
    (outputCapacity : Nat) : BootKeyboardState × List Char × Bool :=
  if report.length < kBootKeyboardReportBytes then (state, [], false)
  else
    let modifiers := report.headD 0#8
    match applyUsages state.keys (shiftActive modifiers) outputCapacity (usagesOf report) [] with
    | (false, output) => (state, output, false)
    | (true, output) => (⟨modifiers, usagesOf report⟩, output, true)

/-! ## Keys that are held -/

/-- A report that is long enough for the decoder. -/
structure BootReport where
  bytes : List (BitVec 8)
  long : kBootKeyboardReportBytes ≤ bytes.length

namespace BootReport

def usages (report : BootReport) : List (BitVec 8) := usagesOf report.bytes

def shift (report : BootReport) : Bool := shiftActive (report.bytes.headD 0#8)

/-- Usage 1 in a key slot: the keyboard cannot tell which keys are down. -/
def rollover (report : BootReport) : Bool := report.usages.contains 1#8

end BootReport

/-- The keys that are held after a report. -/
def heldAfter (held : List (BitVec 8)) (report : BootReport) : List (BitVec 8) :=
  if report.rollover then held else report.usages

/-- A period in which the key is held starts at this report. -/
def Starts (held : List (BitVec 8)) (report : BootReport) (usage : BitVec 8) : Prop :=
  usage ∈ heldAfter held report ∧ usage ∉ held

def HasCharacter (usage : BitVec 8) : Prop := bootKeyUsageToAscii usage false ≠ '\x00'

/-- One character for each key whose period starts at this report, in the order of its slots. -/
def Typed (held : List (BitVec 8)) (report : BootReport) (output : List Char) : Prop :=
  ∃ keys : List (BitVec 8), keys.Sublist report.usages ∧ keys.Nodup ∧
    (∀ usage, usage ∈ keys ↔ HasCharacter usage ∧ Starts held report usage) ∧
    output = keys.map (bootKeyUsageToAscii · report.shift)

/-- The decoder, and as history the keys that are held. -/
structure Keyboard where
  state : BootKeyboardState := {}
  held : List (BitVec 8) := []
  deriving DecidableEq, Repr

def Keyboard.step (capacity : Nat) (s : Keyboard) (report : BootReport) : Keyboard :=
  ⟨(bootKeyboardApplyReport s.state report.bytes capacity).1, heldAfter s.held report⟩

/-- The report is decoded, with the right characters. -/
def Keyboard.TypesOnce (capacity : Nat) (s : Keyboard) (report : BootReport) : Prop :=
  ∃ state output,
    bootKeyboardApplyReport s.state report.bytes capacity = (state, output, true) ∧
      Typed s.held report output

/-- What the decoder needs: the keys with a character that a report lists were in the previous
report exactly when they are held, the others are listed once, and a report of a rollover lists
none but those of the previous report. -/
def Keyboard.Clear (s : Keyboard) (report : BootReport) : Prop :=
  ∀ usage ∈ report.usages, HasCharacter usage →
    if report.rollover then usage ∈ s.state.keys
    else (usage ∈ s.state.keys ↔ usage ∈ s.held) ∧
      (usage ∉ s.held → report.usages.count usage = 1)

instance : DecidablePred HasCharacter := fun _ => inferInstanceAs (Decidable (_ ≠ _))

instance (s : Keyboard) : DecidablePred s.Clear := fun report =>
  inferInstanceAs (Decidable (∀ usage ∈ report.usages, HasCharacter usage → ite _ _ _))

/-! ## Characters -/

theorem hasCharacter_shift : ∀ (usage : BitVec 8) (shift : Bool),
    HasCharacter usage ↔ bootKeyUsageToAscii usage shift ≠ '\x00' := by
  decide +kernel

theorem not_hasCharacter_of_le_one : ∀ usage : BitVec 8,
    usage = 0#8 ∨ usage = 1#8 → ¬ HasCharacter usage := by
  decide +kernel

/-- The usages that have a character. -/
def characterUsages : List (BitVec 8) :=
  ((List.range 256).map (BitVec.ofNat 8)).filter (HasCharacter ·)

theorem mem_characterUsages {usage : BitVec 8} (h : HasCharacter usage) :
    usage ∈ characterUsages := by
  refine List.mem_filter.mpr ⟨List.mem_map.mpr ⟨usage.toNat, ?_, ?_⟩, by simpa using h⟩
  · exact List.mem_range.mpr usage.isLt
  · simp

theorem characters_nodup : ∀ shift : Bool,
    (characterUsages.map (bootKeyUsageToAscii · shift)).Nodup := by
  decide +kernel

/-- Different keys have different characters. -/
theorem eq_of_map_ascii_eq {shift : Bool} {keys keys' : List (BitVec 8)}
    (h : ∀ usage ∈ keys, HasCharacter usage) (h' : ∀ usage ∈ keys', HasCharacter usage)
    (heq : keys.map (bootKeyUsageToAscii · shift) = keys'.map (bootKeyUsageToAscii · shift)) :
    keys = keys' := by
  induction keys generalizing keys' with
  | nil => exact (List.map_eq_nil_iff.mp heq.symm).symm
  | cons usage keys ih =>
    cases keys' with
    | nil => simp at heq
    | cons usage' keys' =>
      obtain ⟨hhead, htail⟩ := List.cons.inj heq
      have husage : usage = usage' :=
        List.inj_on_of_nodup_map (characters_nodup shift)
          (mem_characterUsages (h usage List.mem_cons_self))
          (mem_characterUsages (h' usage' List.mem_cons_self)) hhead
      rw [husage, ih (fun u hu => h u (List.mem_cons_of_mem _ hu))
        (fun u hu => h' u (List.mem_cons_of_mem _ hu)) htail]

/-! ## One report -/

/-- The keys with a character that the report lists and the previous one does not. -/
def newKeys (keys usages : List (BitVec 8)) : List (BitVec 8) :=
  usages.filter fun usage => HasCharacter usage ∧ usage ∉ keys

theorem applyUsages_eq {keys usages : List (BitVec 8)} {shift : Bool} {capacity : Nat}
    {output : List Char} (hroom : output.length + usages.length ≤ capacity) :
    applyUsages keys shift capacity usages output =
      (true, output ++ (newKeys keys usages).map (bootKeyUsageToAscii · shift)) := by
  induction usages generalizing output with
  | nil => simp [applyUsages, newKeys]
  | cons usage usages ih =>
    rw [List.length_cons] at hroom
    rw [applyUsages]
    by_cases hold : usage = 0#8 ∨ usage = 1#8 ∨ hasUsage keys usage
    · have hnew : newKeys keys (usage :: usages) = newKeys keys usages := by
        refine List.filter_cons_of_neg ?_
        have hone := not_hasCharacter_of_le_one usage
        simp only [hasUsage, List.contains_iff_mem] at hold
        simp only [decide_eq_true_eq]
        tauto
      rw [if_pos hold, hnew, ih (by omega)]
    · have hfull : output.length ≠ capacity := by omega
      rw [if_neg hold, if_neg hfull]
      dsimp only
      simp only [hasUsage, List.contains_iff_mem, not_or] at hold
      by_cases hascii : HasCharacter usage
      · have hnew : newKeys keys (usage :: usages) = usage :: newKeys keys usages := by
          refine List.filter_cons_of_pos ?_
          simpa using ⟨hascii, hold.2.2⟩
        have hne := (hasCharacter_shift usage shift).mp hascii
        rw [if_pos hne, ih (by simp; omega), hnew]
        simp
      · have hnew : newKeys keys (usage :: usages) = newKeys keys usages := by
          refine List.filter_cons_of_neg ?_
          simp [hascii]
        have hzero : ¬ bootKeyUsageToAscii usage shift ≠ '\x00' := fun hne =>
          hascii ((hasCharacter_shift usage shift).mpr hne)
        rw [if_neg hzero, ih (by omega), hnew]

variable {capacity : Nat} {s : Keyboard} {report : BootReport}

theorem apply_report_eq (hcapacity : 6 ≤ capacity) :
    bootKeyboardApplyReport s.state report.bytes capacity =
      (⟨report.bytes.headD 0#8, report.usages⟩,
        (newKeys s.state.keys report.usages).map (bootKeyUsageToAscii · report.shift), true) := by
  have hroom : ([] : List Char).length + (usagesOf report.bytes).length ≤ capacity := by
    simp only [usagesOf, List.length_take, List.length_nil]
    omega
  rw [bootKeyboardApplyReport, if_neg (Nat.not_lt.mpr report.long)]
  dsimp only
  rw [applyUsages_eq hroom]
  rfl

theorem mem_newKeys {keys usages : List (BitVec 8)} {usage : BitVec 8} :
    usage ∈ newKeys keys usages ↔ usage ∈ usages ∧ HasCharacter usage ∧ usage ∉ keys := by
  simp [newKeys]

theorem count_newKeys {keys usages : List (BitVec 8)} {usage : BitVec 8}
    (h : HasCharacter usage) (hnew : usage ∉ keys) :
    (newKeys keys usages).count usage = usages.count usage :=
  List.count_filter (by simpa using ⟨h, hnew⟩)

theorem starts_iff {held : List (BitVec 8)} {usage : BitVec 8} :
    Starts held report usage ↔
      report.rollover = false ∧ usage ∈ report.usages ∧ usage ∉ held := by
  unfold Starts heldAfter
  split <;> simp_all

/-- The decoder types what it should exactly for the reports that are clear to it. -/
theorem typesOnce_iff_clear (hcapacity : 6 ≤ capacity) :
    s.TypesOnce capacity report ↔ s.Clear report := by
  constructor
  · rintro ⟨state, output, happly, keys, -, hnodup, hmem, houtput⟩ usage husage hcharacter
    rw [apply_report_eq hcapacity] at happly
    obtain ⟨-, houtput', -⟩ : _ ∧ _ ∧ _ := by simpa only [Prod.mk.injEq] using happly
    have hkeys : newKeys s.state.keys report.usages = keys :=
      eq_of_map_ascii_eq (fun u hu => (mem_newKeys.mp hu).2.1) (fun u hu => ((hmem u).mp hu).1)
        (houtput'.trans houtput)
    have hstarts := hmem usage
    rw [← hkeys, mem_newKeys, starts_iff] at hstarts
    rw [← hkeys] at hnodup
    split
    · simp_all
    · have hiff : usage ∉ s.state.keys ↔ usage ∉ s.held := by simp_all
      refine ⟨not_iff_not.mp hiff, fun hheld => ?_⟩
      have hnew := hiff.mpr hheld
      rw [← count_newKeys hcharacter hnew]
      exact List.count_eq_one_of_mem hnodup (mem_newKeys.mpr ⟨husage, hcharacter, hnew⟩)
  · intro hclear
    refine ⟨_, _, apply_report_eq hcapacity, newKeys s.state.keys report.usages,
      List.filter_sublist, ?_, ?_, rfl⟩
    · refine List.nodup_iff_count_le_one.mpr fun usage => ?_
      by_cases hmem : usage ∈ newKeys s.state.keys report.usages
      · obtain ⟨husage, hcharacter, hnew⟩ := mem_newKeys.mp hmem
        have hcase := hclear usage husage hcharacter
        rw [count_newKeys hcharacter hnew]
        split at hcase
        · exact absurd hcase hnew
        · exact Nat.le_of_eq (hcase.2 (mt hcase.1.mpr hnew))
      · rw [List.count_eq_zero_of_not_mem hmem]
        exact Nat.zero_le 1
    · intro usage
      rw [mem_newKeys, starts_iff]
      by_cases hall : usage ∈ report.usages ∧ HasCharacter usage
      · have hcase := hclear usage hall.1 hall.2
        split at hcase <;> simp_all
      · tauto

/-! ## Histories of reports -/

/-- Along a history of reports each key types once for each period in which it is held exactly when
each report is clear. -/
theorem keyboard_types_once_iff {capacity : Nat} (hcapacity : 6 ≤ capacity)
    (reports : List BootReport) :
    Along (Keyboard.step capacity) (Keyboard.TypesOnce capacity) {} reports ↔
      Along (Keyboard.step capacity) Keyboard.Clear {} reports := by
  exact Along.congr fun _ _ => typesOnce_iff_clear hcapacity

theorem bootReport_long (modifiers a b c : BitVec 8) :
    kBootKeyboardReportBytes ≤ [modifiers, 0#8, a, b, c, 0#8, 0#8, 0#8].length :=
  Nat.le_refl 8

/-- A report with three key slots in use. -/
def bootReport (modifiers a b c : BitVec 8) : BootReport :=
  ⟨[modifiers, 0#8, a, b, c, 0#8, 0#8, 0#8], bootReport_long modifiers a b c⟩

theorem two_keys_type_once :
    Along (Keyboard.step 6) (Keyboard.TypesOnce 6) {}
      [bootReport 0#8 4#8 0#8 0#8, bootReport 2#8 4#8 5#8 0#8, bootReport 0#8 5#8 0#8 0#8] := by
  refine (keyboard_types_once_iff (by decide) _).mpr ⟨?_, ?_, ?_, trivial⟩
  all_goals decide +kernel

/-- A key that stays down over a rollover types again, and so does a usage that is listed twice. -/
theorem rollover_and_repeat_type_again :
    ¬ Along (Keyboard.step 6) (Keyboard.TypesOnce 6) {}
        [bootReport 0#8 4#8 0#8 0#8, bootReport 0#8 1#8 1#8 1#8, bootReport 0#8 4#8 0#8 0#8] ∧
      ¬ Along (Keyboard.step 6) (Keyboard.TypesOnce 6) {} [bootReport 0#8 4#8 4#8 0#8] := by
  have hcapacity : 6 ≤ 6 := Nat.le_refl 6
  constructor
  · rintro ⟨-, -, hthird, -⟩
    exact absurd ((typesOnce_iff_clear hcapacity).mp hthird) (by decide +kernel)
  · rintro ⟨honce, -⟩
    exact absurd ((typesOnce_iff_clear hcapacity).mp honce) (by decide +kernel)

end Os1.Hid
