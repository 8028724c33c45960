import Mathlib.Data.List.Basic
import Os1.Lib.RecordWalk

/-! The interrupt controllers and CPUs of the MADT table. -/
namespace Os1.Acpi

open Reader RecordWalk

def kPlatformMaxCpus : Nat := 64
def kPlatformMaxIoApics : Nat := 8
def kPlatformMaxInterruptOverrides : Nat := 32

/-- The sizes of the table's header and of the entries that are decoded, by their types. -/
def kMadtBytes : Nat := 44
def kMadtTypeLocalApic : Nat := 0
def kMadtTypeIoApic : Nat := 1
def kMadtTypeInterruptOverride : Nat := 2
def kMadtTypeLocalApicOverride : Nat := 5

def entryBytes (kind : Nat) : Nat :=
  if kind = kMadtTypeLocalApic then 8
  else if kind = kMadtTypeIoApic then 12
  else if kind = kMadtTypeInterruptOverride then 10
  else if kind = kMadtTypeLocalApicOverride then 12
  else 2

structure CpuInfo where
  apicId : BitVec 32
  enabled : Bool
  isBsp : Bool
  deriving DecidableEq, Repr

structure IoApicInfo where
  id : BitVec 32
  address : BitVec 32
  gsiBase : BitVec 32
  deriving DecidableEq, Repr

structure InterruptOverride where
  busIrq : BitVec 8
  flags : BitVec 16
  globalIrq : BitVec 32
  deriving DecidableEq, Repr

/-- What is written so far; a list holds the entries of an array below its count. -/
structure Topology where
  lapicBase : BitVec 64 := 0
  cpus : List CpuInfo := []
  ioapics : List IoApicInfo := []
  overrides : List InterruptOverride := []
  deriving DecidableEq, Repr

inductive AcpiStatus where
  | badHeader
  | limit
  | notFound
  deriving DecidableEq, Repr

structure AcpiError where
  status : AcpiStatus
  message : String
  deriving DecidableEq, Repr

/-- An unsigned field of the table. -/
def wordField (width address : Nat) : Reader (BitVec width) := do
  return BitVec.ofNat width (← field address (width / 8))

/-- The loop over the entries. -/
def madtWalk : RecordWalk Topology (Topology × AcpiError) where
  header offset := do
    let type ← field offset 1
    let length ← field (offset + 1) 1
    return (length, type)
  body topology offset type :=
    if type = kMadtTypeLocalApic then do
      let lapicFlags ← wordField 32 (offset + 4)
      if lapicFlags &&& 1#32 ≠ 0 then
        if kPlatformMaxCpus ≤ topology.cpus.length then
          return .inr (topology, ⟨.limit, "acpica: CPU table full"⟩)
        else
          let id ← wordField 8 (offset + 3)
          return .inl { topology with cpus := topology.cpus ++ [⟨id.setWidth 32, true, false⟩] }
      else return .inl topology
    else if type = kMadtTypeIoApic then
      if kPlatformMaxIoApics ≤ topology.ioapics.length then
        return .inr (topology, ⟨.limit, "acpica: IOAPIC table full"⟩)
      else do
        let id ← wordField 8 (offset + 2)
        let address ← wordField 32 (offset + 4)
        let gsiBase ← wordField 32 (offset + 8)
        return .inl { topology with
          ioapics := topology.ioapics ++ [⟨id.setWidth 32, address, gsiBase⟩] }
    else if type = kMadtTypeInterruptOverride then do
      let bus ← wordField 8 (offset + 2)
      if bus = 0#8 then
        if kPlatformMaxInterruptOverrides ≤ topology.overrides.length then
          return .inr (topology, ⟨.limit, "acpica: interrupt override table full"⟩)
        else
          let sourceIrq ← wordField 8 (offset + 3)
          let flags ← wordField 16 (offset + 8)
          let globalIrq ← wordField 32 (offset + 4)
          return .inl { topology with
            overrides := topology.overrides ++ [⟨sourceIrq, flags, globalIrq⟩] }
      else return .inl topology
    else if type = kMadtTypeLocalApicOverride then do
      let address ← wordField 64 (offset + 4)
      return .inl { topology with lapicBase := address }
    else return .inl topology

/-- The loop that marks the boot CPU, and whether it has found it. -/
def markBsp (bspApicId : BitVec 8) : List CpuInfo → List CpuInfo × Bool
  | [] => ([], false)
  | cpu :: cpus =>
    if cpu.apicId = bspApicId.setWidth 32 then ({ cpu with isBsp := true } :: cpus, true)
    else (cpu :: (markBsp bspApicId cpus).1, (markBsp bspApicId cpus).2)

/-- What follows the loop over the entries. -/
def finishMadt (bspApicId : BitVec 8) (topology : Topology) : Topology × Option AcpiError :=
  if topology.cpus = [] ∨ topology.ioapics = [] ∨ topology.lapicBase = 0 then
    (topology, some ⟨.notFound, "acpica: MADT missing required topology"⟩)
  else
    let (cpus, foundBsp) := markBsp bspApicId topology.cpus
    ({ topology with cpus := cpus },
      if foundBsp then none else some ⟨.notFound, "acpica: BSP APIC ID not found in MADT"⟩)

/-- The outputs and the error for an end of the loop. -/
def endMadt (bspApicId : BitVec 8) :
    Ending Topology (Topology × AcpiError) → Topology × Option AcpiError
  | .truncated topology => (topology, some ⟨.badHeader, "acpica: MADT truncated"⟩)
  | .malformed topology => (topology, some ⟨.badHeader, "acpica: MADT entry length invalid"⟩)
  | .stopped (topology, error) => (topology, some error)
  | .complete topology => finishMadt bspApicId topology

/-- `acpica_parse_madt` over a table that ACPICA has found; `out` is what the outputs held. -/
def acpicaParseMadt (bspApicId : BitVec 8) (out : Topology) (fuel : Nat) :
    Reader (Option (Topology × Option AcpiError)) := do
  let length ← field 4 4
  if length < kMadtBytes then
    return some (out, some ⟨.badHeader, "acpica: MADT too short"⟩)
  else
    let address ← wordField 32 36
    let ending ← madtWalk.loop length fuel kMadtBytes { lapicBase := address.setWidth 64 }
    return ending.map (endMadt bspApicId)

/-! ## Bounds -/

variable {m : Memory} {limit fuel : Nat} {topology final : Topology} {record : Record}
  {records : List Record} {bspApicId : BitVec 8} {out : Topology}

/-- The value of a field. -/
def word (m : Memory) (width address : Nat) : BitVec width :=
  BitVec.ofNat width (m.load address (width / 8))

@[simp]
theorem run_wordField (width address : Nat) :
    (wordField width address).run m = word m width address := by
  simp [wordField, word]

theorem within_wordField {width address : Nat} :
    Within m limit (wordField width address) ↔ address + width / 8 ≤ limit := by
  rw [wordField, within_bind, within_field]
  exact and_iff_left (within_pure _)

/-- The length in the table's header. -/
def tableLength (m : Memory) : Nat := m.load 4 4

/-- An entry for a CPU that is enabled. -/
def EnabledCpu (m : Memory) (record : Record) : Prop :=
  record.kind = kMadtTypeLocalApic ∧ word m 32 (record.offset + 4) &&& 1#32 ≠ 0

/-- An entry for an override on the ISA bus. -/
def IsaOverride (m : Memory) (record : Record) : Prop :=
  record.kind = kMadtTypeInterruptOverride ∧ word m 8 (record.offset + 2) = 0#8

/-- The end of the fields that the loop reads of an entry. -/
def fieldsEnd (m : Memory) (topology : Topology) (record : Record) : Nat :=
  if record.kind = kMadtTypeLocalApic then 8
  else if record.kind = kMadtTypeIoApic then
    if kPlatformMaxIoApics ≤ topology.ioapics.length then 2 else 12
  else if record.kind = kMadtTypeInterruptOverride then
    if word m 8 (record.offset + 2) = 0#8 ∧
      topology.overrides.length < kPlatformMaxInterruptOverrides then 10 else 3
  else if record.kind = kMadtTypeLocalApicOverride then 12
  else 2

/-- The state before the first entry. -/
def firstTopology (m : Memory) : Topology := { lapicBase := (word m 32 36).setWidth 64 }

/-- The table has its length, and the entries that the loop comes to have the fields it reads. -/
def EntriesFit (m : Memory) : Prop :=
  8 ≤ tableLength m ∧ (kMadtBytes ≤ tableLength m →
    ∀ topology record, madtWalk.Reaches m (tableLength m) kMadtBytes (firstTopology m) topology
      record → record.offset + fieldsEnd m topology record ≤ tableLength m)

theorem within_body (h : record.offset + 2 ≤ limit) :
    Within m limit (madtWalk.body topology record.offset record.kind) ↔
      record.offset + fieldsEnd m topology record ≤ limit := by
  have hpure : ∀ {α : Type} (a : α), Within m limit (pure a : Reader α) := within_pure
  simp only [madtWalk, fieldsEnd, within_ite, within_bind, within_wordField, run_wordField, hpure,
    and_true]
  split_ifs <;> simp_all <;> omega

theorem within_header {offset : Nat} (h : offset + 2 ≤ limit) :
    Within m limit (madtWalk.header offset) := by
  simp only [madtWalk, within_bind, within_field]
  exact ⟨by omega, by omega, within_pure _⟩

theorem run_parse_short (h : tableLength m < kMadtBytes) :
    (acpicaParseMadt bspApicId out fuel).run m =
      some (out, some ⟨.badHeader, "acpica: MADT too short"⟩) := by
  have hlength : m.load 4 4 < kMadtBytes := h
  simp [acpicaParseMadt, hlength]

theorem run_parse (h : kMadtBytes ≤ tableLength m) :
    (acpicaParseMadt bspApicId out fuel).run m =
      ((madtWalk.loop (tableLength m) fuel kMadtBytes (firstTopology m)).run m).map
        (endMadt bspApicId) := by
  have hlength : ¬ m.load 4 4 < kMadtBytes := Nat.not_lt.mpr h
  rw [acpicaParseMadt, run_bind, run_field, if_neg hlength, run_bind, run_bind, run_wordField]
  rfl

theorem within_parse (hfuel : tableLength m ≤ fuel) :
    Within m (tableLength m) (acpicaParseMadt bspApicId out (fuel + 1)) ↔ EntriesFit m := by
  rw [acpicaParseMadt, within_bind, within_field, EntriesFit]
  refine and_congr_right fun _ => ?_
  by_cases hshort : (field 4 4).run m < kMadtBytes
  · have hlength : ¬ kMadtBytes ≤ tableLength m := Nat.not_le.mpr hshort
    rw [if_pos hshort]
    exact iff_of_true (within_pure _) fun hlong => absurd hlong hlength
  · have hlength : kMadtBytes ≤ tableLength m := Nat.not_lt.mp hshort
    have haddress : Within m (tableLength m) (wordField 32 36) :=
      within_wordField.mpr (Nat.le_trans (by decide) hlength)
    rw [if_neg hshort, forall_prop_of_true hlength, within_bind, and_iff_right haddress,
      within_bind, and_iff_left (within_pure _)]
    rw [run_wordField]
    refine (within_loop_iff (fun _ => within_header) (by omega)).trans ?_
    exact forall_congr' fun topology => forall_congr' fun record =>
      forall_congr' fun hreach => within_body hreach.fits.1

/-- The counts stay within the arrays. -/
structure Topology.Bounded (topology : Topology) : Prop where
  cpus : topology.cpus.length ≤ kPlatformMaxCpus
  ioapics : topology.ioapics.length ≤ kPlatformMaxIoApics
  overrides : topology.overrides.length ≤ kPlatformMaxInterruptOverrides

/-- The entry as it is recorded. -/
def cpuAt (m : Memory) (record : Record) : CpuInfo :=
  ⟨(word m 8 (record.offset + 3)).setWidth 32, true, false⟩

def ioapicAt (m : Memory) (record : Record) : IoApicInfo :=
  ⟨(word m 8 (record.offset + 2)).setWidth 32, word m 32 (record.offset + 4),
    word m 32 (record.offset + 8)⟩

def overrideAt (m : Memory) (record : Record) : InterruptOverride :=
  ⟨word m 8 (record.offset + 3), word m 16 (record.offset + 8), word m 32 (record.offset + 4)⟩

instance : DecidablePred (EnabledCpu m) := fun _ => inferInstanceAs (Decidable (_ ∧ _))
instance : DecidablePred (IsaOverride m) := fun _ => inferInstanceAs (Decidable (_ ∧ _))

/-- What one entry does. -/
theorem run_body (topology : Topology) (record : Record) :
    (madtWalk.body topology record.offset record.kind).run m =
      if EnabledCpu m record then
        if kPlatformMaxCpus ≤ topology.cpus.length then
          .inr (topology, ⟨.limit, "acpica: CPU table full"⟩)
        else .inl { topology with cpus := topology.cpus ++ [cpuAt m record] }
      else if record.kind = kMadtTypeIoApic then
        if kPlatformMaxIoApics ≤ topology.ioapics.length then
          .inr (topology, ⟨.limit, "acpica: IOAPIC table full"⟩)
        else .inl { topology with ioapics := topology.ioapics ++ [ioapicAt m record] }
      else if IsaOverride m record then
        if kPlatformMaxInterruptOverrides ≤ topology.overrides.length then
          .inr (topology, ⟨.limit, "acpica: interrupt override table full"⟩)
        else .inl { topology with overrides := topology.overrides ++ [overrideAt m record] }
      else if record.kind = kMadtTypeLocalApicOverride then
        .inl { topology with lapicBase := word m 64 (record.offset + 4) }
      else .inl topology := by
  simp only [madtWalk, run_ite, run_bind, run_wordField, run_pure, EnabledCpu, IsaOverride, cpuAt,
    ioapicAt, overrideAt]
  split_ifs <;> simp_all [kMadtTypeLocalApic, kMadtTypeIoApic, kMadtTypeInterruptOverride,
    kMadtTypeLocalApicOverride]

theorem Topology.Bounded.body (h : topology.Bounded) (record : Record) :
    Sum.elim Topology.Bounded (fun stopped => stopped.1.Bounded)
      ((madtWalk.body topology record.offset record.kind).run m) := by
  obtain ⟨hcpus, hioapics, hoverrides⟩ := h
  rw [run_body]
  split_ifs with hcpu hfull hioapic hfull hoverride hfull hbase
  · exact ⟨hcpus, hioapics, hoverrides⟩
  · exact ⟨by simpa using Nat.succ_le_of_lt (Nat.lt_of_not_le hfull), hioapics, hoverrides⟩
  · exact ⟨hcpus, hioapics, hoverrides⟩
  · exact ⟨hcpus, by simpa using Nat.succ_le_of_lt (Nat.lt_of_not_le hfull), hoverrides⟩
  · exact ⟨hcpus, hioapics, hoverrides⟩
  · exact ⟨hcpus, hioapics, by simpa using Nat.succ_le_of_lt (Nat.lt_of_not_le hfull)⟩
  · exact ⟨hcpus, hioapics, hoverrides⟩
  · exact ⟨hcpus, hioapics, hoverrides⟩

/-- The entries that are written to the arrays. -/
def Recorded (m : Memory) (record : Record) : Prop :=
  EnabledCpu m record ∨ record.kind = kMadtTypeIoApic ∨ IsaOverride m record

/-- The entry is as long as its type asks. -/
def WellFormedEntry (record : Record) : Prop := entryBytes record.kind ≤ record.length

instance : DecidablePred WellFormedEntry := fun _ => inferInstanceAs (Decidable (_ ≤ _))

/-- The arrays hold what the given entries say, in their order. -/
structure Holds (m : Memory) (records : List Record) (topology : Topology) : Prop where
  cpus : topology.cpus.map ({ · with isBsp := false }) =
    (records.filter (EnabledCpu m ·)).map (cpuAt m)
  ioapics : topology.ioapics = (records.filter (·.kind = kMadtTypeIoApic)).map (ioapicAt m)
  overrides : topology.overrides = (records.filter (IsaOverride m ·)).map (overrideAt m)

theorem fold_lists (h : madtWalk.fold m topology records = .inl final) :
    final.cpus = topology.cpus ++ (records.filter (EnabledCpu m ·)).map (cpuAt m) ∧
      final.ioapics = topology.ioapics ++
        (records.filter (·.kind = kMadtTypeIoApic)).map (ioapicAt m) ∧
      final.overrides = topology.overrides ++
        (records.filter (IsaOverride m ·)).map (overrideAt m) := by
  induction records generalizing topology with
  | nil =>
    obtain rfl := Sum.inl.inj h
    simp
  | cons record records ih =>
    cases hbody : (madtWalk.body topology record.offset record.kind).run m with
    | inr stopped =>
      rw [fold_cons_of_inr hbody] at h
      cases h
    | inl next =>
      rw [fold_cons_of_inl hbody] at h
      obtain ⟨hcpus, hioapics, hoverrides⟩ := ih h
      have hnotIoapic : EnabledCpu m record → record.kind ≠ kMadtTypeIoApic := by
        rintro ⟨hkind, -⟩
        rw [hkind]
        decide
      have hnotOverride : EnabledCpu m record ∨ record.kind = kMadtTypeIoApic →
          ¬ IsaOverride m record := by
        rintro (⟨hkind, -⟩ | hkind) ⟨hoverride, -⟩
        all_goals exact absurd (hkind.symm.trans hoverride) (by decide)
      rw [run_body] at hbody
      split_ifs at hbody with hcpu hfull hioapic hfull hoverride hfull hbase
      all_goals
        obtain rfl := Sum.inl.inj hbody
        simp_all

/-! ## The boot CPU -/

theorem markBsp_map (bspApicId : BitVec 8) (cpus : List CpuInfo) :
    (markBsp bspApicId cpus).1.map ({ · with isBsp := false }) =
      cpus.map ({ · with isBsp := false }) := by
  induction cpus with
  | nil => rfl
  | cons cpu cpus ih =>
    rw [markBsp]
    split
    · rfl
    · simp [ih]

theorem markBsp_length (cpus : List CpuInfo) :
    (markBsp bspApicId cpus).1.length = cpus.length := by
  simpa using congrArg List.length (markBsp_map bspApicId cpus)

/-- Of CPUs that are not marked, one is marked when the identifier is found. -/
theorem markBsp_count {cpus : List CpuInfo} (h : ∀ cpu ∈ cpus, cpu.isBsp = false)
    (hfound : (markBsp bspApicId cpus).2 = true) :
    (markBsp bspApicId cpus).1.countP (·.isBsp) = 1 := by
  induction cpus with
  | nil => cases hfound
  | cons cpu cpus ih =>
    obtain ⟨hcpu, hcpus⟩ := List.forall_mem_cons.mp h
    rw [markBsp] at hfound ⊢
    split at hfound
    · rename_i hid
      have hnone : cpus.countP (·.isBsp) = 0 := List.countP_eq_zero.mpr (by simpa using hcpus)
      simp [hid, hnone]
    · rename_i hid
      simp [hid, hcpu, ih hcpus hfound]

/-! ## Tables -/

/-- Of a list only elements with `q` are taken exactly when all that are taken have it. -/
theorem map_filter_filter_eq_iff {α β : Type} {p q : α → Bool} {f : α → β} {l : List α} :
    (l.filter p).map f = ((l.filter q).filter p).map f ↔ ∀ x ∈ l, p x = true → q x = true := by
  rw [List.filter_comm]
  constructor
  · intro heq x hx hp
    have hself : (l.filter p).filter q = l.filter p := by
      refine List.filter_sublist.eq_of_length ?_
      simpa using (congrArg List.length heq).symm
    exact List.filter_eq_self.mp hself x (List.mem_filter.mpr ⟨hx, hp⟩)
  · intro h
    have hself : (l.filter p).filter q = l.filter p := List.filter_eq_self.mpr fun x hx =>
      h x (List.mem_filter.mp hx).1 (List.mem_filter.mp hx).2
    rw [hself]

theorem holds_wellFormed_iff {topology : Topology} (h : Holds m records topology) :
    Holds m (records.filter (WellFormedEntry ·)) topology ↔
      ∀ record ∈ records, Recorded m record → WellFormedEntry record := by
  have hcpus := map_filter_filter_eq_iff (p := (EnabledCpu m ·)) (q := (WellFormedEntry ·))
    (f := cpuAt m) (l := records)
  have hioapics := map_filter_filter_eq_iff (p := (·.kind = kMadtTypeIoApic))
    (q := (WellFormedEntry ·)) (f := ioapicAt m) (l := records)
  have hoverrides := map_filter_filter_eq_iff (p := (IsaOverride m ·)) (q := (WellFormedEntry ·))
    (f := overrideAt m) (l := records)
  simp only [decide_eq_true_eq] at hcpus hioapics hoverrides
  constructor
  · rintro ⟨hcpus', hioapics', hoverrides'⟩ record hmem (hrecorded | hrecorded | hrecorded)
    · exact hcpus.mp (h.cpus.symm.trans hcpus') record hmem hrecorded
    · exact hioapics.mp (h.ioapics.symm.trans hioapics') record hmem hrecorded
    · exact hoverrides.mp (h.overrides.symm.trans hoverrides') record hmem hrecorded
  · intro hall
    exact ⟨h.cpus.trans (hcpus.mpr fun r hr hp => hall r hr (.inl hp)),
      h.ioapics.trans (hioapics.mpr fun r hr hp => hall r hr (.inr (.inl hp))),
      h.overrides.trans (hoverrides.mpr fun r hr hp => hall r hr (.inr (.inr hp)))⟩

theorem Topology.Bounded.endMadt
    {ending : Ending Topology (Topology × AcpiError)}
    (h : ending.Holds Topology.Bounded fun stopped => stopped.1.Bounded) :
    (endMadt bspApicId ending).1.Bounded := by
  cases ending with
  | complete topology =>
    rw [Acpi.endMadt, finishMadt]
    split
    · exact h
    · exact ⟨(markBsp_length topology.cpus).trans_le h.cpus, h.ioapics, h.overrides⟩
  | truncated topology => exact h
  | malformed topology => exact h
  | stopped result => exact h

/-- A parse without an error has come to the end of the table and has found the boot CPU. -/
theorem endMadt_success {ending : Ending Topology (Topology × AcpiError)}
    (h : (endMadt bspApicId ending).2 = none) :
    ∃ topology, ending = .complete topology ∧ (markBsp bspApicId topology.cpus).2 = true ∧
      (endMadt bspApicId ending).1 =
        { topology with cpus := (markBsp bspApicId topology.cpus).1 } := by
  cases ending with
  | complete topology =>
    refine ⟨topology, rfl, ?_⟩
    rw [endMadt, finishMadt] at h ⊢
    split at h
    · cases h
    · rename_i hfound
      rw [if_neg hfound]
      dsimp only at h ⊢
      split at h
      · rename_i hbsp
        exact ⟨hbsp, rfl⟩
      · cases h
  | truncated topology => cases h
  | malformed topology => cases h
  | stopped result => cases h

/-- The parse returns, and writes no more entries than the arrays have. It reads only bytes of the
table exactly when the entries it comes to have their fields there. After a success one CPU is
marked, and the arrays hold what the well-formed entries say exactly when no other entry has been
recorded. -/
theorem madt_parse_iff (m : Memory) (bspApicId : BitVec 8) (out : Topology) :
    ∃ topology error, ∀ fuel, tableLength m ≤ fuel →
      (acpicaParseMadt bspApicId out (fuel + 1)).run m = some (topology, error) ∧
      (topology = out ∨ topology.Bounded) ∧
      (Within m (tableLength m) (acpicaParseMadt bspApicId out (fuel + 1)) ↔ EntriesFit m) ∧
      (error = none → topology.cpus.countP (·.isBsp) = 1 ∧
        ∃ records, madtWalk.Chain m (tableLength m) kMadtBytes records ∧
          (Holds m (records.filter (WellFormedEntry ·)) topology ↔
            ∀ record ∈ records, Recorded m record → WellFormedEntry record)) := by
  by_cases hshort : tableLength m < kMadtBytes
  · refine ⟨out, _, fun fuel hfuel => ⟨run_parse_short hshort, .inl rfl, within_parse hfuel, ?_⟩⟩
    exact fun h => absurd h (by simp)
  have hlong : kMadtBytes ≤ tableLength m := Nat.le_of_not_lt hshort
  obtain ⟨ending, hending⟩ :=
    exists_ending madtWalk m (tableLength m) kMadtBytes (firstTopology m)
  refine ⟨(endMadt bspApicId ending).1, (endMadt bspApicId ending).2, fun fuel hfuel => ?_⟩
  have hloop := hending fuel (by omega)
  refine ⟨?_, .inr ?_, within_parse hfuel, fun hnone => ?_⟩
  · rw [run_parse hlong, hloop]
    rfl
  · have hfirst : (firstTopology m).Bounded := ⟨Nat.zero_le _, Nat.zero_le _, Nat.zero_le _⟩
    exact .endMadt (holds_of_run_loop
      (fun _ offset kind h => h.body (m := m) ⟨offset, 0, kind⟩) hfirst hloop)
  · obtain ⟨topology, rfl, hfound, hfinal⟩ := endMadt_success hnone
    obtain ⟨records, hchain, hfold⟩ := chain_of_complete hlong hloop
    obtain ⟨hcpus, hioapics, hoverrides⟩ := fold_lists hfold
    have hunmarked : topology.cpus.map ({ · with isBsp := false }) = topology.cpus := by
      rw [hcpus]
      simp [firstTopology, cpuAt]
    rw [hfinal]
    refine ⟨markBsp_count ?_ hfound, records, hchain, holds_wellFormed_iff ⟨?_, ?_, ?_⟩⟩
    · intro cpu hcpu
      rw [hcpus] at hcpu
      obtain ⟨record, -, rfl⟩ := List.mem_map.mp hcpu
      rfl
    · rw [markBsp_map, hunmarked, hcpus]
      rfl
    · exact hioapics
    · exact hoverrides

/-- A table with the given entries, with the APIC at 0xFEE00000. -/
def madtTable (entries : List (BitVec 8)) : Memory :=
  fun x => ([0x41, 0x50, 0x49, 0x43, BitVec.ofNat 8 (kMadtBytes + entries.length), 0, 0, 0] ++
    List.replicate 28 0 ++ [0, 0, 0xE0, 0xFE, 0, 0, 0, 0] ++ entries).getD x 0

def localApicEntry : List (BitVec 8) := [0, 8, 0, 3, 1, 0, 0, 0]

def ioApicEntry : List (BitVec 8) := [1, 12, 1, 0, 0, 0, 0xC0, 0xFE, 0, 0, 0, 0]

def overrideEntry : List (BitVec 8) := [2, 10, 0, 0, 2, 0, 0, 0, 0, 0]

theorem fullTable_parsed :
    ∃ topology, (acpicaParseMadt 3 {} 75).run
        (madtTable (localApicEntry ++ ioApicEntry ++ overrideEntry)) = some (topology, none) ∧
      topology.cpus.countP (·.isBsp) = 1 := by
  have hlength : tableLength (madtTable (localApicEntry ++ ioApicEntry ++ overrideEntry)) ≤ 74 := by
    decide +kernel
  have hnone : ((acpicaParseMadt 3 {} 75).run
      (madtTable (localApicEntry ++ ioApicEntry ++ overrideEntry))).map Prod.snd = some none := by
    decide +kernel
  obtain ⟨topology, error, h⟩ :=
    madt_parse_iff (madtTable (localApicEntry ++ ioApicEntry ++ overrideEntry)) 3 {}
  obtain ⟨hrun, -, -, hsuccess⟩ := h 74 hlength
  rw [hrun] at hnone
  cases hnone
  exact ⟨topology, hrun, (hsuccess rfl).1⟩

/-- A table whose last entry is a local APIC of two bytes is read past its end. And one in which an
I/O APIC of two bytes stands before a local APIC is parsed with two I/O APICs. -/
theorem short_entries_recorded :
    (∃ access ∈ (acpicaParseMadt 3 {} 47).accesses (madtTable [0, 2]),
      tableLength (madtTable [0, 2]) < access.1 + access.2) ∧
    ((acpicaParseMadt 3 {} 67).run
        (madtTable (ioApicEntry ++ [1, 2] ++ localApicEntry))).map
        (fun result => (result.1.ioapics, result.2)) =
      some ([⟨1, 0xFEC00000, 0⟩, ⟨0, 0x10300, 0⟩], none) := by
  decide +kernel

end Os1.Acpi
