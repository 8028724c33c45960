import Os1.Lib.RecordWalk

/-! The choice of a boot keyboard or mouse from the descriptors of a USB configuration. -/
namespace Os1.Hid

open Reader RecordWalk

def kUsbDescriptorConfiguration : Nat := 2
def kUsbDescriptorInterface : Nat := 4
def kUsbDescriptorEndpoint : Nat := 5
def kUsbClassHid : BitVec 8 := 3#8
def kUsbSubclassBoot : BitVec 8 := 1#8
def kUsbProtocolKeyboard : BitVec 8 := 1#8
def kUsbProtocolMouse : BitVec 8 := 2#8
def kUsbEndpointDirectionIn : BitVec 8 := 0x80#8
def kUsbEndpointTransferInterrupt : BitVec 8 := 3#8

/-- The sizes of the packed descriptors. -/
def kConfigurationDescriptorBytes : Nat := 9
def kInterfaceDescriptorBytes : Nat := 9
def kEndpointDescriptorBytes : Nat := 7

inductive HidBootProtocol where
  | none
  | keyboard
  | mouse
  deriving DecidableEq, Repr

structure HidInterfaceSelection where
  valid : Bool := false
  protocol : HidBootProtocol := .none
  configurationValue : BitVec 8 := 0#8
  interfaceNumber : BitVec 8 := 0#8
  endpointAddress : BitVec 8 := 0#8
  interval : BitVec 8 := 0#8
  maxPacketSize : BitVec 16 := 0#16
  deriving DecidableEq, Repr

/-- The variables of the loop. -/
structure ActiveInterface where
  configuration : BitVec 8 := 0#8
  interfaceMatches : Bool := false
  protocol : HidBootProtocol := .none
  interfaceNumber : BitVec 8 := 0#8
  deriving DecidableEq, Repr

def byteField (address : Nat) : Reader (BitVec 8) := do return BitVec.ofNat 8 (← field address 1)

def bootProtocol (protocol : BitVec 8) : HidBootProtocol :=
  if protocol = kUsbProtocolKeyboard then .keyboard
  else if protocol = kUsbProtocolMouse then .mouse else .none

def bootInterface (alternate interfaceClass subclass protocol : BitVec 8) : Bool :=
  alternate = 0#8 ∧ interfaceClass = kUsbClassHid ∧ subclass = kUsbSubclassBoot ∧
    (protocol = kUsbProtocolKeyboard ∨ protocol = kUsbProtocolMouse)

/-- The loop over the descriptors. The comparisons of an interface stop at the first that fails, but
its last field is read in any case. -/
def hidWalk : RecordWalk ActiveInterface HidInterfaceSelection where
  header offset := do
    let length ← field offset 1
    let descriptorType ← field (offset + 1) 1
    return (length, descriptorType)
  body active offset descriptorType :=
    if descriptorType = kUsbDescriptorConfiguration then do
      let value ← byteField (offset + 5)
      return .inl
        { active with configuration := value, interfaceMatches := false, protocol := .none }
    else if descriptorType = kUsbDescriptorInterface then do
      let number ← byteField (offset + 2)
      let alternate ← byteField (offset + 3)
      let interfaceClass ← byteField (offset + 5)
      let subclass ← byteField (offset + 6)
      let protocol ← byteField (offset + 7)
      return .inl { active with
        interfaceNumber := number
        interfaceMatches := bootInterface alternate interfaceClass subclass protocol
        protocol := bootProtocol protocol }
    else if descriptorType = kUsbDescriptorEndpoint ∧ active.interfaceMatches then do
      let address ← byteField (offset + 2)
      if address &&& kUsbEndpointDirectionIn ≠ 0#8 then
        let attributes ← byteField (offset + 3)
        if attributes &&& 0x03#8 = kUsbEndpointTransferInterrupt then
          let interval ← byteField (offset + 6)
          let maxPacketSize ← field (offset + 4) 2
          return .inr {
            valid := true
            protocol := active.protocol
            configurationValue := active.configuration
            interfaceNumber := active.interfaceNumber
            endpointAddress := address
            interval := interval
            maxPacketSize := BitVec.ofNat 16 maxPacketSize &&& 0x07FF#16 }
        else return .inl active
      else return .inl active
    else return .inl active

/-- `parse_hid_boot_configuration`: the selection if it returns true. -/
def parseHidBootConfiguration (fuel bufferLength : Nat) :
    Reader (Option (Option HidInterfaceSelection)) :=
  if bufferLength < kConfigurationDescriptorBytes then return some none
  else do
    match ← hidWalk.loop bufferLength fuel 0 {} with
    | none => return none
    | some (.stopped selection) => return some (some selection)
    | some _ => return some none

/-! ## Fields -/

variable {m m' : Memory} {limit : Nat} {active : ActiveInterface} {record : Record}
  {records before after : List Record} {selection : HidInterfaceSelection}

@[simp]
theorem run_byteField (address : Nat) : (byteField address).run m = m address := by
  simp [byteField, Memory.load]

theorem within_byteField {address : Nat} :
    Within m limit (byteField address) ↔ address + 1 ≤ limit := by
  rw [byteField, within_bind, within_field]
  exact and_iff_left (within_pure _)

/-- An endpoint that sends interrupts to the host. -/
def InterruptIn (m : Memory) (record : Record) : Prop :=
  record.kind = kUsbDescriptorEndpoint ∧
    m (record.offset + 2) &&& kUsbEndpointDirectionIn ≠ 0#8 ∧
    m (record.offset + 3) &&& 0x03#8 = kUsbEndpointTransferInterrupt

/-- The end of the fields that the loop reads of a descriptor. -/
def fieldsEnd (m : Memory) (active : ActiveInterface) (record : Record) : Nat :=
  if record.kind = kUsbDescriptorConfiguration then 6
  else if record.kind = kUsbDescriptorInterface then 8
  else if record.kind = kUsbDescriptorEndpoint ∧ active.interfaceMatches then
    if m (record.offset + 2) &&& kUsbEndpointDirectionIn ≠ 0#8 then
      if m (record.offset + 3) &&& 0x03#8 = kUsbEndpointTransferInterrupt then 7 else 4
    else 3
  else 2

/-- The descriptors that the loop comes to have the fields it reads before the end of the bytes. -/
def FieldsFit (m : Memory) (bufferLength : Nat) : Prop :=
  kConfigurationDescriptorBytes ≤ bufferLength →
    ∀ active record, hidWalk.Reaches m bufferLength 0 {} active record →
      record.offset + fieldsEnd m active record ≤ bufferLength

theorem within_body (h : record.offset + 2 ≤ limit) :
    Within m limit (hidWalk.body active record.offset record.kind) ↔
      record.offset + fieldsEnd m active record ≤ limit := by
  simp only [hidWalk, fieldsEnd, within_ite, within_bind, within_byteField, within_field,
    run_byteField]
  have hpure : ∀ {α : Type} (a : α), Within m limit (pure a : Reader α) := within_pure
  simp only [hpure, and_true]
  split_ifs <;> simp_all <;> omega

theorem within_header {offset : Nat} (h : offset + 2 ≤ limit) :
    Within m limit (hidWalk.header offset) := by
  simp only [hidWalk, within_bind, within_field]
  exact ⟨by omega, by omega, within_pure _⟩

theorem parse_returns (m : Memory) (bufferLength : Nat) :
    ∃ result, ∀ fuel, bufferLength ≤ fuel →
      (parseHidBootConfiguration (fuel + 1) bufferLength).run m = some result := by
  unfold parseHidBootConfiguration
  split
  · exact ⟨none, fun _ _ => rfl⟩
  · obtain ⟨ending, hending⟩ := exists_ending hidWalk m bufferLength 0 {}
    refine ⟨match ending with | .stopped selection => some selection | _ => none,
      fun fuel hfuel => ?_⟩
    rw [run_bind, hending fuel (by omega)]
    cases ending <;> rfl

theorem within_parse {bufferLength fuel : Nat} (hfuel : bufferLength ≤ fuel) :
    Within m bufferLength (parseHidBootConfiguration (fuel + 1) bufferLength) ↔
      FieldsFit m bufferLength := by
  unfold parseHidBootConfiguration FieldsFit
  split
  · refine iff_of_true (within_pure _) fun hlong => ?_
    omega
  · rename_i hshort
    rw [within_bind, within_loop_iff (fun _ => within_header) (by omega),
      forall_prop_of_true (Nat.le_of_not_lt hshort)]
    have hrest : ∀ ending : Option (Ending ActiveInterface HidInterfaceSelection),
        Within m bufferLength (match ending with
          | none => pure none
          | some (.stopped selection) => pure (some (some selection))
          | some _ => pure (some none) : Reader (Option (Option HidInterfaceSelection))) := by
      intro ending
      split <;> exact within_pure _
    rw [and_iff_left (hrest _)]
    exact forall_congr' fun active => forall_congr' fun record =>
      forall_congr' fun hreach => within_body hreach.fits.1

/-! ## Well-formed configurations -/

/-- The descriptors are as long as their types ask, and the first one alone is a configuration. -/
structure WellFormed (m : Memory) (bufferLength : Nat) (first : Record) (rest : List Record) :
    Prop where
  chain : hidWalk.Chain m bufferLength 0 (first :: rest)
  configuration : first.kind = kUsbDescriptorConfiguration
  others : ∀ record ∈ rest, record.kind ≠ kUsbDescriptorConfiguration
  configuration_long : kConfigurationDescriptorBytes ≤ first.length
  interface_long : ∀ record ∈ rest, record.kind = kUsbDescriptorInterface →
    kInterfaceDescriptorBytes ≤ record.length
  endpoint_long : ∀ record ∈ rest, record.kind = kUsbDescriptorEndpoint →
    kEndpointDescriptorBytes ≤ record.length

/-- An interface of a boot keyboard or mouse in its first setting. -/
def BootInterface (m : Memory) (record : Record) : Prop :=
  m (record.offset + 3) = 0#8 ∧ m (record.offset + 5) = kUsbClassHid ∧
    m (record.offset + 6) = kUsbSubclassBoot ∧
    (m (record.offset + 7) = kUsbProtocolKeyboard ∨ m (record.offset + 7) = kUsbProtocolMouse)

/-- The interface to which the next endpoint belongs. -/
def lastInterface (records : List Record) : Option Record :=
  (records.filter (·.kind = kUsbDescriptorInterface)).getLast?

/-- The endpoint follows the interface, with no other interface between them. -/
def Candidate (m : Memory) (before : List Record) (interface endpoint : Record) : Prop :=
  lastInterface before = some interface ∧ BootInterface m interface ∧ InterruptIn m endpoint

/-- What is selected for an interface and its endpoint. -/
def selectionOf (m : Memory) (configuration interface endpoint : Record) :
    HidInterfaceSelection where
  valid := true
  protocol := bootProtocol (m (interface.offset + 7))
  configurationValue := m (configuration.offset + 5)
  interfaceNumber := m (interface.offset + 2)
  endpointAddress := m (endpoint.offset + 2)
  interval := m (endpoint.offset + 6)
  maxPacketSize := BitVec.ofNat 16 (m.load (endpoint.offset + 4) 2) &&& 0x07FF#16

/-- The selection belongs to the first candidate among the descriptors. -/
def Selects (m : Memory) (first : Record) (rest : List Record)
    (selection : HidInterfaceSelection) : Prop :=
  ∃ before endpoint after interface, rest = before ++ endpoint :: after ∧
    Candidate m before interface endpoint ∧
    (∀ earlier endpoint' later, before = earlier ++ endpoint' :: later →
      ∀ interface', ¬ Candidate m earlier interface' endpoint') ∧
    selection = selectionOf m first interface endpoint

/-- What the variables say about the descriptors before the next one. -/
structure Tracks (m : Memory) (first : Record) (before : List Record) (active : ActiveInterface) :
    Prop where
  configuration : active.configuration = m (first.offset + 5)
  interfaceMatches : active.interfaceMatches = true ↔
    ∃ interface, lastInterface before = some interface ∧ BootInterface m interface
  known : ∀ interface, lastInterface before = some interface →
    active.interfaceNumber = m (interface.offset + 2) ∧
      active.protocol = bootProtocol (m (interface.offset + 7))

variable {first : Record} {rest : List Record}

theorem lastInterface_append : lastInterface (before ++ [record]) =
    if record.kind = kUsbDescriptorInterface then some record else lastInterface before := by
  unfold lastInterface
  split <;> simp_all

theorem tracks_first (h : first.kind = kUsbDescriptorConfiguration) :
    ∃ active, (hidWalk.body {} first.offset first.kind).run m = .inl active ∧
      Tracks m first [] active := by
  refine ⟨{ configuration := m (first.offset + 5) }, ?_, rfl, ?_, ?_⟩
  · simp [hidWalk, h]
  · simp [lastInterface]
  · simp [lastInterface]

theorem run_body_interface (h : record.kind = kUsbDescriptorInterface) :
    (hidWalk.body active record.offset record.kind).run m = .inl { active with
      interfaceNumber := m (record.offset + 2)
      interfaceMatches := bootInterface (m (record.offset + 3)) (m (record.offset + 5))
        (m (record.offset + 6)) (m (record.offset + 7))
      protocol := bootProtocol (m (record.offset + 7)) } := by
  have hne : kUsbDescriptorInterface ≠ kUsbDescriptorConfiguration := by decide
  simp [hidWalk, h, hne]

theorem run_body_endpoint (h : InterruptIn m record) (hactive : active.interfaceMatches = true) :
    (hidWalk.body active record.offset record.kind).run m = .inr {
      valid := true
      protocol := active.protocol
      configurationValue := active.configuration
      interfaceNumber := active.interfaceNumber
      endpointAddress := m (record.offset + 2)
      interval := m (record.offset + 6)
      maxPacketSize := BitVec.ofNat 16 (m.load (record.offset + 4) 2) &&& 0x07FF#16 } := by
  obtain ⟨hkind, hin, hinterrupt⟩ := h
  have hconfiguration : kUsbDescriptorEndpoint ≠ kUsbDescriptorConfiguration := by decide
  have hinterface : kUsbDescriptorEndpoint ≠ kUsbDescriptorInterface := by decide
  simp [hidWalk, hkind, hconfiguration, hinterface, hactive, hin, hinterrupt]

theorem run_body_other (hconfiguration : record.kind ≠ kUsbDescriptorConfiguration)
    (hinterface : record.kind ≠ kUsbDescriptorInterface)
    (h : ¬ (active.interfaceMatches = true ∧ InterruptIn m record)) :
    (hidWalk.body active record.offset record.kind).run m = .inl active := by
  simp only [hidWalk, hconfiguration, hinterface, if_false]
  split_ifs with hendpoint
  · simp only [run_bind, run_byteField]
    split_ifs with hin
    · simp only [run_bind, run_byteField]
      rw [if_neg fun hinterrupt => h ⟨hendpoint.2, hendpoint.1, hin, hinterrupt⟩]
      rfl
    · rfl
  · rfl

/-- One descriptor: it is a candidate and stops the loop, or the variables go on. -/
theorem Tracks.step (h : Tracks m first before active)
    (hkind : record.kind ≠ kUsbDescriptorConfiguration) :
    (∃ interface, Candidate m before interface record ∧
      (hidWalk.body active record.offset record.kind).run m =
        .inr (selectionOf m first interface record)) ∨
    (∀ interface, ¬ Candidate m before interface record) ∧
      ∃ next, (hidWalk.body active record.offset record.kind).run m = .inl next ∧
        Tracks m first (before ++ [record]) next := by
  by_cases hinterface : record.kind = kUsbDescriptorInterface
  · right
    refine ⟨?_, _, run_body_interface hinterface, h.configuration, ?_, ?_⟩
    · rintro interface ⟨-, -, hendpoint, -⟩
      rw [hinterface] at hendpoint
      exact absurd hendpoint (by decide)
    · simp [lastInterface_append, hinterface, bootInterface, BootInterface]
    · simp [lastInterface_append, hinterface]
  · by_cases hstop : active.interfaceMatches = true ∧ InterruptIn m record
    · left
      obtain ⟨interface, hlast, hboot⟩ := h.interfaceMatches.mp hstop.1
      obtain ⟨hnumber, hprotocol⟩ := h.known interface hlast
      refine ⟨interface, ⟨hlast, hboot, hstop.2⟩, ?_⟩
      rw [run_body_endpoint hstop.2 hstop.1, selectionOf, hnumber, hprotocol, h.configuration]
    · right
      refine ⟨?_, active, run_body_other hkind hinterface hstop, h.configuration, ?_, ?_⟩
      · rintro interface ⟨hlast, hboot, hendpoint⟩
        exact hstop ⟨h.interfaceMatches.mpr ⟨interface, hlast, hboot⟩, hendpoint⟩
      · rw [lastInterface_append, if_neg hinterface]
        exact h.interfaceMatches
      · rw [lastInterface_append, if_neg hinterface]
        exact h.known

/-- No descriptor of `records` after `before` is a candidate. -/
def NoCandidate (m : Memory) (before records : List Record) : Prop :=
  ∀ earlier endpoint later, records = earlier ++ endpoint :: later →
    ∀ interface, ¬ Candidate m (before ++ earlier) interface endpoint

theorem NoCandidate.nil : NoCandidate m before [] := by
  intro earlier endpoint later hnil
  simp at hnil

theorem NoCandidate.cons (h : ∀ interface, ¬ Candidate m before interface record)
    (hrecords : NoCandidate m (before ++ [record]) records) :
    NoCandidate m before (record :: records) := by
  intro earlier endpoint later hsplit
  cases earlier with
  | nil =>
    obtain ⟨rfl, rfl⟩ := List.cons.inj hsplit
    simpa using h
  | cons head earlier =>
    obtain ⟨rfl, rfl⟩ := List.cons.inj hsplit
    simpa using hrecords earlier endpoint later rfl

theorem Tracks.fold (h : Tracks m first before active)
    (hkinds : ∀ record ∈ records, record.kind ≠ kUsbDescriptorConfiguration) :
    (∃ earlier endpoint later interface, records = earlier ++ endpoint :: later ∧
      NoCandidate m before earlier ∧ Candidate m (before ++ earlier) interface endpoint ∧
      hidWalk.fold m active records = .inr (selectionOf m first interface endpoint)) ∨
    NoCandidate m before records ∧ ∃ next, hidWalk.fold m active records = .inl next ∧
      Tracks m first (before ++ records) next := by
  induction records generalizing before active with
  | nil => exact .inr ⟨.nil, active, rfl, by rwa [List.append_nil]⟩
  | cons record records ih =>
    obtain ⟨hkind, hkinds⟩ := List.forall_mem_cons.mp hkinds
    rcases h.step hkind with ⟨interface, hcandidate, hbody⟩ | ⟨hnone, next, hbody, hnext⟩
    · left
      refine ⟨[], record, records, interface, rfl, .nil, ?_, ?_⟩
      · rwa [List.append_nil]
      · exact fold_cons_of_inr hbody
    · rw [fold_cons_of_inl hbody]
      rcases ih hnext hkinds with ⟨earlier, endpoint, later, interface, rfl, hearlier, hcandidate,
        hfold⟩ | ⟨hrecords, final, hfold, hfinal⟩
      · left
        refine ⟨record :: earlier, endpoint, later, interface, rfl, .cons hnone hearlier, ?_, hfold⟩
        rwa [List.append_assoc] at hcandidate
      · right
        refine ⟨.cons hnone hrecords, final, hfold, ?_⟩
        rwa [List.append_assoc] at hfinal

theorem Tracks.fold_of_selects (h : Tracks m first [] active)
    (hkinds : ∀ record ∈ rest, record.kind ≠ kUsbDescriptorConfiguration)
    (hselects : Selects m first rest selection) :
    hidWalk.fold m active rest = .inr selection := by
  obtain ⟨before, endpoint, after, interface, rfl, hcandidate, hfirst, rfl⟩ := hselects
  obtain ⟨hbefore, hrest⟩ := List.forall_mem_append.mp hkinds
  rcases h.fold hbefore with ⟨earlier, endpoint', later, interface', hsplit, -, hearlier, -⟩ |
    ⟨-, next, hfold, hnext⟩
  · exact absurd hearlier (hfirst earlier endpoint' later hsplit interface')
  · rw [fold_append, hfold]
    rcases hnext.step (hrest endpoint List.mem_cons_self) with
      ⟨interface', hcandidate', hbody⟩ | ⟨hnone, -⟩
    · obtain rfl : interface = interface' := by
        simpa using hcandidate.1.symm.trans hcandidate'.1
      exact fold_cons_of_inr hbody
    · exact absurd hcandidate (hnone interface)

/-- Over a well-formed configuration the first candidate is selected. -/
theorem WellFormed.run_parse {bufferLength fuel : Nat} (h : WellFormed m bufferLength first rest)
    (hfuel : bufferLength ≤ fuel) (selection : HidInterfaceSelection) :
    (parseHidBootConfiguration (fuel + 1) bufferLength).run m = some (some selection) ↔
      Selects m first rest selection := by
  have hlong : ¬ bufferLength < kConfigurationDescriptorBytes := by
    have hfits := h.chain.2.1.2.2
    have hfirst := h.configuration_long
    omega
  obtain ⟨active, hbody, htracks⟩ := tracks_first (m := m) h.configuration
  rw [parseHidBootConfiguration, if_neg hlong, run_bind, run_loop_of_chain h.chain (by omega),
    fold_cons_of_inl hbody]
  rcases htracks.fold h.others with ⟨earlier, endpoint, later, interface, hsplit, hearlier,
    hcandidate, hfold⟩ | ⟨hnone, final, hfold, -⟩
  · rw [hfold]
    constructor
    · intro hselected
      obtain rfl : selectionOf m first interface endpoint = selection := by simpa using hselected
      exact ⟨earlier, endpoint, later, interface, hsplit, hcandidate, hearlier, rfl⟩
    · intro hselects
      rw [Sum.inr.inj (hfold.symm.trans (htracks.fold_of_selects h.others hselects))]
      rfl
  · rw [hfold]
    refine iff_of_false (by simp) fun hselects => ?_
    have hstopped := htracks.fold_of_selects h.others hselects
    rw [hfold] at hstopped
    cases hstopped

theorem fieldsEnd_le {bound : Nat} (hbound : 2 ≤ bound)
    (hconfiguration : record.kind = kUsbDescriptorConfiguration → 6 ≤ bound)
    (hinterface : record.kind = kUsbDescriptorInterface → 8 ≤ bound)
    (hendpoint : record.kind = kUsbDescriptorEndpoint → 7 ≤ bound) :
    fieldsEnd m active record ≤ bound := by
  unfold fieldsEnd
  split_ifs <;> grind

theorem WellFormed.fieldsFit {bufferLength : Nat} (h : WellFormed m bufferLength first rest) :
    FieldsFit m bufferLength := by
  intro _ active record hreach
  have hfits := hreach.fits
  have hle : fieldsEnd m active record ≤ record.length := by
    have hfirst := h.configuration
    have hconfiguration := h.configuration_long
    rcases List.mem_cons.mp (hreach.mem_chain h.chain) with rfl | hmem
    · refine fieldsEnd_le hfits.2.1 (fun _ => ?_) (fun hkind => ?_) fun hkind => ?_
      · exact Nat.le_trans (by decide) hconfiguration
      · exact absurd (hkind.symm.trans hfirst) (by decide)
      · exact absurd (hkind.symm.trans hfirst) (by decide)
    · refine fieldsEnd_le hfits.2.1 (fun hkind => ?_) (fun hkind => ?_)
        (h.endpoint_long record hmem)
      · exact absurd hkind (h.others record hmem)
      · exact Nat.le_trans (by decide) (h.interface_long record hmem hkind)
  exact Nat.le_trans (Nat.add_le_add_left hle _) hfits.2.2

/-- The parse returns. It reads no field beyond the bytes, and depends on none, exactly when the
descriptors it comes to have their fields before the end; and it selects the first candidate of a
well-formed configuration. -/
theorem hid_configuration_iff (m : Memory) (bufferLength : Nat) :
    ∃ result, ∀ fuel, bufferLength ≤ fuel →
      (parseHidBootConfiguration (fuel + 1) bufferLength).run m = some result ∧
      (Within m bufferLength (parseHidBootConfiguration (fuel + 1) bufferLength) ∧
          (∀ m' : Memory, (∀ x < bufferLength, m x = m' x) →
            (parseHidBootConfiguration (fuel + 1) bufferLength).run m' = some result) ↔
        FieldsFit m bufferLength) ∧
      ∀ first rest, WellFormed m bufferLength first rest →
        FieldsFit m bufferLength ∧
          ∀ selection, result = some selection ↔ Selects m first rest selection := by
  obtain ⟨result, hreturns⟩ := parse_returns m bufferLength
  refine ⟨result, fun fuel hfuel => ⟨hreturns fuel hfuel, ?_, ?_⟩⟩
  · rw [← within_parse hfuel, and_iff_left_iff_imp]
    intro hwithin m' heq
    rw [(hwithin.congr heq).1]
    exact hreturns fuel hfuel
  · intro first rest hformed
    refine ⟨hformed.fieldsFit, fun selection => ?_⟩
    rw [← hformed.run_parse hfuel, hreturns fuel hfuel, Option.some.injEq]

/-- The bytes of a list, and others after them. -/
def bytesThen (bytes : List (BitVec 8)) (others : BitVec 8) : Memory :=
  fun x => bytes.getD x others

/-- A configuration with a boot keyboard interface and an interrupt endpoint. -/
def keyboardConfiguration : List (BitVec 8) :=
  [9, 2, 25, 0, 1, 1, 0, 0xA0, 50,
    9, 4, 0, 0, 1, 3, 1, 1, 0,
    7, 5, 0x81, 3, 8, 0, 10]

theorem keyboardConfiguration_selected :
    WellFormed (bytesThen keyboardConfiguration 0) 25 ⟨0, 9, 2⟩ [⟨9, 9, 4⟩, ⟨18, 7, 5⟩] ∧
      (parseHidBootConfiguration 26 25).run (bytesThen keyboardConfiguration 0) =
        some (some ⟨true, .keyboard, 1, 0, 0x81, 10, 8⟩) ∧
      Selects (bytesThen keyboardConfiguration 0) ⟨0, 9, 2⟩ [⟨9, 9, 4⟩, ⟨18, 7, 5⟩]
        ⟨true, .keyboard, 1, 0, 0x81, 10, 8⟩ := by
  have hformed : WellFormed (bytesThen keyboardConfiguration 0) 25 ⟨0, 9, 2⟩
      [⟨9, 9, 4⟩, ⟨18, 7, 5⟩] := by
    constructor
    · exact ⟨by decide +kernel, by decide, by decide +kernel, by decide, by decide +kernel,
        by decide, rfl⟩
    all_goals decide
  have hrun : (parseHidBootConfiguration 26 25).run (bytesThen keyboardConfiguration 0) =
      some (some ⟨true, .keyboard, 1, 0, 0x81, 10, 8⟩) := by decide +kernel
  obtain ⟨result, hresult⟩ := hid_configuration_iff (bytesThen keyboardConfiguration 0) 25
  obtain ⟨hreturns, -, hselects⟩ := hresult 25 (Nat.le_refl 25)
  refine ⟨hformed, hrun, ((hselects _ _ hformed).2 _).mp ?_⟩
  exact Option.some.inj (hreturns.symm.trans hrun)

/-- A configuration whose last descriptor is an endpoint of two bytes. -/
def shortEndpoint : List (BitVec 8) :=
  [9, 2, 20, 0, 1, 1, 0, 0xA0, 50,
    9, 4, 0, 0, 1, 3, 1, 1, 0,
    2, 5]

/-- The bytes after the last descriptor are read, and decide what is selected. -/
theorem shortEndpoint_reads_beyond :
    (∀ x < 20, bytesThen shortEndpoint 0 x = bytesThen shortEndpoint 0x83 x) ∧
      (parseHidBootConfiguration 21 20).run (bytesThen shortEndpoint 0) = some none ∧
      (parseHidBootConfiguration 21 20).run (bytesThen shortEndpoint 0x83) =
        some (some ⟨true, .keyboard, 1, 0, 0x83, 0x83, 0x383⟩) := by
  decide +kernel

end Os1.Hid
