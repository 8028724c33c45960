import Os1.Usb.XhciController

/-! The ports of an xHCI controller: their registers, reset and enumeration. -/
namespace Os1.Xhci

open Mmio

def kXhciPortTimeoutSpins : Nat := 1000000

variable {σ : Type} (device : Device σ)

/-- The loop in which `reset_port` waits for the port. -/
def pollReset (controller : ControllerLayout) (portId : BitVec 8) : Nat → Program σ Bool
  | 0 => return false
  | spins + 1 => do
    match ← readPortStatus device controller portId with
    | none => return false
    | some status =>
      if status.enabled ∧ ¬ status.reset then
        discard (clearPortChangeBits device controller portId kPortScChangeBits)
        return true
      else pollReset controller portId spins

/-- `reset_port` -/
def resetPort (controller : ControllerLayout) (portId : BitVec 8) : Program σ Bool := do
  match ← readPortStatus device controller portId with
  | none => return false
  | some status =>
    if ¬ status.connected then return false
    else
      if ¬ status.powered then discard (powerOnPort device controller portId)
      discard (clearPortChangeBits device controller portId kPortScChangeBits)
      write32 device controller.operational (portOffset portId)
        ((status.raw &&& ~~~kPortScChangeBits) ||| kPortScPortPower ||| kPortScPortReset)
      pollReset device controller portId kXhciPortTimeoutSpins

/-! ## The register of a port -/

/-- A write to the register: the change bits and the enabled bit are cleared by ones, power is
written, a reset is started by a one, and the other bits stay. -/
def writePortsc (old value : BitVec 32) : BitVec 32 :=
  ((old &&& ~~~(value &&& (kPortScChangeBits ||| kPortScPortEnabled))) &&& ~~~kPortScPortPower) |||
    (value &&& (kPortScPortPower ||| kPortScPortReset))

/-- A port, with the number of accesses, and as history what the last read has returned. -/
structure Port where
  portsc : BitVec 32
  accesses : Nat := 0
  lastRead : BitVec 32 := 0
  deriving DecidableEq, Repr

/-- The register at the address. Before each access the port's hardware may change it. -/
def portDevice (address : Nat) (hardware : Nat → BitVec 32 → BitVec 32) : Device Port where
  read port place _ :=
    let portsc := hardware port.accesses port.portsc
    if place = address then (portsc.toNat, ⟨portsc, port.accesses + 1, portsc⟩)
    else (0, ⟨portsc, port.accesses + 1, port.lastRead⟩)
  write port place _ value :=
    let portsc := hardware port.accesses port.portsc
    if place = address then
      ⟨writePortsc portsc (BitVec.ofNat 32 value), port.accesses + 1, port.lastRead⟩
    else ⟨portsc, port.accesses + 1, port.lastRead⟩

theorem getLsbD_changeBits (i : Nat) :
    kPortScChangeBits.getLsbD i = decide (17 ≤ i ∧ i < 24) := by
  by_cases hi : i < 32
  · revert i
    decide
  · rw [BitVec.getLsbD_of_ge _ _ (by omega)]
    simp
    omega

theorem getLsbD_one_shiftLeft {k : Nat} (hk : k < 32) (i : Nat) :
    (1#32 <<< k).getLsbD i = decide (i = k) := by
  rw [← BitVec.twoPow_eq, BitVec.getLsbD_twoPow]
  simp [hk, eq_comm]

theorem getLsbD_portEnabled (i : Nat) : kPortScPortEnabled.getLsbD i = decide (i = 1) :=
  getLsbD_one_shiftLeft (by decide) i

theorem getLsbD_portPower (i : Nat) : kPortScPortPower.getLsbD i = decide (i = 9) :=
  getLsbD_one_shiftLeft (by decide) i

theorem getLsbD_portReset (i : Nat) : kPortScPortReset.getLsbD i = decide (i = 4) :=
  getLsbD_one_shiftLeft (by decide) i

theorem and_one_shiftLeft_ne_zero {k : Nat} (hk : k < 32) (raw : BitVec 32) :
    raw &&& 1#32 <<< k ≠ 0 ↔ raw.getLsbD k = true := by
  constructor
  · intro hne
    by_contra hbit
    rw [← BitVec.twoPow_eq, BitVec.and_twoPow, if_neg hbit] at hne
    exact hne rfl
  · intro hbit hzero
    have hk' := congrArg (BitVec.getLsbD · k) hzero
    simp only [BitVec.getLsbD_and, getLsbD_one_shiftLeft hk, hbit] at hk'
    simp at hk'

theorem enabled_eq (raw : BitVec 32) : (portStatus raw).enabled = raw.getLsbD 1 := by
  rw [Bool.eq_iff_iff, ← and_one_shiftLeft_ne_zero (by decide)]
  exact decide_eq_true_iff

theorem powered_eq (raw : BitVec 32) : (portStatus raw).powered = raw.getLsbD 9 := by
  rw [Bool.eq_iff_iff, ← and_one_shiftLeft_ne_zero (by decide)]
  exact decide_eq_true_iff

variable {old value : BitVec 32}

theorem getLsbD_writePortsc (i : Nat) :
    (writePortsc old value).getLsbD i =
      if (17 ≤ i ∧ i < 24) ∨ i = 1 then old.getLsbD i && !value.getLsbD i
      else if i = 9 then value.getLsbD i
      else if i = 4 then old.getLsbD i || value.getLsbD i
      else old.getLsbD i := by
  by_cases hi : i < 32
  · simp only [writePortsc, BitVec.getLsbD_or, BitVec.getLsbD_and, BitVec.getLsbD_not,
      getLsbD_changeBits, getLsbD_portEnabled, getLsbD_portPower, getLsbD_portReset, hi]
    split_ifs with hclear hpower hreset
    all_goals simp_all
    all_goals grind
  · simp [BitVec.getLsbD_of_ge _ _ (Nat.le_of_not_lt hi)]

theorem enabled_writePortsc : (portStatus (writePortsc old value)).enabled =
    ((portStatus old).enabled && !(portStatus value).enabled) := by
  simp only [enabled_eq, getLsbD_writePortsc]
  simp

theorem powered_writePortsc : (portStatus (writePortsc old value)).powered =
    (portStatus value).powered := by
  simp only [powered_eq, getLsbD_writePortsc]
  simp

theorem changes_writePortsc : writePortsc old value &&& kPortScChangeBits =
    old &&& ~~~value &&& kPortScChangeBits := by
  refine BitVec.eq_of_getLsbD_eq fun i hi => ?_
  rw [BitVec.getLsbD_and, getLsbD_writePortsc, BitVec.getLsbD_and, BitVec.getLsbD_and,
    BitVec.getLsbD_not, getLsbD_changeBits]
  by_cases hchange : 17 ≤ i ∧ i < 24
  · simp [hchange, hi]
  · simp [hchange]

/-! ## What the driver writes -/

variable {controller : ControllerLayout} {portId : BitVec 8}
  {hardware : Nat → BitVec 32 → BitVec 32} {bus : Bus Port}

/-- The device of a controller's port. -/
def portOf (controller : ControllerLayout) (portId : BitVec 8)
    (hardware : Nat → BitVec 32 → BitVec 32) : Device Port :=
  portDevice (controller.operational + portOffset portId) hardware

/-- The port after its register has been read and written back. -/
def updated (hardware : Nat → BitVec 32 → BitVec 32) (value : BitVec 32 → BitVec 32)
    (port : Port) : Port :=
  let raw := hardware port.accesses port.portsc
  ⟨writePortsc (hardware (port.accesses + 1) raw) (value raw), port.accesses + 2, raw⟩

theorem read_port (bus : Bus Port) :
    (read32 (portOf controller portId hardware) controller.operational (portOffset portId) bus).1 =
        hardware bus.state.accesses bus.state.portsc ∧
      (read32 (portOf controller portId hardware) controller.operational (portOffset portId)
        bus).2.state = ⟨hardware bus.state.accesses bus.state.portsc, bus.state.accesses + 1,
          hardware bus.state.accesses bus.state.portsc⟩ := by
  simp [read32, Mmio.read, portOf, portDevice]

theorem write_port (bus : Bus Port) (value : BitVec 32) :
    (write32 (portOf controller portId hardware) controller.operational (portOffset portId) value
      bus).2.state = ⟨writePortsc (hardware bus.state.accesses bus.state.portsc) value,
        bus.state.accesses + 1, bus.state.lastRead⟩ := by
  simp [write32, Mmio.write, portOf, portDevice]

theorem updatePort_run (h : PortReadable controller portId) (value : BitVec 32 → BitVec 32)
    (bus : Bus Port) :
    (updatePort (portOf controller portId hardware) controller portId value bus).1 = true ∧
      (updatePort (portOf controller portId hardware) controller portId value bus).2.state =
        updated hardware value bus.state := by
  rw [updatePort_eq, if_pos h]
  refine ⟨rfl, ?_⟩
  simp only [run_bind, run_pure, write_port, read_port, updated]

/-- What clearing change bits writes. -/
def clearValue (mask raw : BitVec 32) : BitVec 32 := raw ||| (mask &&& kPortScChangeBits)

theorem clearPortChangeBits_run (h : PortReadable controller portId) (mask : BitVec 32)
    (bus : Bus Port) :
    (clearPortChangeBits (portOf controller portId hardware) controller portId mask bus).2.state =
      updated hardware (clearValue mask) bus.state :=
  (updatePort_run h _ _).2

/-- All change bits are written as ones where they are set, and so is the enabled bit. -/
theorem clear_value_effect (raw mask : BitVec 32) :
    writePortsc raw (clearValue mask raw) &&& kPortScChangeBits = 0 ∧
      (portStatus (writePortsc raw (clearValue mask raw))).enabled = false := by
  constructor
  · rw [changes_writePortsc, clearValue]
    refine BitVec.eq_of_getLsbD_eq fun i hi => ?_
    simp only [BitVec.getLsbD_and, BitVec.getLsbD_not, BitVec.getLsbD_or]
    cases raw.getLsbD i <;> simp
  · rw [enabled_writePortsc, clearValue]
    simp only [enabled_eq, BitVec.getLsbD_or]
    cases raw.getLsbD 1 <;> simp

/-- Power is written as a one and the change bits as zeros, but the enabled bit as it was read. -/
theorem power_value_effect (raw : BitVec 32) :
    writePortsc raw ((raw &&& ~~~kPortScChangeBits) ||| kPortScPortPower) &&& kPortScChangeBits =
        raw &&& kPortScChangeBits ∧
      (portStatus (writePortsc raw
        ((raw &&& ~~~kPortScChangeBits) ||| kPortScPortPower))).powered = true ∧
      (portStatus (writePortsc raw
        ((raw &&& ~~~kPortScChangeBits) ||| kPortScPortPower))).enabled = false := by
  refine ⟨?_, ?_, ?_⟩
  · rw [changes_writePortsc]
    refine BitVec.eq_of_getLsbD_eq fun i hi => ?_
    simp only [BitVec.getLsbD_and, BitVec.getLsbD_not, BitVec.getLsbD_or, getLsbD_changeBits,
      getLsbD_portPower, hi]
    by_cases hchange : 17 ≤ i ∧ i < 24
    · have hpower : i ≠ 9 := by omega
      simp [hchange, hpower]
    · simp [hchange]
  · rw [powered_writePortsc, powered_eq, BitVec.getLsbD_or, getLsbD_portPower]
    simp
  · rw [enabled_writePortsc, enabled_eq, enabled_eq, BitVec.getLsbD_or, BitVec.getLsbD_and,
      BitVec.getLsbD_not, getLsbD_changeBits, getLsbD_portPower]
    cases raw.getLsbD 1 <;> simp

theorem pollReset_succ (h : PortReadable controller portId) (spins : Nat) (bus : Bus Port) :
    pollReset (portOf controller portId hardware) controller portId (spins + 1) bus =
      let found := read32 (portOf controller portId hardware) controller.operational
        (portOffset portId) bus
      if (portStatus found.1).enabled ∧ ¬ (portStatus found.1).reset then
        (true, (clearPortChangeBits (portOf controller portId hardware) controller portId
          kPortScChangeBits found.2).2)
      else pollReset (portOf controller portId hardware) controller portId spins found.2 := by
  rw [pollReset, readPortStatus_eq, if_pos h]
  simp only [run_bind, run_pure, run_ite]
  rfl

/-- Where the loop has returned true, it has just cleared the change bits. -/
theorem pollReset_run (h : PortReadable controller portId) {spins : Nat} {bus after : Bus Port}
    (hrun : pollReset (portOf controller portId hardware) controller portId spins bus =
      (true, after)) :
    ∃ port, after.state = updated hardware (clearValue kPortScChangeBits) port := by
  induction spins generalizing bus with
  | zero => cases hrun
  | succ spins ih =>
    rw [pollReset_succ h] at hrun
    dsimp only at hrun
    split at hrun
    · obtain ⟨-, rfl⟩ := Prod.mk.inj hrun
      exact ⟨_, clearPortChangeBits_run h _ _⟩
    · exact ih hrun

theorem resetPort_run (h : PortReadable controller portId) {bus after : Bus Port}
    (hrun : resetPort (portOf controller portId hardware) controller portId bus = (true, after)) :
    ∃ port, after.state = updated hardware (clearValue kPortScChangeBits) port := by
  rw [resetPort, readPortStatus_eq, if_pos h] at hrun
  simp only [run_bind, run_pure, run_ite] at hrun
  split at hrun
  · cases hrun
  · split at hrun <;> exact pollReset_run h hrun

/-- The enabled bit is written as it was read, so it ends up set only if it was not set then. -/
theorem enabled_updated_clear (port : Port) :
    (portStatus (updated hardware (clearValue kPortScChangeBits) port).portsc).enabled = true ↔
      (portStatus (hardware port.accesses port.portsc)).enabled = false ∧
        (portStatus (hardware (port.accesses + 1)
          (hardware port.accesses port.portsc))).enabled = true := by
  have hvalue : ∀ raw, (portStatus (clearValue kPortScChangeBits raw)).enabled =
      (portStatus raw).enabled := by
    intro raw
    rw [enabled_eq, enabled_eq, clearValue, BitVec.getLsbD_or, BitVec.getLsbD_and,
      getLsbD_changeBits]
    simp
  simp only [updated, enabled_writePortsc, hvalue]
  simp [and_comm]

/-- Hardware that leaves the register to the driver. -/
def quiet (_ : Nat) (raw : BitVec 32) : BitVec 32 := raw

/-- `clear_port_change_bits` clears the asked bits and keeps the port enabled exactly when no other
change bit is set and the port is not enabled; `power_on_port` exactly when the port is not
enabled. A port that `reset_port` has reset is enabled afterwards only if the hardware enables it
between the last read, which has found it disabled, and the last write. -/
theorem port_writes_iff (h : PortReadable controller portId) (raw mask : BitVec 32)
    (hardware : Nat → BitVec 32 → BitVec 32) (bus : Bus Port) :
    (let after := (clearPortChangeBits (portOf controller portId quiet) controller portId mask
        ⟨{ portsc := raw }, []⟩).2.state.portsc;
      after &&& kPortScChangeBits = raw &&& kPortScChangeBits &&& ~~~mask ∧
          ((portStatus raw).enabled → (portStatus after).enabled) ↔
        raw &&& kPortScChangeBits &&& ~~~mask = 0 ∧ (portStatus raw).enabled = false) ∧
    (let after := (powerOnPort (portOf controller portId quiet) controller portId
        ⟨{ portsc := raw }, []⟩).2.state.portsc;
      (portStatus after).powered ∧
          after &&& kPortScChangeBits = raw &&& kPortScChangeBits ∧
          ((portStatus raw).enabled → (portStatus after).enabled) ↔
        (portStatus raw).enabled = false) ∧
    ∀ after, resetPort (portOf controller portId hardware) controller portId bus = (true, after) →
      ((portStatus after.state.portsc).enabled ↔
        (portStatus after.state.lastRead).enabled = false ∧
          (portStatus
            (hardware (after.state.accesses - 1) after.state.lastRead)).enabled = true) := by
  refine ⟨?_, ?_, ?_⟩
  · obtain ⟨hchanges, henabled⟩ := clear_value_effect raw mask
    dsimp only
    rw [clearPortChangeBits_run h]
    simp only [updated, quiet, hchanges, henabled]
    rw [eq_comm]
    simp
  · obtain ⟨hchanges, hpowered, henabled⟩ := power_value_effect raw
    dsimp only
    rw [powerOnPort, (updatePort_run h _ _).2]
    simp only [updated, quiet, hchanges, hpowered, henabled]
    simp
  · intro after hrun
    obtain ⟨port, hport⟩ := resetPort_run h hrun
    rw [hport, enabled_updated_clear]
    rfl

theorem disconnected_port_powered :
    PortReadable (layoutAt 0x800) 3 ∧
      (portStatus (powerOnPort (portOf (layoutAt 0x800) 3 quiet) (layoutAt 0x800) 3
        ⟨{ portsc := 0x20000 }, []⟩).2.state.portsc).powered := by
  have h : PortReadable (layoutAt 0x800) 3 := by decide
  exact ⟨h, ((port_writes_iff h 0x20000 0 quiet ⟨{ portsc := 0 }, []⟩).2.1.mpr (by decide)).1⟩

/-- Hardware that ends a reset before the next access, with the port enabled. -/
def endReset (_ : Nat) (raw : BitVec 32) : BitVec 32 :=
  if (portStatus raw).reset then (raw &&& ~~~kPortScPortReset) ||| kPortScPortEnabled ||| 1 <<< 21
  else raw

/-- An enabled port with two changes loses both when one is cleared, and is disabled; powering it
disables it; and a port that was reset is disabled though `reset_port` returns true. -/
theorem port_writes_disable :
    PortReadable (layoutAt 0x800) 3 ∧
    (clearPortChangeBits (portOf (layoutAt 0x800) 3 quiet) (layoutAt 0x800) 3 (1 <<< 17)
        ⟨{ portsc := 0x220203 }, []⟩).2.state.portsc = 0x201 ∧
    (powerOnPort (portOf (layoutAt 0x800) 3 quiet) (layoutAt 0x800) 3
        ⟨{ portsc := 0x203 }, []⟩).2.state.portsc = 0x201 ∧
    (resetPort (portOf (layoutAt 0x800) 3 endReset) (layoutAt 0x800) 3
        ⟨{ portsc := 0x201 }, []⟩).1 = true ∧
    (resetPort (portOf (layoutAt 0x800) 3 endReset) (layoutAt 0x800) 3
        ⟨{ portsc := 0x201 }, []⟩).2.state.portsc = 0x201 := by
  decide +kernel

/-! ## Enumeration -/

/-- `enumerate_ports`, with the ports that were examined; `none` when the fuel ends first. -/
def enumeratePorts {σ : Type} (device : Device σ) (initializeHidPort : BitVec 8 → Program σ Bool)
    (controller : ControllerLayout) :
    Nat → BitVec 8 → List (BitVec 8) → Bus σ → Option (List (BitVec 8) × Bus σ)
  | 0, _, _, _ => none
  | fuel + 1, portId, examined, bus =>
    if portId ≤ controller.capability.maxPorts then
      let (status, bus) := readPortStatus device controller portId bus
      let bus := if (status.map (·.connected)).getD false then (initializeHidPort portId bus).2
        else bus
      enumeratePorts device initializeHidPort controller fuel (portId + 1) (examined ++ [portId])
        bus
    else some (examined, bus)

section Enumeration

variable {σ : Type} {device : Device σ} {initializeHidPort : BitVec 8 → Program σ Bool}
  {controller : ControllerLayout}

/-- With 255 ports the counter wraps before it passes them. -/
theorem enumeratePorts_endless (h : controller.capability.maxPorts = 255) (fuel : Nat)
    (portId : BitVec 8) (examined : List (BitVec 8)) (bus : Bus σ) :
    enumeratePorts device initializeHidPort controller fuel portId examined bus = none := by
  induction fuel generalizing portId examined bus with
  | zero => rfl
  | succ fuel ih =>
    have hle : portId ≤ controller.capability.maxPorts := by
      rw [h]
      exact BitVec.le_def.mpr (Nat.le_of_lt_succ portId.isLt)
    rw [enumeratePorts, if_pos hle]
    exact ih ..

theorem enumeratePorts_returns {rest : Nat} {portId : BitVec 8}
    (hports : portId.toNat + rest = controller.capability.maxPorts.toNat + 1)
    (hlt : controller.capability.maxPorts.toNat < 255) (examined : List (BitVec 8))
    (bus : Bus σ) :
    ∃ after, ∀ fuel, rest < fuel →
      enumeratePorts device initializeHidPort controller fuel portId examined bus =
        some (examined ++ (List.range' portId.toNat rest).map (BitVec.ofNat 8), after) := by
  induction rest generalizing portId examined bus with
  | zero =>
    refine ⟨bus, fun fuel hfuel => ?_⟩
    obtain ⟨fuel, rfl⟩ := Nat.exists_eq_add_of_lt hfuel
    have hgt : ¬ portId ≤ controller.capability.maxPorts := by
      rw [BitVec.le_def]
      omega
    simp [enumeratePorts, hgt]
  | succ rest ih =>
    have hle : portId ≤ controller.capability.maxPorts := by
      rw [BitVec.le_def]
      omega
    have hnext : (portId + 1).toNat = portId.toNat + 1 := by
      rw [BitVec.toNat_add]
      exact Nat.mod_eq_of_lt (by simp; omega)
    have hexamined : examined ++ (List.range' portId.toNat (rest + 1)).map (BitVec.ofNat 8) =
        examined ++ [portId] ++ (List.range' (portId + 1).toNat rest).map (BitVec.ofNat 8) := by
      rw [hnext, List.range'_succ]
      simp
    have hrest : (portId + 1).toNat + rest = controller.capability.maxPorts.toNat + 1 := by omega
    obtain ⟨after, hafter⟩ := ih hrest (examined ++ [portId]) _
    refine ⟨after, fun fuel hfuel => ?_⟩
    obtain ⟨fuel, rfl⟩ := Nat.exists_eq_add_of_lt hfuel
    rw [enumeratePorts, if_pos hle, hexamined]
    exact hafter _ (by omega)

/-- Enumeration ends, with each port examined once and in order, exactly when there are fewer than
255 ports. -/
theorem enumerate_ports_iff (device : Device σ)
    (initializeHidPort : BitVec 8 → Program σ Bool) (controller : ControllerLayout)
    (bus : Bus σ) :
    (∃ bound after, ∀ fuel, bound ≤ fuel →
        enumeratePorts device initializeHidPort controller fuel 1 [] bus =
          some ((List.range' 1 controller.capability.maxPorts.toNat).map (BitVec.ofNat 8), after)) ↔
      controller.capability.maxPorts ≠ 255 := by
  constructor
  · rintro ⟨bound, after, hreturns⟩ hmax
    have hsome := hreturns bound (Nat.le_refl _)
    rw [enumeratePorts_endless hmax] at hsome
    cases hsome
  · intro hmax
    have hlt : controller.capability.maxPorts.toNat < 255 := by
      have hle := controller.capability.maxPorts.isLt
      have hne : controller.capability.maxPorts.toNat ≠ 255 :=
        fun h => hmax (BitVec.eq_of_toNat_eq h)
      omega
    have hports : (1 : BitVec 8).toNat + controller.capability.maxPorts.toNat =
        controller.capability.maxPorts.toNat + 1 := Nat.add_comm ..
    obtain ⟨after, hafter⟩ := enumeratePorts_returns hports hlt [] bus
    exact ⟨controller.capability.maxPorts.toNat + 1, after, fun fuel hfuel => hafter fuel hfuel⟩

end Enumeration

/-- A controller with 255 ports. -/
def manyPortsController : Device Unit :=
  fixedRegisters [(0x1000, 0x20), (0x1004, 0xFF000140), (0x1014, 0x800), (0x1018, 0x600)]

/-- A controller with 255 ports is accepted, and its enumeration does not end. -/
theorem manyPorts_enumeration_endless :
    ∃ controller, (parseCapability manyPortsController 0x1000 0x1000 ⟨(), []⟩).1 =
        some controller ∧
      ∀ fuel, enumeratePorts manyPortsController (fun _ => pure true) controller fuel 1 []
        ⟨(), []⟩ = none := by
  refine ⟨{ layoutAt 0x800 with
    capability := { (layoutAt 0x800).capability with maxPorts := 255 } }, by decide +kernel,
    fun fuel => ?_⟩
  exact enumeratePorts_endless rfl fuel 1 [] ⟨(), []⟩

end Os1.Xhci
