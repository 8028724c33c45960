import Os1.Lib.Mmio

/-! The capability registers of an xHCI controller and the accesses through its layout. -/
namespace Os1.Xhci

open Mmio

def kDoorbellBytes : Nat := 4
def kOperationalPortRegisterBase : Nat := 0x400
def kPortRegisterStride : Nat := 0x10
def kPortSc : Nat := 0x00

def kPortScCurrentConnectStatus : BitVec 32 := 1#32 <<< 0
def kPortScPortEnabled : BitVec 32 := 1#32 <<< 1
def kPortScPortReset : BitVec 32 := 1#32 <<< 4
def kPortScPortPower : BitVec 32 := 1#32 <<< 9
def kPortScPortSpeedMask : BitVec 32 := 0xF#32 <<< 10
def kPortScChangeBits : BitVec 32 :=
  1#32 <<< 17 ||| 1#32 <<< 18 ||| 1#32 <<< 19 ||| 1#32 <<< 20 ||| 1#32 <<< 21 ||| 1#32 <<< 22 |||
    1#32 <<< 23

def kOperationalUsbcmd : Nat := 0x00
def kOperationalUsbsts : Nat := 0x04
def kOperationalPagesize : Nat := 0x08
def kOperationalDnctrl : Nat := 0x14
def kOperationalCrcr : Nat := 0x18
def kOperationalDcbaap : Nat := 0x30
def kOperationalConfig : Nat := 0x38

def kRuntimeInterrupter0 : Nat := 0x20
def kInterrupterIman : Nat := 0x00
def kInterrupterImod : Nat := 0x04
def kInterrupterErstsz : Nat := 0x08
def kInterrupterErstba : Nat := 0x10
def kInterrupterErdp : Nat := 0x18

def kUsbcmdRunStop : BitVec 32 := 1#32 <<< 0
def kUsbcmdHostControllerReset : BitVec 32 := 1#32 <<< 1
def kUsbcmdInterrupterEnable : BitVec 32 := 1#32 <<< 2
def kUsbstsHalted : BitVec 32 := 1#32 <<< 0
def kUsbstsControllerNotReady : BitVec 32 := 1#32 <<< 11
def kUsbStsWriteClearMask : BitVec 32 := 1#32 <<< 2 ||| 1#32 <<< 3 ||| 1#32 <<< 4
def kImanInterruptPending : BitVec 32 := 1#32 <<< 0
def kImanInterruptEnable : BitVec 32 := 1#32 <<< 1
def kErdpEventHandlerBusy : BitVec 64 := 1#64 <<< 3

structure Capability where
  capLength : BitVec 8 := 0
  hciVersion : BitVec 16 := 0
  maxSlots : BitVec 8 := 0
  maxInterrupters : BitVec 16 := 0
  maxPorts : BitVec 8 := 0
  contextSizeBytes : BitVec 8 := 32
  scratchpadBuffers : BitVec 16 := 0
  doorbellOffset : BitVec 32 := 0
  runtimeOffset : BitVec 32 := 0
  deriving DecidableEq, Repr

/-- Addresses, of which zero is the null pointer. -/
structure ControllerLayout where
  mmioBase : Nat := 0
  mmioSize : Nat := 0
  capability : Capability := {}
  operational : Nat := 0
  runtime : Nat := 0
  doorbells : Nat := 0
  deriving DecidableEq, Repr

structure PortStatus where
  raw : BitVec 32 := 0
  speed : BitVec 8 := 0
  connected : Bool := false
  enabled : Bool := false
  powered : Bool := false
  reset : Bool := false
  hasChanges : Bool := false
  deriving DecidableEq, Repr

structure RingSet where
  dcbaaPhysical : BitVec 64 := 0
  commandRingPhysical : BitVec 64 := 0
  eventRingPhysical : BitVec 64 := 0
  erstPhysical : BitVec 64 := 0
  commandRingCycleState : Bool := false
  eventRingTrbCount : BitVec 32 := 0
  deriving DecidableEq, Repr

variable {σ : Type} (device : Device σ)

def read32 (base offset : Nat) : Program σ (BitVec 32) := Mmio.read device 32 (base + offset)

def read16 (base offset : Nat) : Program σ (BitVec 16) := Mmio.read device 16 (base + offset)

def read8 (base offset : Nat) : Program σ (BitVec 8) := Mmio.read device 8 (base + offset)

def write32 (base offset : Nat) (value : BitVec 32) : Program σ Unit :=
  Mmio.write device (base + offset) value

/-- `write64`: the low half first. -/
def write64 (base offset : Nat) (value : BitVec 64) : Program σ Unit := do
  write32 device base offset (value.setWidth 32)
  write32 device base (offset + 4) ((value >>> 32).setWidth 32)

/-- `parse_capability` -/
def parseCapability (mmioBase mmioSize : Nat) : Program σ (Option ControllerLayout) := do
  if mmioBase = 0 ∨ mmioSize < 0x40 then
    return none
  else
    let capLength ← read8 device mmioBase 0x00
    if capLength.toNat < 0x20 ∨ mmioSize ≤ capLength.toNat then
      return none
    else
      let hcsp1 ← read32 device mmioBase 0x04
      let hcsp2 ← read32 device mmioBase 0x08
      let hccparams1 ← read32 device mmioBase 0x10
      let doorbell ← read32 device mmioBase 0x14
      let doorbellOffset := doorbell &&& ~~~0x3#32
      let runtime ← read32 device mmioBase 0x18
      let runtimeOffset := runtime &&& ~~~0x1F#32
      if mmioSize < capLength.toNat + kOperationalConfig + 4 ∨
          mmioSize < doorbellOffset.toNat + 4 ∨
          mmioSize < runtimeOffset.toNat + kRuntimeInterrupter0 + kInterrupterErdp + 8 then
        return none
      else
        let hciVersion ← read16 device mmioBase 0x02
        return some {
          mmioBase := mmioBase
          mmioSize := mmioSize
          capability := {
            capLength := capLength
            hciVersion := hciVersion
            maxSlots := (hcsp1 &&& 0xFF#32).setWidth 8
            maxInterrupters := ((hcsp1 >>> 8) &&& 0x7FF#32).setWidth 16
            maxPorts := ((hcsp1 >>> 24) &&& 0xFF#32).setWidth 8
            contextSizeBytes := if hccparams1 &&& 1#32 <<< 2 ≠ 0 then 64 else 32
            scratchpadBuffers := (((hcsp2 >>> 27) &&& 0x1F#32) |||
              (((hcsp2 >>> 21) &&& 0x1F#32) <<< 5)).setWidth 16
            doorbellOffset := doorbellOffset
            runtimeOffset := runtimeOffset }
          operational := mmioBase + capLength.toNat
          runtime := mmioBase + runtimeOffset.toNat
          doorbells := mmioBase + doorbellOffset.toNat }

/-- `read_page_size_mask` -/
def readPageSizeMask (controller : ControllerLayout) : Program σ (BitVec 32) :=
  if controller.operational ≠ 0 then read32 device controller.operational kOperationalPagesize
  else return 0

/-- `ring_doorbell` -/
def ringDoorbell (controller : ControllerLayout) (doorbellIndex target : BitVec 8)
    (streamId : BitVec 16) : Program σ Unit :=
  if controller.doorbells = 0 then return ()
  else
    write32 device controller.doorbells (doorbellIndex.toNat * kDoorbellBytes)
      (target.setWidth 32 ||| streamId.setWidth 32 <<< 16)

/-- The offset of a port's status and control register. -/
def portOffset (portId : BitVec 8) : Nat :=
  kOperationalPortRegisterBase + (portId.toNat - 1) * kPortRegisterStride + kPortSc

def portStatus (raw : BitVec 32) : PortStatus where
  raw := raw
  speed := ((raw &&& kPortScPortSpeedMask) >>> 10).setWidth 8
  connected := raw &&& kPortScCurrentConnectStatus ≠ 0
  enabled := raw &&& kPortScPortEnabled ≠ 0
  powered := raw &&& kPortScPortPower ≠ 0
  reset := raw &&& kPortScPortReset ≠ 0
  hasChanges := raw &&& kPortScChangeBits ≠ 0

/-- `read_port_status` -/
def readPortStatus (controller : ControllerLayout) (portId : BitVec 8) :
    Program σ (Option PortStatus) :=
  if controller.operational = 0 ∨ portId = 0 ∨ controller.capability.maxPorts < portId then
    return none
  else if controller.mmioSize < controller.capability.capLength.toNat + portOffset portId + 4 then
    return none
  else do
    let raw ← read32 device controller.operational (portOffset portId)
    return some (portStatus raw)

/-- Read a port's register and write back what `value` makes of it. -/
def updatePort (controller : ControllerLayout) (portId : BitVec 8)
    (value : BitVec 32 → BitVec 32) : Program σ Bool := do
  match ← readPortStatus device controller portId with
  | none => return false
  | some status =>
    write32 device controller.operational (portOffset portId) (value status.raw)
    return true

/-- `clear_port_change_bits` -/
def clearPortChangeBits (controller : ControllerLayout) (portId : BitVec 8)
    (clearMask : BitVec 32) : Program σ Bool :=
  updatePort device controller portId fun raw => raw ||| (clearMask &&& kPortScChangeBits)

/-- `power_on_port` -/
def powerOnPort (controller : ControllerLayout) (portId : BitVec 8) : Program σ Bool :=
  updatePort device controller portId fun raw => (raw &&& ~~~kPortScChangeBits) ||| kPortScPortPower

/-- `wait_for_mask`, without a poll hook. -/
def waitForMask (operational offset : Nat) (mask expected : BitVec 32) : Nat → Program σ Bool
  | 0 => do return (← read32 device operational offset) &&& mask = expected
  | timeoutSpins + 1 => do
    if (← read32 device operational offset) &&& mask = expected then return true
    else waitForMask operational offset mask expected timeoutSpins

/-- `controller_stop` -/
def controllerStop (controller : ControllerLayout) (timeoutSpins : Nat) : Program σ Bool :=
  if controller.operational = 0 then return false
  else do
    let command ← read32 device controller.operational kOperationalUsbcmd
    if command &&& kUsbcmdRunStop ≠ 0 then
      write32 device controller.operational kOperationalUsbcmd (command &&& ~~~kUsbcmdRunStop)
    waitForMask device controller.operational kOperationalUsbsts kUsbstsHalted kUsbstsHalted
      timeoutSpins

/-- `controller_reset` -/
def controllerReset (controller : ControllerLayout) (timeoutSpins : Nat) : Program σ Bool := do
  if !(← controllerStop device controller timeoutSpins) then return false
  else
    let command ← read32 device controller.operational kOperationalUsbcmd
    write32 device controller.operational kOperationalUsbcmd
      (command ||| kUsbcmdHostControllerReset)
    if !(← waitForMask device controller.operational kOperationalUsbcmd
        kUsbcmdHostControllerReset 0 timeoutSpins) then return false
    else
      waitForMask device controller.operational kOperationalUsbsts kUsbstsControllerNotReady 0
        timeoutSpins

/-- `controller_program` -/
def controllerProgram (controller : ControllerLayout) (rings : RingSet)
    (maxDeviceSlots : BitVec 8) : Program σ Bool :=
  if controller.operational = 0 ∨ controller.runtime = 0 ∨ rings.dcbaaPhysical = 0 ∨
      rings.commandRingPhysical = 0 ∨ rings.eventRingPhysical = 0 ∨ rings.erstPhysical = 0 ∨
      rings.eventRingTrbCount = 0 ∨ maxDeviceSlots = 0 ∨
      controller.capability.maxSlots < maxDeviceSlots then return false
  else do
    write32 device controller.operational kOperationalDnctrl 0
    write64 device controller.operational kOperationalCrcr
      ((rings.commandRingPhysical &&& ~~~0x3F#64) |||
        if rings.commandRingCycleState then 1 else 0)
    write64 device controller.operational kOperationalDcbaap rings.dcbaaPhysical
    write32 device controller.operational kOperationalConfig (maxDeviceSlots.setWidth 32)
    let interrupter := controller.runtime + kRuntimeInterrupter0
    write32 device interrupter kInterrupterImod 0
    write32 device interrupter kInterrupterErstsz 1
    write64 device interrupter kInterrupterErstba rings.erstPhysical
    write64 device interrupter kInterrupterErdp rings.eventRingPhysical
    write32 device interrupter kInterrupterIman kImanInterruptEnable
    return true

/-- `controller_run` -/
def controllerRun (controller : ControllerLayout) (timeoutSpins : Nat) : Program σ Bool :=
  if controller.operational = 0 then return false
  else do
    if !(← waitForMask device controller.operational kOperationalUsbsts kUsbstsControllerNotReady 0
        timeoutSpins) then return false
    else
      let command ← read32 device controller.operational kOperationalUsbcmd
      write32 device controller.operational kOperationalUsbcmd
        (command ||| kUsbcmdRunStop ||| kUsbcmdInterrupterEnable)
      waitForMask device controller.operational kOperationalUsbsts kUsbstsHalted 0 timeoutSpins

/-- `acknowledge_interrupt` -/
def acknowledgeInterrupt (controller : ControllerLayout) (eventRingDequeuePhysical : BitVec 64) :
    Program σ Unit :=
  if controller.operational = 0 ∨ controller.runtime = 0 then return ()
  else do
    let status ← read32 device controller.operational kOperationalUsbsts
    let clearBits := status &&& kUsbStsWriteClearMask
    if clearBits ≠ 0 then
      write32 device controller.operational kOperationalUsbsts clearBits
    let interrupter := controller.runtime + kRuntimeInterrupter0
    let iman ← read32 device interrupter kInterrupterIman
    write32 device interrupter kInterrupterIman
      (kImanInterruptEnable |||
        if iman &&& kImanInterruptPending ≠ 0 then kImanInterruptPending else 0)
    if eventRingDequeuePhysical ≠ 0 then
      write64 device interrupter kInterrupterErdp
        ((eventRingDequeuePhysical &&& ~~~0xF#64) ||| kErdpEventHandlerBusy)

/-! ## The layout of a controller that was accepted -/

/-- What `parse_capability` has checked. -/
structure Parsed (mmioBase mmioSize : Nat) (controller : ControllerLayout) : Prop where
  base_ne : mmioBase ≠ 0
  size_eq : controller.mmioSize = mmioSize
  operational : controller.operational = mmioBase + controller.capability.capLength.toNat
  runtime : controller.runtime = mmioBase + controller.capability.runtimeOffset.toNat
  doorbells : controller.doorbells = mmioBase + controller.capability.doorbellOffset.toNat
  operational_le : controller.capability.capLength.toNat + kOperationalConfig + 4 ≤ mmioSize
  runtime_le : controller.capability.runtimeOffset.toNat + kRuntimeInterrupter0 +
    kInterrupterErdp + 8 ≤ mmioSize
  doorbells_le : controller.capability.doorbellOffset.toNat + 4 ≤ mmioSize

variable {device : Device σ} {mmioBase mmioSize : Nat} {controller : ControllerLayout}
  {bus : Bus σ}

theorem parseCapability_parsed
    (h : (parseCapability device mmioBase mmioSize bus).1 = some controller) :
    Parsed mmioBase mmioSize controller := by
  rw [parseCapability, run_ite] at h
  split at h
  · cases h
  rename_i hbase
  rw [run_bind, run_ite] at h
  split at h
  · cases h
  simp only [run_bind, run_ite, run_pure] at h
  split at h
  · cases h
  rename_i hbounds
  cases h
  constructor
  all_goals grind

/-! ## Accesses inside the region -/

/-- The `bytes` bytes at the address lie in the region. -/
def Covers (mmioBase mmioSize address bytes : Nat) : Prop :=
  mmioBase ≤ address ∧ address + bytes ≤ mmioBase + mmioSize

variable {base offset limit : Nat}

theorem Covers.read32 (h : Covers mmioBase mmioSize base limit) (hoffset : offset + 4 ≤ limit) :
    Touches (Access.Inside mmioBase mmioSize) (read32 device base offset) := by
  refine .read ⟨?_, ?_⟩
  · exact Nat.le_trans h.1 (Nat.le_add_right ..)
  · have := h.2
    dsimp only
    omega

theorem Covers.write32 {value : BitVec 32} (h : Covers mmioBase mmioSize base limit)
    (hoffset : offset + 4 ≤ limit) :
    Touches (Access.Inside mmioBase mmioSize) (write32 device base offset value) := by
  refine .write ⟨?_, ?_⟩
  · exact Nat.le_trans h.1 (Nat.le_add_right ..)
  · have := h.2
    dsimp only
    omega

theorem Covers.write64 {value : BitVec 64} (h : Covers mmioBase mmioSize base limit)
    (hoffset : offset + 8 ≤ limit) :
    Touches (Access.Inside mmioBase mmioSize) (write64 device base offset value) :=
  .bind (h.write32 (by omega)) fun _ => h.write32 (by omega)

theorem Parsed.covers_operational (h : Parsed mmioBase mmioSize controller) :
    Covers mmioBase mmioSize controller.operational (kOperationalConfig + 4) := by
  have := h.operational_le
  rw [h.operational]
  constructor <;> omega

theorem Parsed.covers_interrupter (h : Parsed mmioBase mmioSize controller) :
    Covers mmioBase mmioSize (controller.runtime + kRuntimeInterrupter0)
      (kInterrupterErdp + 8) := by
  have := h.runtime_le
  rw [h.runtime]
  constructor <;> omega

theorem Covers.waitForMask {mask expected : BitVec 32} (h : Covers mmioBase mmioSize base limit)
    (hoffset : offset + 4 ≤ limit) (timeoutSpins : Nat) :
    Touches (Access.Inside mmioBase mmioSize)
      (waitForMask device base offset mask expected timeoutSpins) := by
  induction timeoutSpins with
  | zero => exact .bind (h.read32 hoffset) fun _ => .pure _
  | succ timeoutSpins ih =>
    exact .bind (h.read32 hoffset) fun _ => .ite (fun _ => .pure _) fun _ => ih

/-- The port exists and its register is in the region. -/
def PortReadable (controller : ControllerLayout) (portId : BitVec 8) : Prop :=
  (controller.operational ≠ 0 ∧ portId ≠ 0 ∧ portId ≤ controller.capability.maxPorts) ∧
    controller.capability.capLength.toNat + portOffset portId + 4 ≤ controller.mmioSize

instance (controller : ControllerLayout) : DecidablePred (PortReadable controller) :=
  fun _ => inferInstanceAs (Decidable (_ ∧ _))

theorem readPortStatus_eq (controller : ControllerLayout) (portId : BitVec 8) :
    readPortStatus device controller portId =
      if PortReadable controller portId then
        read32 device controller.operational (portOffset portId) >>= fun raw =>
          pure (some (portStatus raw))
      else pure none := by
  unfold readPortStatus PortReadable
  simp only [← BitVec.not_lt, ← Nat.not_lt, ← not_or, ne_eq]
  split_ifs <;> tauto

theorem updatePort_eq (controller : ControllerLayout) (portId : BitVec 8)
    (value : BitVec 32 → BitVec 32) :
    updatePort device controller portId value =
      if PortReadable controller portId then
        read32 device controller.operational (portOffset portId) >>= fun raw =>
          write32 device controller.operational (portOffset portId) (value raw) >>= fun _ =>
            pure true
      else pure false := by
  unfold updatePort
  rw [readPortStatus_eq]
  split <;> rfl

theorem Parsed.covers_port (h : Parsed mmioBase mmioSize controller) {portId : BitVec 8}
    (hport : PortReadable controller portId) :
    Covers mmioBase mmioSize controller.operational (portOffset portId + 4) := by
  have hroom := hport.2
  rw [h.size_eq] at hroom
  rw [h.operational]
  constructor <;> omega

theorem Parsed.readPortStatus (h : Parsed mmioBase mmioSize controller) (portId : BitVec 8) :
    Touches (Access.Inside mmioBase mmioSize) (readPortStatus device controller portId) := by
  rw [readPortStatus_eq]
  refine .ite (fun hport => ?_) fun _ => .pure _
  exact .bind ((h.covers_port hport).read32 (Nat.le_refl _)) fun _ => .pure _

theorem Parsed.updatePort (h : Parsed mmioBase mmioSize controller) (portId : BitVec 8)
    (value : BitVec 32 → BitVec 32) :
    Touches (Access.Inside mmioBase mmioSize) (updatePort device controller portId value) := by
  rw [updatePort_eq]
  refine .ite (fun hport => ?_) fun _ => .pure _
  exact .bind ((h.covers_port hport).read32 (Nat.le_refl _)) fun _ =>
    .bind ((h.covers_port hport).write32 (Nat.le_refl _)) fun _ => .pure _

/-- A call of one of the functions that access registers through the layout. -/
inductive RegisterCall where
  | readPageSizeMask
  | readPortStatus (portId : BitVec 8)
  | clearPortChangeBits (portId : BitVec 8) (clearMask : BitVec 32)
  | powerOnPort (portId : BitVec 8)
  | controllerStop (timeoutSpins : Nat)
  | controllerReset (timeoutSpins : Nat)
  | controllerProgram (rings : RingSet) (maxDeviceSlots : BitVec 8)
  | controllerRun (timeoutSpins : Nat)
  | acknowledgeInterrupt (eventRingDequeuePhysical : BitVec 64)
  | ringDoorbell (doorbellIndex target : BitVec 8) (streamId : BitVec 16)
  deriving DecidableEq, Repr

namespace RegisterCall

def run (device : Device σ) (controller : ControllerLayout) : RegisterCall → Program σ Unit
  | readPageSizeMask => discard (Xhci.readPageSizeMask device controller)
  | readPortStatus portId => discard (Xhci.readPortStatus device controller portId)
  | clearPortChangeBits portId clearMask =>
    discard (Xhci.clearPortChangeBits device controller portId clearMask)
  | powerOnPort portId => discard (Xhci.powerOnPort device controller portId)
  | controllerStop timeoutSpins => discard (Xhci.controllerStop device controller timeoutSpins)
  | controllerReset timeoutSpins => discard (Xhci.controllerReset device controller timeoutSpins)
  | controllerProgram rings maxDeviceSlots =>
    discard (Xhci.controllerProgram device controller rings maxDeviceSlots)
  | controllerRun timeoutSpins => discard (Xhci.controllerRun device controller timeoutSpins)
  | acknowledgeInterrupt dequeue => Xhci.acknowledgeInterrupt device controller dequeue
  | ringDoorbell doorbellIndex target streamId =>
    Xhci.ringDoorbell device controller doorbellIndex target streamId

/-- Doorbells are rung for the slots of the controller. -/
def Permitted (controller : ControllerLayout) : RegisterCall → Prop
  | ringDoorbell doorbellIndex _ _ => doorbellIndex ≤ controller.capability.maxSlots
  | _ => True

end RegisterCall

/-- The doorbells of all slots lie in the region. -/
def DoorbellsFit (controller : ControllerLayout) : Prop :=
  controller.capability.doorbellOffset.toNat +
    (controller.capability.maxSlots.toNat + 1) * kDoorbellBytes ≤ controller.mmioSize

instance (controller : ControllerLayout) : Decidable (DoorbellsFit controller) :=
  inferInstanceAs (Decidable (_ ≤ _))

theorem Parsed.covers_doorbell (h : Parsed mmioBase mmioSize controller)
    (hfit : DoorbellsFit controller) {doorbellIndex : BitVec 8}
    (hindex : doorbellIndex ≤ controller.capability.maxSlots) :
    Covers mmioBase mmioSize controller.doorbells
      (doorbellIndex.toNat * kDoorbellBytes + 4) := by
  have hle : doorbellIndex.toNat ≤ controller.capability.maxSlots.toNat := hindex
  rw [DoorbellsFit, h.size_eq] at hfit
  rw [h.doorbells]
  simp only [kDoorbellBytes] at hfit ⊢
  constructor <;> omega

theorem Parsed.controllerStop (h : Parsed mmioBase mmioSize controller) (timeoutSpins : Nat) :
    Touches (Access.Inside mmioBase mmioSize)
      (controllerStop device controller timeoutSpins) := by
  have hoperational := h.covers_operational
  refine .ite (fun _ => .pure _) fun _ => .bind (hoperational.read32 (by decide)) fun command => ?_
  have hwait : Touches (Access.Inside mmioBase mmioSize) (waitForMask device
      controller.operational kOperationalUsbsts kUsbstsHalted kUsbstsHalted timeoutSpins) :=
    hoperational.waitForMask (by decide) timeoutSpins
  exact .ite (fun _ => .bind (hoperational.write32 (by decide)) fun _ => hwait) fun _ => hwait

theorem Parsed.controllerReset (h : Parsed mmioBase mmioSize controller) (timeoutSpins : Nat) :
    Touches (Access.Inside mmioBase mmioSize)
      (controllerReset device controller timeoutSpins) := by
  have hoperational := h.covers_operational
  refine .bind (h.controllerStop timeoutSpins) fun stopped => .ite (fun _ => .pure _) fun _ => ?_
  refine .bind (hoperational.read32 (by decide)) fun command => ?_
  refine .bind (hoperational.write32 (by decide)) fun _ => ?_
  refine .bind (hoperational.waitForMask (by decide) timeoutSpins) fun cleared => ?_
  exact .ite (fun _ => .pure _) fun _ => hoperational.waitForMask (by decide) timeoutSpins

theorem Parsed.controllerProgram (h : Parsed mmioBase mmioSize controller) (rings : RingSet)
    (maxDeviceSlots : BitVec 8) :
    Touches (Access.Inside mmioBase mmioSize)
      (controllerProgram device controller rings maxDeviceSlots) := by
  have hoperational := h.covers_operational
  have hinterrupter := h.covers_interrupter
  refine .ite (fun _ => .pure _) fun _ => ?_
  refine .bind (hoperational.write32 (by decide)) fun _ => ?_
  refine .bind (hoperational.write64 (by decide)) fun _ => ?_
  refine .bind (hoperational.write64 (by decide)) fun _ => ?_
  refine .bind (hoperational.write32 (by decide)) fun _ => ?_
  refine .bind (hinterrupter.write32 (by decide)) fun _ => ?_
  refine .bind (hinterrupter.write32 (by decide)) fun _ => ?_
  refine .bind (hinterrupter.write64 (by decide)) fun _ => ?_
  refine .bind (hinterrupter.write64 (by decide)) fun _ => ?_
  exact .bind (hinterrupter.write32 (by decide)) fun _ => .pure _

theorem Parsed.controllerRun (h : Parsed mmioBase mmioSize controller) (timeoutSpins : Nat) :
    Touches (Access.Inside mmioBase mmioSize)
      (controllerRun device controller timeoutSpins) := by
  have hoperational := h.covers_operational
  refine .ite (fun _ => .pure _) fun _ => ?_
  refine .bind (hoperational.waitForMask (by decide) timeoutSpins) fun ready => ?_
  refine .ite (fun _ => .pure _) fun _ => ?_
  refine .bind (hoperational.read32 (by decide)) fun command => ?_
  exact .bind (hoperational.write32 (by decide)) fun _ =>
    hoperational.waitForMask (by decide) timeoutSpins

theorem Parsed.acknowledgeInterrupt (h : Parsed mmioBase mmioSize controller)
    (eventRingDequeuePhysical : BitVec 64) :
    Touches (Access.Inside mmioBase mmioSize)
      (acknowledgeInterrupt device controller eventRingDequeuePhysical) := by
  have hoperational := h.covers_operational
  have hinterrupter := h.covers_interrupter
  refine .ite (fun _ => .pure _) fun _ => ?_
  refine .bind (hoperational.read32 (by decide)) fun status => ?_
  refine .ite (fun _ => .bind (hoperational.write32 (by decide)) fun _ => ?_) fun _ => ?_
  -- the interrupter is served whether or not there were status bits to clear
  all_goals
    refine .bind (hinterrupter.read32 (by decide)) fun iman => ?_
    refine .bind (hinterrupter.write32 (by decide)) fun _ => ?_
    exact .ite (fun _ => hinterrupter.write64 (by decide)) fun _ => .pure _

theorem Parsed.run_inside (h : Parsed mmioBase mmioSize controller)
    (hfit : DoorbellsFit controller) {call : RegisterCall} (hcall : call.Permitted controller) :
    Touches (Access.Inside mmioBase mmioSize) (call.run device controller) := by
  cases call with
  | readPageSizeMask =>
    exact .discard (.ite (fun _ => h.covers_operational.read32 (by decide)) fun _ => .pure _)
  | readPortStatus portId => exact .discard (h.readPortStatus portId)
  | clearPortChangeBits portId clearMask => exact .discard (h.updatePort portId _)
  | powerOnPort portId => exact .discard (h.updatePort portId _)
  | controllerStop timeoutSpins => exact .discard (h.controllerStop timeoutSpins)
  | controllerReset timeoutSpins => exact .discard (h.controllerReset timeoutSpins)
  | controllerProgram rings maxDeviceSlots =>
    exact .discard (h.controllerProgram rings maxDeviceSlots)
  | controllerRun timeoutSpins => exact .discard (h.controllerRun timeoutSpins)
  | acknowledgeInterrupt dequeue => exact h.acknowledgeInterrupt dequeue
  | ringDoorbell doorbellIndex target streamId =>
    refine .ite (fun _ => .pure _) fun _ => ?_
    exact (h.covers_doorbell hfit hcall).write32 (Nat.le_refl _)

/-- The calls one after the other. -/
def RegisterCall.runAll (device : Device σ) (controller : ControllerLayout)
    (calls : List RegisterCall) : Program σ Unit :=
  calls.forM (run device controller)

theorem ringDoorbell_trace (device : Device σ) (bus : Bus σ) (h : controller.doorbells ≠ 0)
    (doorbellIndex target : BitVec 8) (streamId : BitVec 16) :
    (ringDoorbell device controller doorbellIndex target streamId bus).2.trace =
      bus.trace ++ [⟨controller.doorbells + doorbellIndex.toNat * kDoorbellBytes, 4⟩] := by
  rw [ringDoorbell, if_neg h]
  rfl

/-- Through the layout of an accepted controller all calls stay in the region exactly when the
doorbells of all slots lie there. -/
theorem register_calls_inside_iff {device : Device σ} {bus : Bus σ}
    (h : (parseCapability device mmioBase mmioSize bus).1 = some controller) :
    (∀ calls : List RegisterCall, (∀ call ∈ calls, call.Permitted controller) →
        Touches (Access.Inside mmioBase mmioSize)
          (RegisterCall.runAll device controller calls)) ↔
      DoorbellsFit controller := by
  have hparsed := parseCapability_parsed h
  constructor
  · intro hinside
    obtain ⟨accesses, htrace, hall⟩ :=
      hinside [.ringDoorbell controller.capability.maxSlots 0 0] (by simp [RegisterCall.Permitted])
        bus
    have hne : controller.doorbells ≠ 0 := by
      rw [hparsed.doorbells]
      exact fun h => hparsed.base_ne (Nat.eq_zero_of_add_eq_zero_right h)
    have hlast := ringDoorbell_trace device bus hne controller.capability.maxSlots 0 0
    have haccess := List.append_cancel_left (htrace.symm.trans hlast)
    have hroom := (hall ⟨_, 4⟩ (haccess ▸ List.mem_singleton_self _)).2
    rw [hparsed.doorbells] at hroom
    rw [DoorbellsFit, hparsed.size_eq]
    simp only [kDoorbellBytes] at hroom ⊢
    omega
  · intro hfit calls hcalls
    exact .forM fun call hmem => hparsed.run_inside hfit (hcalls call hmem)

/-- Registers that always hold the same values. -/
def fixedRegisters (registers : List (Nat × Nat)) : Device Unit where
  read _ address _ := ((registers.lookup address).getD 0, ())
  write _ _ _ _ := ()

/-- 64 slots, 8 ports, doorbells at 0x800 and runtime registers at 0x600. -/
def ordinaryController : Device Unit :=
  fixedRegisters [(0x1000, 0x20), (0x1004, 0x08000140), (0x1014, 0x800), (0x1018, 0x600)]

/-- The same controller with its doorbells at the end of the region. -/
def shortController : Device Unit :=
  fixedRegisters [(0x1000, 0x20), (0x1004, 0x08000140), (0x1014, 0xFFC), (0x1018, 0x600)]

def layoutAt (doorbellOffset : Nat) : ControllerLayout where
  mmioBase := 0x1000
  mmioSize := 0x1000
  capability := {
    capLength := 0x20
    maxSlots := 64
    maxInterrupters := 1
    maxPorts := 8
    doorbellOffset := BitVec.ofNat 32 doorbellOffset
    runtimeOffset := 0x600 }
  operational := 0x1020
  runtime := 0x1600
  doorbells := 0x1000 + doorbellOffset

theorem ordinaryController_calls_inside :
    (parseCapability ordinaryController 0x1000 0x1000 ⟨(), []⟩).1 = some (layoutAt 0x800) ∧
      Touches (Access.Inside 0x1000 0x1000)
        (RegisterCall.runAll ordinaryController (layoutAt 0x800)
          [.powerOnPort 3, .ringDoorbell 64 1 0]) := by
  have hparse : (parseCapability ordinaryController 0x1000 0x1000 ⟨(), []⟩).1 =
      some (layoutAt 0x800) := by decide +kernel
  refine ⟨hparse, (register_calls_inside_iff hparse).mpr (by decide) _ ?_⟩
  intro call hcall
  simp only [List.mem_cons, List.not_mem_nil, or_false] at hcall
  obtain rfl | rfl := hcall
  · trivial
  · exact (by decide : (64 : BitVec 8) ≤ 64)

/-- The doorbell of slot 1 of an accepted controller is outside the region. -/
theorem shortController_doorbell_outside :
    (parseCapability shortController 0x1000 0x1000 ⟨(), []⟩).1 = some (layoutAt 0xFFC) ∧
      (RegisterCall.ringDoorbell 1 1 0).Permitted (layoutAt 0xFFC) ∧
      ∃ access ∈ (RegisterCall.runAll shortController (layoutAt 0xFFC) [.ringDoorbell 1 1 0]
        ⟨(), []⟩).2.trace, ¬ access.Inside 0x1000 0x1000 := by
  refine ⟨by decide +kernel, (by decide : (1 : BitVec 8) ≤ 64), ⟨0x2000, 4⟩, ?_, by decide⟩
  exact List.mem_singleton_self _

end Os1.Xhci
