import Os1.Lib.ByteMemory
import Os1.Lib.Mmio
import Os1.Platform.PciBars

/-! The PCI transport of a virtio device: its capabilities, queues and notifications. -/
namespace Os1.Virtio

open Mmio
open Pci (PciBarInfo)

def kVirtioPciCapCommonCfg : BitVec 8 := 1#8
def kVirtioPciCapNotifyCfg : BitVec 8 := 2#8
def kVirtioPciCapIsrCfg : BitVec 8 := 3#8
def kVirtioPciCapDeviceCfg : BitVec 8 := 4#8

/-- The size of the common configuration structure and the offsets of its fields. -/
def kCommonCfgBytes : Nat := 56
def kQueueSelect : Nat := 22
def kQueueSize : Nat := 24
def kQueueEnable : Nat := 28
def kQueueNotifyOff : Nat := 30
def kQueueDesc : Nat := 32
def kQueueDriver : Nat := 40
def kQueueDevice : Nat := 48

/-- A PCI function: its configuration space and its sized BARs. -/
structure PciFunction where
  config : Memory
  capabilityPointer : BitVec 8
  bars : Nat → PciBarInfo

/-- The place that a capability names. -/
structure CapabilityWindow where
  bar : BitVec 8 := 0xFF#8
  offset : BitVec 32 := 0#32
  length : BitVec 32 := 0#32
  deriving DecidableEq, Repr

/-- What the walk over the capabilities has found. -/
structure VirtioCapabilities where
  common : CapabilityWindow := {}
  notify : CapabilityWindow := {}
  notifyMultiplier : BitVec 32 := 0#32
  device : CapabilityWindow := {}
  isr : CapabilityWindow := {}
  deriving DecidableEq, Repr

def pciConfigRead8 (config : Memory) (offset : Nat) : BitVec 8 := config offset

def pciConfigRead32 (config : Memory) (offset : Nat) : BitVec 32 :=
  BitVec.ofNat 32 (config.load offset 4)

/-- A virtio capability; of several of one type the last counts. -/
def addCapability (config : Memory) (capability : Nat) (found : VirtioCapabilities) :
    VirtioCapabilities :=
  let cfgType := pciConfigRead8 config (capability + 3)
  let window : CapabilityWindow := ⟨pciConfigRead8 config (capability + 4),
    pciConfigRead32 config (capability + 8), pciConfigRead32 config (capability + 12)⟩
  if cfgType = kVirtioPciCapCommonCfg then { found with common := window }
  else if cfgType = kVirtioPciCapNotifyCfg then
    { found with notify := window, notifyMultiplier := pciConfigRead32 config (capability + 16) }
  else if cfgType = kVirtioPciCapDeviceCfg then { found with device := window }
  else if cfgType = kVirtioPciCapIsrCfg then { found with isr := window }
  else found

/-- The walk over the list of capabilities, at most `guard` of them. -/
def walkCapabilities (config : Memory) :
    Nat → BitVec 8 → VirtioCapabilities → VirtioCapabilities
  | 0, _, found => found
  | guard + 1, capability, found =>
    if capability = 0#8 ∨ capability.toNat < 0x40 then found
    else
      let capId := pciConfigRead8 config capability.toNat
      let capNext := pciConfigRead8 config (capability.toNat + 1)
      let found := if capId = 0x09#8 then addCapability config capability.toNat found else found
      if capNext = 0#8 then found else walkCapabilities config guard capNext found

def PciFunction.capabilities (function : PciFunction) : VirtioCapabilities :=
  walkCapabilities function.config 48 function.capabilityPointer {}

/-- `map_claimed_bar`; `granted` tells whether the BAR can be claimed and mapped. -/
def mapClaimedBar (function : PciFunction) (granted : BitVec 8 → Bool) (barIndex : BitVec 8) :
    Option PciBarInfo :=
  let bar := function.bars barIndex.toNat
  if 6 ≤ barIndex.toNat ∨ bar.base = 0 ∨ bar.size = 0 ∨ bar.type = .unused ∨ !granted barIndex then
    none
  else if bar.type ≠ .mmio32 ∧ bar.type ≠ .mmio64 then none
  else some bar

/-- The BAR of the interrupt status, which need not be published. -/
def mapIsrBar (function : PciFunction) (granted : BitVec 8 → Bool) (barIndex : BitVec 8) :
    Option (Option PciBarInfo) :=
  if barIndex = 0xFF#8 then some none else (mapClaimedBar function granted barIndex).map some

/-- Physical addresses. -/
structure VirtioPciTransport where
  commonCfg : Nat
  deviceCfg : Nat
  isrStatus : Option Nat
  notifyRegister : Option Nat := none
  notifyBar : BitVec 8
  notifyOffset : BitVec 32
  notifyMultiplier : BitVec 32
  queueSize : BitVec 16 := 0
  queueNotifyOff : BitVec 16 := 0
  deriving DecidableEq, Repr

/-- `virtio_pci_bind_transport`. Sums of two 32-bit numbers wrap; those with a size do not. -/
def virtioPciBindTransport (function : PciFunction) (granted : BitVec 8 → Bool)
    (deviceCfgSize : Nat) : Option VirtioPciTransport := do
  let found := function.capabilities
  if found.common.bar = 0xFF#8 ∨ found.notify.bar = 0xFF#8 ∨ found.device.bar = 0xFF#8 then none
  else if found.common.length.toNat < kCommonCfgBytes ∨
      found.device.length.toNat < deviceCfgSize ∨ found.notifyMultiplier = 0 then none
  else
    let common ← mapClaimedBar function granted found.common.bar
    let notify ← mapClaimedBar function granted found.notify.bar
    let device ← mapClaimedBar function granted found.device.bar
    let isr ← mapIsrBar function granted found.isr.bar
    if common.size.toNat < found.common.offset.toNat + kCommonCfgBytes ∨
        notify.size.toNat < (found.notify.offset + found.notify.length).toNat ∨
        device.size.toNat < found.device.offset.toNat + deviceCfgSize then none
    else if (isr.any fun bar => bar.size.toNat < (found.isr.offset + 1#32).toNat) ∧
        found.isr.length ≠ 0 then none
    else some {
      commonCfg := common.base.toNat + found.common.offset.toNat
      deviceCfg := device.base.toNat + found.device.offset.toNat
      isrStatus := isr.map fun bar => bar.base.toNat + found.isr.offset.toNat
      notifyBar := found.notify.bar
      notifyOffset := found.notify.offset
      notifyMultiplier := found.notifyMultiplier }

variable {σ : Type} (registers : Device σ)

/-- The notify register of a queue whose offset is known. -/
def notifyPhysical (function : PciFunction) (transport : VirtioPciTransport)
    (queueNotifyOff : BitVec 16) : Nat :=
  (function.bars transport.notifyBar.toNat).base.toNat + transport.notifyOffset.toNat +
    queueNotifyOff.toNat * transport.notifyMultiplier.toNat

/-- `virtio_pci_setup_queue` -/
def virtioPciSetupQueue (function : PciFunction) (transport : VirtioPciTransport)
    (queueIndex queueSize : BitVec 16) (desc avail used : BitVec 64) :
    Program σ (Option VirtioPciTransport) :=
  if queueSize = 0 then return none
  else do
    Mmio.write registers (transport.commonCfg + kQueueSelect) queueIndex
    let deviceQueueSize ← Mmio.read registers 16 (transport.commonCfg + kQueueSize)
    if deviceQueueSize.toNat < 3 ∨ deviceQueueSize.toNat < queueSize.toNat then return none
    else
      Mmio.write registers (transport.commonCfg + kQueueSize) queueSize
      Mmio.write registers (transport.commonCfg + kQueueDesc) desc
      Mmio.write registers (transport.commonCfg + kQueueDriver) avail
      Mmio.write registers (transport.commonCfg + kQueueDevice) used
      let queueNotifyOff ← Mmio.read registers 16 (transport.commonCfg + kQueueNotifyOff)
      Mmio.write registers (transport.commonCfg + kQueueEnable) 1#16
      return some { transport with
        queueSize := queueSize
        queueNotifyOff := queueNotifyOff
        notifyRegister := some (notifyPhysical function transport queueNotifyOff) }

/-- `virtio_pci_notify_queue` -/
def virtioPciNotifyQueue (function : PciFunction) (transport : VirtioPciTransport)
    (queueIndex : BitVec 16) : Program σ Unit := do
  Mmio.write registers (transport.commonCfg + kQueueSelect) queueIndex
  let queueNotifyOff ← Mmio.read registers 16 (transport.commonCfg + kQueueNotifyOff)
  Mmio.write registers (notifyPhysical function transport queueNotifyOff) queueIndex

/-! ## Places inside the BARs -/

/-- The bytes lie in the BAR. -/
def InBar (bar : PciBarInfo) (address bytes : Nat) : Prop :=
  Access.Inside bar.base.toNat bar.size.toNat ⟨address, bytes⟩

variable {function : PciFunction} {granted : BitVec 8 → Bool} {deviceCfgSize : Nat}
  {transport ready : VirtioPciTransport} {registers : Device σ}

/-- The BAR that a capability names. -/
def PciFunction.barOf (function : PciFunction) (window : CapabilityWindow) : PciBarInfo :=
  function.bars window.bar.toNat

theorem mapClaimedBar_eq {window : CapabilityWindow} {bar : PciBarInfo}
    (h : mapClaimedBar function granted window.bar = some bar) : bar = function.barOf window := by
  unfold mapClaimedBar at h
  dsimp only at h
  split_ifs at h
  exact (Option.some.inj h).symm

/-- What is known of a transport that has been bound. -/
structure Bound (function : PciFunction) (deviceCfgSize : Nat) (transport : VirtioPciTransport) :
    Prop where
  common : InBar (function.barOf function.capabilities.common) transport.commonCfg kCommonCfgBytes
  device : InBar (function.barOf function.capabilities.device) transport.deviceCfg deviceCfgSize
  isrStatus : transport.isrStatus =
    if function.capabilities.isr.bar = 0xFF#8 then none
    else some ((function.barOf function.capabilities.isr).base.toNat +
      function.capabilities.isr.offset.toNat)
  notifyBar : transport.notifyBar = function.capabilities.notify.bar
  notifyOffset : transport.notifyOffset = function.capabilities.notify.offset
  notifyMultiplier : transport.notifyMultiplier = function.capabilities.notifyMultiplier

theorem virtioPciBindTransport_bound
    (h : virtioPciBindTransport function granted deviceCfgSize = some transport) :
    Bound function deviceCfgSize transport := by
  unfold virtioPciBindTransport at h
  dsimp only at h
  split_ifs at h with habsent hlengths
  simp only [Option.bind_eq_bind, Option.bind_eq_some_iff] at h
  obtain ⟨common, hcommon, notify, hnotify, device, hdevice, isr, hisr, h⟩ := h
  split_ifs at h with hrange hisrRange
  obtain rfl := mapClaimedBar_eq hcommon
  obtain rfl := mapClaimedBar_eq hdevice
  cases h
  simp only [not_or, Nat.not_lt] at hrange
  refine ⟨⟨Nat.le_add_right .., ?_⟩, ⟨Nat.le_add_right .., ?_⟩, ?_, rfl, rfl, rfl⟩
  · dsimp only
    omega
  · dsimp only
    omega
  · dsimp only
    unfold mapIsrBar at hisr
    split_ifs at hisr ⊢ with hpublished
    · cases hisr
      rfl
    · obtain ⟨bar, hbar, rfl⟩ := Option.map_eq_some_iff.mp hisr
      rw [mapClaimedBar_eq hbar]
      rfl

/-- What a notification reads for the queue's offset. -/
def notifyOffAt (registers : Device σ) (transport : VirtioPciTransport) (queueIndex : BitVec 16)
    (bus : Bus σ) : BitVec 16 :=
  (Mmio.read registers 16 (transport.commonCfg + kQueueNotifyOff)
    (Mmio.write registers (transport.commonCfg + kQueueSelect) queueIndex bus).2).1

theorem virtioPciNotifyQueue_trace (queueIndex : BitVec 16) (bus : Bus σ) :
    (virtioPciNotifyQueue registers function transport queueIndex bus).2.trace =
      bus.trace ++ [⟨transport.commonCfg + kQueueSelect, 2⟩,
        ⟨transport.commonCfg + kQueueNotifyOff, 2⟩,
        ⟨notifyPhysical function transport (notifyOffAt registers transport queueIndex bus),
          2⟩] := by
  simp [virtioPciNotifyQueue, notifyOffAt, Mmio.read, Mmio.write]

/-- The queues that have been set up on a bound transport, the last one first. -/
inductive SetUp (registers : Device σ) (function : PciFunction) (bound : VirtioPciTransport) :
    List (BitVec 16) → VirtioPciTransport → Prop
  | bound : SetUp registers function bound [] bound
  | queue {queues transport ready} {queueIndex queueSize : BitVec 16}
      {desc avail used : BitVec 64} {bus : Bus σ} :
      SetUp registers function bound queues transport →
      (virtioPciSetupQueue registers function transport queueIndex queueSize desc avail used
        bus).1 = some ready →
      SetUp registers function bound (queueIndex :: queues) ready

theorem Bound.virtioPciSetupQueue {queueIndex queueSize : BitVec 16}
    {desc avail used : BitVec 64} {bus : Bus σ} (hbound : Bound function deviceCfgSize transport)
    (h : (virtioPciSetupQueue registers function transport queueIndex queueSize desc avail used
      bus).1 = some ready) : Bound function deviceCfgSize ready := by
  unfold Virtio.virtioPciSetupQueue at h
  split at h
  · cases h
  · simp only [run_bind, run_ite] at h
    split at h
    · cases h
    · cases h
      exact ⟨hbound.common, hbound.device, hbound.isrStatus, hbound.notifyBar,
        hbound.notifyOffset, hbound.notifyMultiplier⟩

/-- Queues that are set up keep the places of the transport. -/
theorem Bound.setUp {queues : List (BitVec 16)} (hbound : Bound function deviceCfgSize transport)
    (h : SetUp registers function transport queues ready) : Bound function deviceCfgSize ready := by
  induction h with
  | bound => exact hbound
  | queue _ hqueue ih => exact ih.virtioPciSetupQueue hqueue

/-- The interrupt status byte lies in its BAR, if it is published. -/
def IsrFits (function : PciFunction) : Prop :=
  function.capabilities.isr.bar = 0xFF#8 ∨
    function.capabilities.isr.offset.toNat + 1 ≤
      (function.barOf function.capabilities.isr).size.toNat

/-- The notify register of a queue lies in its BAR. -/
def NotifyFits (function : PciFunction) (queueNotifyOff : BitVec 16) : Prop :=
  function.capabilities.notify.offset.toNat +
      queueNotifyOff.toNat * function.capabilities.notifyMultiplier.toNat + 2 ≤
    (function.barOf function.capabilities.notify).size.toNat

/-- The common structure and the device's configuration always lie in their BARs. The interrupt
status byte and the register that a notification writes do exactly when they fit. -/
theorem transport_in_bars_iff {queues : List (BitVec 16)} {queueIndex : BitVec 16}
    (hbind : virtioPciBindTransport function granted deviceCfgSize = some transport)
    (hsetup : SetUp registers function transport queues ready) (_ : queueIndex ∈ queues)
    (bus : Bus σ) :
    InBar (function.barOf function.capabilities.common) ready.commonCfg kCommonCfgBytes ∧
      InBar (function.barOf function.capabilities.device) ready.deviceCfg deviceCfgSize ∧
      (∀ address, ready.isrStatus = some address →
        InBar (function.barOf function.capabilities.isr) address 1) ∧
      (∀ access, (virtioPciNotifyQueue registers function ready queueIndex bus).2.trace.getLast? =
          some access →
        InBar (function.barOf function.capabilities.notify) access.address access.bytes) ↔
    IsrFits function ∧ NotifyFits function (notifyOffAt registers ready queueIndex bus) := by
  have hbound := (virtioPciBindTransport_bound hbind).setUp hsetup
  rw [and_iff_right hbound.common, and_iff_right hbound.device, hbound.isrStatus,
    virtioPciNotifyQueue_trace]
  refine and_congr ?_ ?_
  · unfold IsrFits
    split
    next hnone => simp [hnone]
    next hsome =>
      simp only [Option.some.injEq, forall_eq', InBar, Access.Inside, hsome, false_or]
      omega
  · have hlast : ∀ trace : List Access, ∀ a b access : Access,
        (trace ++ [a, b, access]).getLast? = some access := by simp
    rw [hlast]
    simp only [Option.some.injEq, forall_eq', InBar, Access.Inside, NotifyFits, notifyPhysical,
      hbound.notifyBar, hbound.notifyOffset, hbound.notifyMultiplier, PciFunction.barOf]
    omega

/-- A capability in BAR 0. -/
def storeCapability (config : Memory) (capability next cfgType offset length : Nat) : Memory :=
  ((config.store capability 4 (0x100009 + next * 2 ^ 8 + cfgType * 2 ^ 24)).store
    (capability + 8) 4 offset).store (capability + 12) 4 length

/-- A function with all four capabilities and the multiplier 4. -/
def networkFunction (isrOffset : Nat) : PciFunction where
  config :=
    let common := storeCapability (fun _ => 0) 0x40 0x50 1 0 56
    let notify := (storeCapability common 0x50 0x64 2 0x1000 0x1000).store 0x60 4 4
    let device := storeCapability notify 0x64 0x74 4 0x2000 0x1000
    storeCapability device 0x74 0 3 isrOffset 1
  capabilityPointer := 0x40
  bars _ := ⟨0xFE000000, 0x4000, .mmio32⟩

def networkTransport (isrOffset : Nat) : VirtioPciTransport where
  commonCfg := 0xFE000000
  deviceCfg := 0xFE002000
  isrStatus := some (0xFE000000 + isrOffset)
  notifyBar := 0
  notifyOffset := 0x1000
  notifyMultiplier := 4

/-- The transport with a queue of four entries. -/
def networkReady (isrOffset : Nat) (queueNotifyOff : BitVec 16) : VirtioPciTransport :=
  { networkTransport isrOffset with
    queueSize := 4
    queueNotifyOff := queueNotifyOff
    notifyRegister := some (0xFE001000 + queueNotifyOff.toNat * 4) }

/-- A device whose registers all read as one value. -/
def constantRegisters (value : Nat) : Device Unit where
  read state _ _ := (value, state)
  write state _ _ _ := state

/-- With the interrupt status and the queue's register in the BAR the transport is. -/
theorem network_queue_in_bars :
    InBar ((networkFunction 0x3000).barOf (networkFunction 0x3000).capabilities.common)
        0xFE000000 kCommonCfgBytes ∧
      InBar ((networkFunction 0x3000).barOf (networkFunction 0x3000).capabilities.device)
        0xFE002000 8 ∧
      (∀ address, (networkReady 0x3000 4).isrStatus = some address →
        InBar ((networkFunction 0x3000).barOf (networkFunction 0x3000).capabilities.isr)
          address 1) ∧
      (∀ access, (virtioPciNotifyQueue (constantRegisters 4) (networkFunction 0x3000)
          (networkReady 0x3000 4) 0 ⟨(), []⟩).2.trace.getLast? = some access →
        InBar ((networkFunction 0x3000).barOf (networkFunction 0x3000).capabilities.notify)
          access.address access.bytes) := by
  have hbind : virtioPciBindTransport (networkFunction 0x3000) (fun _ => true) 8 =
      some (networkTransport 0x3000) := by decide +kernel
  have hqueue : (virtioPciSetupQueue (constantRegisters 4) (networkFunction 0x3000)
      (networkTransport 0x3000) 0 4 0 0 0 ⟨(), []⟩).1 = some (networkReady 0x3000 4) := by
    decide +kernel
  have hisr : IsrFits (networkFunction 0x3000) := Or.inr (by decide +kernel)
  have hnotify : NotifyFits (networkFunction 0x3000)
      (notifyOffAt (constantRegisters 4) (networkReady 0x3000 4) 0 ⟨(), []⟩) := by
    unfold NotifyFits
    decide +kernel
  exact (transport_in_bars_iff hbind (.queue .bound hqueue) (List.mem_singleton_self 0) _).mpr
    ⟨hisr, hnotify⟩

/-- The offset of the interrupt status wraps in its check, and the notification of a queue that
was set up writes a register far behind the BAR. -/
theorem network_queue_outside_bars :
    virtioPciBindTransport (networkFunction 0xFFFFFFFF) (fun _ => true) 8 =
        some (networkTransport 0xFFFFFFFF) ∧
      SetUp (constantRegisters 0xFFFF) (networkFunction 0xFFFFFFFF) (networkTransport 0xFFFFFFFF)
        [0] (networkReady 0xFFFFFFFF 0xFFFF) ∧
      (networkReady 0xFFFFFFFF 0xFFFF).isrStatus = some 0x1FDFFFFFF ∧
      ¬ InBar ((networkFunction 0xFFFFFFFF).barOf (networkFunction 0xFFFFFFFF).capabilities.isr)
        0x1FDFFFFFF 1 ∧
      (virtioPciNotifyQueue (constantRegisters 0xFFFF) (networkFunction 0xFFFFFFFF)
        (networkReady 0xFFFFFFFF 0xFFFF) 0 ⟨(), []⟩).2.trace.getLast? = some ⟨0xFE040FFC, 2⟩ ∧
      ¬ InBar ((networkFunction 0xFFFFFFFF).barOf (networkFunction 0xFFFFFFFF).capabilities.notify)
        0xFE040FFC 2 := by
  have hqueue : (virtioPciSetupQueue (constantRegisters 0xFFFF) (networkFunction 0xFFFFFFFF)
      (networkTransport 0xFFFFFFFF) 0 4 0 0 0 ⟨(), []⟩).1 =
        some (networkReady 0xFFFFFFFF 0xFFFF) := by
    decide +kernel
  refine ⟨by decide +kernel, .queue .bound hqueue, by decide, ?_, by decide +kernel, ?_⟩
  · unfold InBar Access.Inside
    decide +kernel
  · unfold InBar Access.Inside
    decide +kernel

end Os1.Virtio
