import Os1.Irq.IrqRegistry

/-! Interrupts of PCI devices: enabled as MSI-X, MSI or INTx, and released. -/
namespace Os1.Irq

/-! ## Routing through the I/O APIC -/

structure InterruptOverride where
  busIrq : BitVec 8
  flags : BitVec 16
  globalIrq : BitVec 32
  deriving DecidableEq, Repr

/-- What discovery has found; `maxintr` is none before `ioapic_init`. -/
structure Platform where
  ioapic : Bool
  ismp : Bool
  gsiBase : BitVec 32
  maxintr : Option (BitVec 32)
  overrides : List InterruptOverride
  deriving DecidableEq, Repr

/-- `decode_interrupt_flags`, without the mode bits. -/
def decodeInterruptFlags (flags : BitVec 16) : Bool :=
  flags &&& 3#16 != 2#16 && (flags >>> 2) &&& 3#16 != 2#16

namespace Platform

/-- `ioapic_enable_gsi` -/
def ioapicEnableGsi (p : Platform) (gsi : BitVec 32) (vector : BitVec 8) (flags : BitVec 16) :
    Bool :=
  if !p.ismp then false
  else if !p.ioapic then false
  else if gsi < p.gsiBase then false
  else if !interruptVectorIsExternal vector then false
  else if p.maxintr.any fun maxintr => gsi - p.gsiBase > maxintr then false
  else decodeInterruptFlags flags

end Platform

namespace IrqRegistry

/-- `platform_route_isa_irq` -/
def platformRouteIsaIrq (p : Platform) (s : IrqRegistry) (owner : DeviceId) (busIrq : BitVec 32)
    (vector : BitVec 8) (memory : RouteMemory) : Bool × IrqRegistry :=
  if !p.ioapic || !p.ismp then (false, s)
  else if !interruptVectorIsExternal vector then (false, s)
  else
    let override := p.overrides.find? fun entry => entry.busIrq = busIrq.truncate 8
    let globalIrq := (override.map InterruptOverride.globalIrq).getD busIrq
    let flags := (override.map InterruptOverride.flags).getD 0#16
    if p.ioapicEnableGsi globalIrq vector flags then
      s.platformRegisterIsaIrqRoute owner (busIrq.truncate 8) globalIrq flags vector memory
    else (false, s)

/-- `platform_route_gsi_irq` -/
def platformRouteGsiIrq (p : Platform) (s : IrqRegistry) (owner : DeviceId) (gsi : BitVec 32)
    (flags : BitVec 16) (vector : BitVec 8) (memory : RouteMemory) : Bool × IrqRegistry :=
  if !p.ioapic || !p.ismp then (false, s)
  else if !interruptVectorIsExternal vector then (false, s)
  else if p.ioapicEnableGsi gsi vector flags then
    let sourceIrq := if gsi ≤ 0xFF#32 then gsi.truncate 8 else 0xFF#8
    s.platformRegisterIsaIrqRoute owner sourceIrq gsi flags vector memory
  else (false, s)

end IrqRegistry

/-! ## What the driver learns about a device -/

inductive PciBarType where
  | unused
  | mmio32
  | mmio64
  | io
  deriving DecidableEq, Repr

structure PciBarResource where
  type : PciBarType
  base : Nat
  size : Nat
  deriving DecidableEq, Repr

structure PciMsixCapabilityInfo where
  offset : BitVec 8
  tableBar : BitVec 8
  tableOffset : Nat
  tableSize : Nat
  deriving DecidableEq, Repr

structure AcpiRoute where
  irq : BitVec 32
  flags : BitVec 16
  sourceIsGsi : Bool
  deriving DecidableEq, Repr

/-- A device with the answers to the questions asked about it: its capabilities, the claim of the
table's BAR, the mapping of the table and the route that ACPI names. -/
structure PciFunction where
  msix : Option PciMsixCapabilityInfo := none
  tableResource : Option PciBarResource := none
  tableMapped : Bool := false
  msiOffset : Option (BitVec 8) := none
  interruptPin : BitVec 8 := 0#8
  interruptLine : BitVec 8 := 0xFF#8
  acpiRoute : Option AcpiRoute := none
  deriving DecidableEq, Repr

inductive PciInterruptMode where
  | none
  | legacyIntx
  | msi
  | msix
  deriving DecidableEq, Repr

structure PciInterruptHandle where
  mode : PciInterruptMode := .none
  vector : BitVec 8 := 0#8
  msixTableBar : BitVec 8 := 0#8
  capabilityOffset : BitVec 16 := 0#16
  sourceId : BitVec 16 := 0#16
  deriving DecidableEq, Repr

def kPciMsixTableEntrySize : Nat := 16

/-- The checks of `pci_enable_msix_interrupt` before it asks for a vector. -/
def PciFunction.msixTable (device : PciFunction) : Option PciMsixCapabilityInfo := do
  let msix ← device.msix
  if msix.tableSize = 0 then none else
  let resource ← device.tableResource
  if resource.type ≠ .mmio32 ∧ resource.type ≠ .mmio64 then none else
  let tableSizeBytes := msix.tableSize * kPciMsixTableEntrySize
  if resource.size < msix.tableOffset ∨ resource.size - msix.tableOffset < tableSizeBytes then none
  else if device.tableMapped then some msix else none

/-! ## Enabling and releasing -/

/-- The registry with the vector handlers and the drivers' handles, by number. -/
structure IrqSystem extends IrqRegistry where
  ipi : Option IpiVectors := none
  handler : BitVec 8 → Option Nat := fun _ => none
  handles : Nat → PciInterruptHandle := fun _ => {}

namespace IrqSystem

def setVectorHandler (s : IrqSystem) (vector : BitVec 8) (handler : Option Nat) : IrqSystem :=
  { s with handler := Function.update s.handler vector handler }

def setHandle (s : IrqSystem) (handle : Nat) (value : PciInterruptHandle) : IrqSystem :=
  { s with handles := Function.update s.handles handle value }

/-- `allocate_handler_vector` -/
def allocateHandlerVector (s : IrqSystem) (handler : Nat) : Option (BitVec 8 × IrqSystem) :=
  (irqAllocateVector s.vectors).map fun (vector, vectors) =>
    (vector, { s with vectors := vectors }.setVectorHandler vector (some handler))

/-- The end of the three ways to enable: register the route of the new vector, or clear its handler
and free it. -/
def settle (s : IrqSystem) (vector : BitVec 8) (handle : PciInterruptHandle)
    (register : IrqRegistry → Bool × IrqRegistry) : Option PciInterruptHandle × IrqSystem :=
  match register s.toIrqRegistry with
  | (true, registry) => (some handle, { s with toIrqRegistry := registry })
  | (false, registry) =>
    let vectors := (irqFreeVector registry.vectors vector).2
    (none, { s with toIrqRegistry := { registry with vectors := vectors } }.setVectorHandler
      vector none)

/-- `register_dynamic_interrupt_route` -/
def registerDynamicInterruptRoute (kind : IrqRouteKind) (owner : DeviceId) (sourceId : BitVec 16)
    (vector : BitVec 8) (memory : RouteMemory) (s : IrqRegistry) : Bool × IrqRegistry :=
  match kind with
  | .msi => s.platformRegisterMsiIrqRoute owner sourceId vector memory
  | .msix => s.platformRegisterMsixIrqRoute owner sourceId vector memory
  | .legacyIsa | .localApic => (false, s)

/-- `pci_enable_msix_interrupt` -/
def pciEnableMsixInterrupt (s : IrqSystem) (owner : DeviceId) (device : PciFunction)
    (sourceId : BitVec 16) (handler : Nat) (memory : RouteMemory) :
    Option PciInterruptHandle × IrqSystem :=
  match device.msixTable with
  | none => (none, s)
  | some msix =>
    match s.allocateHandlerVector handler with
    | none => (none, s)
    | some (vector, s) =>
      s.settle vector ⟨.msix, vector, msix.tableBar, msix.offset.setWidth 16, sourceId⟩
        (registerDynamicInterruptRoute .msix owner sourceId vector memory)

/-- `pci_enable_msi_interrupt` -/
def pciEnableMsiInterrupt (s : IrqSystem) (owner : DeviceId) (device : PciFunction)
    (sourceId : BitVec 16) (handler : Nat) (memory : RouteMemory) :
    Option PciInterruptHandle × IrqSystem :=
  match device.msiOffset with
  | none => (none, s)
  | some offset =>
    match s.allocateHandlerVector handler with
    | none => (none, s)
    | some (vector, s) =>
      s.settle vector
        { mode := .msi, vector, capabilityOffset := offset.setWidth 16, sourceId := sourceId }
        (registerDynamicInterruptRoute .msi owner sourceId vector memory)

/-- The route that `pci_enable_intx_interrupt` chooses for its vector. -/
def routeIntx (p : Platform) (device : PciFunction) (owner : DeviceId) (vector : BitVec 8)
    (memory : RouteMemory) (s : IrqRegistry) : Bool × IrqRegistry :=
  match device.acpiRoute with
  | some route =>
    if route.sourceIsGsi then s.platformRouteGsiIrq p owner route.irq route.flags vector memory
    else s.platformRouteIsaIrq p owner route.irq vector memory
  | none => s.platformRouteIsaIrq p owner (device.interruptLine.setWidth 32) vector memory

/-- `pci_enable_intx_interrupt` -/
def pciEnableIntxInterrupt (p : Platform) (s : IrqSystem) (owner : DeviceId) (device : PciFunction)
    (sourceId : BitVec 16) (handler : Nat) (memory : RouteMemory) :
    Option PciInterruptHandle × IrqSystem :=
  if device.interruptPin = 0#8 then (none, s)
  else if device.acpiRoute.isNone ∧
      (device.interruptLine = 0xFF#8 ∨ device.interruptLine > 15#8) then (none, s)
  else
    match s.allocateHandlerVector handler with
    | none => (none, s)
    | some (vector, s) =>
      s.settle vector { mode := .legacyIntx, vector, sourceId := sourceId }
        (routeIntx p device owner vector memory)

/-- `pci_enable_best_interrupt` into a handle, with the memory there is for each kind of route. -/
def pciEnableBestInterrupt (p : Platform) (s : IrqSystem) (handle : Nat) (owner : DeviceId)
    (device : PciFunction) (sourceId : BitVec 16) (handler : Nat)
    (memory : IrqRouteKind → RouteMemory) : Bool × IrqSystem :=
  let s := s.setHandle handle {}
  match s.pciEnableMsixInterrupt owner device sourceId handler (memory .msix) with
  | (some value, s) => (true, s.setHandle handle value)
  | (none, s) =>
    match s.pciEnableMsiInterrupt owner device sourceId handler (memory .msi) with
    | (some value, s) => (true, s.setHandle handle value)
    | (none, s) =>
      match s.pciEnableIntxInterrupt p owner device sourceId handler (memory .legacyIsa) with
      | (some value, s) => (true, s.setHandle handle value)
      | (none, s) => (false, s)

/-- `pci_release_interrupt` -/
def pciReleaseInterrupt (s : IrqSystem) (handle : Nat) : IrqSystem :=
  let vector := (s.handles handle).vector
  let s :=
    if vector ≠ 0#8 then
      let s := s.setVectorHandler vector none
      { s with toIrqRegistry := (s.platformReleaseIrqRoute vector).2 }
    else s
  s.setHandle handle {}

/-! ## Runs -/

/-- The state in which devices are probed: the allocator is reset and has given its vectors to the
inter-processor interrupts. -/
def boot : IrqSystem :=
  let (_, vectors, ipi) := ipiInitialize (fun _ => 0#64) none
  { vectors, ipi }

inductive IrqAction where
  /-- The kernel routes a legacy interrupt to its fixed vector. -/
  | routeLegacy (owner : DeviceId) (irq : Fin 16) (memory : RouteMemory)
  | allocateLocalApic (owner : DeviceId) (sourceId : BitVec 16) (memory : RouteMemory)
  | enable (handle : Nat) (owner : DeviceId) (device : PciFunction) (sourceId : BitVec 16)
      (handler : Nat) (memory : IrqRouteKind → RouteMemory)
  | release (handle : Nat)
  | releaseOwner (owner : DeviceId)

def step (p : Platform) (s : IrqSystem) : IrqAction → IrqSystem
  | .routeLegacy owner irq memory =>
    { s with
      toIrqRegistry := (s.platformRouteIsaIrq p owner (BitVec.ofNat 32 irq)
        (tIrq0 + BitVec.ofNat 8 irq) memory).2 }
  | .allocateLocalApic owner sourceId memory =>
    { s with
      toIrqRegistry := (s.platformAllocateLocalApicIrqRoute owner sourceId memory).2 }
  | .enable handle owner device sourceId handler memory =>
    (s.pciEnableBestInterrupt p handle owner device sourceId handler memory).2
  | .release handle => s.pciReleaseInterrupt handle
  | .releaseOwner owner =>
    { s with toIrqRegistry := s.platformReleaseIrqRoutesForOwner owner }

def run (p : Platform) (actions : List IrqAction) : IrqSystem := actions.foldl (step p) boot

end IrqSystem
end Os1.Irq
