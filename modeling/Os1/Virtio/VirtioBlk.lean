import Os1.Virtio.Virtqueue

/-! The virtio block driver and its device. -/
namespace Os1.Virtio

inductive BlockOperation where
  | read
  | write
  | flush
  deriving DecidableEq, Repr

inductive BlockRequestStatus where
  | pending
  | success
  | deviceError
  | invalid
  | timeout
  | busy
  deriving DecidableEq, Repr

/-- A request; `done` is the flag of its completion, `driverContext` a slot. -/
structure BlockRequest where
  operation : BlockOperation := .read
  sector : Nat := 0
  buffer : Option (List (BitVec 8)) := none
  sectorCount : Nat := 0
  done : Bool := false
  status : BlockRequestStatus := .pending
  bytesTransferred : Nat := 0
  driverContext : Option Nat := none
  deriving DecidableEq, Repr

/-- A request slot with the contents of its DMA buffer; requests are named by their addresses. -/
structure VirtioBlkRequestSlot where
  active : Bool := false
  headDescriptor : Nat := 0
  descriptorMask : BitVec 16 := 0#16
  buffer : Nat := 0
  headerType : Nat := 0
  headerSector : Nat := 0
  data : List (BitVec 8) := []
  status : BitVec 8 := 0#8
  request : Option Nat := none
  deriving DecidableEq, Repr

def kVirtioBlkRequestIn : Nat := 0
def kVirtioBlkRequestOut : Nat := 1
def kVirtioBlkQueueTargetSize : Nat := 8
def kVirtioBlkDescriptorsPerRequest : Nat := 3
def kVirtioSectorSize : Nat := 512
def kVirtioBlkMaxSectorsPerRequest : Nat := 8
def kVirtioStatusOk : BitVec 8 := 0#8
def kRequestHeaderSize : Nat := 16

/-- The rounds of the polling wait. -/
def kBootCompletionSpins : Nat := 10000000

/-- `virtio_blk_slot_count` -/
def virtioBlkSlotCount (queueSize : Nat) : Nat := queueSize / kVirtioBlkDescriptorsPerRequest

/-- `virtio_blk_descriptor_mask` -/
def virtioBlkDescriptorMask (headDescriptor : Nat) : BitVec 16 :=
  1#16 <<< headDescriptor ||| 1#16 <<< (headDescriptor + 1) ||| 1#16 <<< (headDescriptor + 2)

/-- Bytes copied over the start of a buffer. -/
def overwrite (buffer bytes : List (BitVec 8)) : List (BitVec 8) :=
  bytes ++ buffer.drop bytes.length

/-- A head in flight, with the number of the call that submitted it. -/
structure Chain where
  call : Nat
  head : Nat
  deriving DecidableEq, Repr

/-- A completion of a call's request, and the call whose chain the used element returned. -/
structure BlkCompletion where
  call : Nat
  request : Nat
  element : Option Nat
  deriving DecidableEq, Repr

/-- The driver's state, the requests, the device and the history of calls. -/
structure BlkSystem where
  present : Bool := true
  capacitySectors : Nat
  requestSlotCount : Nat
  descriptorInUseMask : BitVec 16 := 0#16
  slots : Nat → VirtioBlkRequestSlot
  queue : Virtqueue
  requests : Nat → BlockRequest := fun _ => {}
  /-- The device's place in the available ring, and the chains it has read and not returned. -/
  deviceIdx : Nat := 0
  owned : List Chain := []
  /-- The chains in the available ring that the device has not read. -/
  available : List Chain := []
  /-- The chains in the used ring that the driver has not consumed. -/
  returned : List Chain := []
  calls : Nat := 0
  callRequest : Nat → Nat := fun _ => 0
  /-- The call for which a slot was last acquired. -/
  slotCall : Nat → Nat := fun _ => 0
  completions : List BlkCompletion := []

namespace BlkSystem

def setRequest (s : BlkSystem) (request : Nat) (f : BlockRequest → BlockRequest) : BlkSystem :=
  { s with requests := Function.update s.requests request (f (s.requests request)) }

def setSlot (s : BlkSystem) (slot : Nat) (f : VirtioBlkRequestSlot → VirtioBlkRequestSlot) :
    BlkSystem :=
  { s with slots := Function.update s.slots slot (f (s.slots slot)) }

/-- `virtio_blk_fail_immediately` -/
def failImmediately (s : BlkSystem) (call request : Nat) (status : BlockRequestStatus) :
    BlkSystem :=
  { s.setRequest request fun value =>
      { value with status, bytesTransferred := 0, driverContext := none, done := true } with
    completions := s.completions ++ [⟨call, request, none⟩] }

/-- `virtio_blk_release_request_slot` -/
def releaseRequestSlot (s : BlkSystem) (slot : Nat) : BlkSystem :=
  { s.setSlot slot fun value => { value with active := false, request := none } with
    descriptorInUseMask := s.descriptorInUseMask &&& ~~~(s.slots slot).descriptorMask }

/-- `virtio_blk_find_request_slot` -/
def findRequestSlot (s : BlkSystem) (headDescriptor : Nat) : Option Nat :=
  (List.range s.requestSlotCount).find? fun slot =>
    (s.slots slot).headDescriptor = headDescriptor

/-- The slot that `virtio_blk_acquire_request_slot` chooses. -/
def freeRequestSlot (s : BlkSystem) : Option Nat :=
  (List.range s.requestSlotCount).find? fun slot =>
    !(s.slots slot).active && s.descriptorInUseMask &&& (s.slots slot).descriptorMask = 0#16

/-- `virtio_blk_acquire_request_slot` takes this slot. -/
def takeRequestSlot (s : BlkSystem) (slot : Nat) : BlkSystem :=
  { s.setSlot slot fun value => { value with active := true } with
    descriptorInUseMask := s.descriptorInUseMask ||| (s.slots slot).descriptorMask }

/-! ## The device -/

inductive DeviceAction where
  /-- Read the next head from the available ring. -/
  | take
  /-- Return the chain of a call, with what was written to its buffer. -/
  | complete (call len : Nat) (status : BitVec 8) (data : List (BitVec 8))
  deriving DecidableEq, Repr

/-- The device's stores to the buffer of a chain. -/
def deviceWrite (s : BlkSystem) (head : Nat) (status : BitVec 8) (data : List (BitVec 8)) :
    BlkSystem :=
  let dataDesc := s.queue.desc (s.queue.desc head).next
  match (List.range s.requestSlotCount).find? fun slot =>
    (s.slots slot).buffer = (s.queue.desc head).addr with
  | none => s
  | some slot => s.setSlot slot fun value =>
    { value with
      status
      data :=
        if dataDesc.flags &&& kVirtqDescFlagWrite ≠ 0#16 then
          overwrite value.data (data.take dataDesc.len)
        else value.data }

def deviceStep (s : BlkSystem) : DeviceAction → BlkSystem
  | .take =>
    match readAvailable s.queue s.deviceIdx with
    | none => s
    | some (head, deviceIdx) =>
      let call := (s.available.head?.map Chain.call).getD 0
      { s with deviceIdx, owned := s.owned ++ [⟨call, head⟩], available := s.available.tail }
  | .complete call len status data =>
    match s.owned.find? fun chain => chain.call = call with
    | none => s
    | some chain =>
      let s := s.deviceWrite chain.head status data
      { s with
        queue := pushUsed s.queue ⟨chain.head, len⟩
        owned := s.owned.erase chain
        returned := s.returned ++ [chain] }

/-! ## Used elements -/

/-- The end of a request whose slot a used element names. -/
def completeSlot (s : BlkSystem) (slot request : Nat) (element : Option Nat) : BlkSystem :=
  let value := s.slots slot
  let success := value.status = kVirtioStatusOk
  let bytes := (s.requests request).sectorCount * kVirtioSectorSize
  let completed := (s.releaseRequestSlot slot).setRequest request fun old =>
    { old with
      buffer :=
        if success ∧ old.operation = .read then
          old.buffer.map fun buffer => overwrite buffer (value.data.take bytes)
        else old.buffer
      driverContext := none
      status := if success then .success else .deviceError
      bytesTransferred := if success then bytes else 0
      done := true }
  { completed with completions := s.completions ++ [⟨s.slotCall slot, request, element⟩] }

/-- One round of the loop of `virtio_blk_drain_used`. -/
def drainOne (s : BlkSystem) : Option BlkSystem :=
  match virtqueueConsumeUsed s.queue with
  | none => none
  | some (used, queue) =>
    let element := s.returned.head?.map Chain.call
    let s := { s with queue, returned := s.returned.tail }
    match s.findRequestSlot (used.id % kIndexWrap) with
    | none => some s
    | some slot =>
      if !(s.slots slot).active then some s
      else
        match (s.slots slot).request with
        | none => some s
        | some request => some (s.completeSlot slot request element)

/-- The loop of `virtio_blk_drain_used`, at most `fuel` rounds. -/
def drainRounds : Nat → BlkSystem → BlkSystem
  | 0, s => s
  | fuel + 1, s =>
    match s.drainOne with
    | none => s
    | some s => drainRounds fuel s

/-- `virtio_blk_drain_used`; the indices are apart by the number of elements. -/
def drainUsed (s : BlkSystem) : BlkSystem :=
  drainRounds ((s.queue.usedIdx + kIndexWrap - s.queue.lastUsedIdx) % kIndexWrap) s

/-! ## Submission -/

/-- What `current_thread` gives to a call. -/
inductive CallerThread where
  | none
  | withProcess
  | withoutProcess
  deriving DecidableEq, Repr

/-- The polling loop, with the device's steps before the drain of each round. -/
def poll (request : Nat) (device : Nat → List DeviceAction) :
    Nat → Nat → BlkSystem → Bool × BlkSystem
  | 0, _, s => (false, s)
  | fuel + 1, spin, s =>
    if (s.requests request).done then (true, s)
    else
      let s := ((device spin).foldl deviceStep s).drainUsed
      if (s.requests request).done then (true, s) else poll request device fuel (spin + 1) s

/-- `virtio_blk_wait_for_boot_completion` -/
def waitForBootCompletion (s : BlkSystem) (request : Nat) (thread : CallerThread)
    (device : Nat → List DeviceAction) : Bool × BlkSystem :=
  match thread with
  | .none | .withProcess => (true, s)
  | .withoutProcess => poll request device kBootCompletionSpins 0 s

/-- The checks of `virtio_blk_submit_request`. -/
def validRequest (s : BlkSystem) (request : BlockRequest) : Bool :=
  s.present && request.buffer.isSome && request.sectorCount ≠ 0 &&
    request.sectorCount ≤ kVirtioBlkMaxSectorsPerRequest &&
    request.sector ≤ s.capacitySectors &&
    request.sectorCount ≤ s.capacitySectors - request.sector && request.operation ≠ .flush

/-- The history of calls with a new call. -/
def called (s : BlkSystem) (request : Nat) : BlkSystem :=
  { s with
    calls := s.calls + 1
    callRequest := Function.update s.callRequest s.calls request }

/-- The three descriptors of a request. -/
def requestDescriptors (desc : Nat → VirtqDesc) (slot : VirtioBlkRequestSlot)
    (operation : BlockOperation) (requestBytes : Nat) : Nat → VirtqDesc :=
  let head := slot.headDescriptor
  let header : VirtqDesc := ⟨slot.buffer, kRequestHeaderSize, kVirtqDescFlagNext, head + 1⟩
  let data : VirtqDesc :=
    ⟨slot.buffer + kRequestHeaderSize, requestBytes,
      if operation = .read then kVirtqDescFlagWrite ||| kVirtqDescFlagNext else kVirtqDescFlagNext,
      head + 2⟩
  let statusOffset := kRequestHeaderSize + kVirtioBlkMaxSectorsPerRequest * kVirtioSectorSize
  let status : VirtqDesc := ⟨slot.buffer + statusOffset, 1, kVirtqDescFlagWrite, 0⟩
  Function.update (Function.update (Function.update desc head header) (head + 1) data) (head + 2)
    status

/-- What the driver writes for a request in its slot before it submits the head. -/
def prepareRequest (s : BlkSystem) (slot call request : Nat) : BlkSystem :=
  let value := s.requests request
  let bytes := value.sectorCount * kVirtioSectorSize
  let cleared := overwrite (s.slots slot).data (List.replicate bytes 0#8)
  let s := s.setRequest request fun old =>
    { old with
      done := false, status := .pending, bytesTransferred := 0, driverContext := some slot }
  let s := s.setSlot slot fun old =>
    { old with
      request := some request
      headerType := if value.operation = .read then kVirtioBlkRequestIn else kVirtioBlkRequestOut
      headerSector := value.sector
      data :=
        if value.operation = .write then overwrite cleared ((value.buffer.getD []).take bytes)
        else cleared
      status := 0xFF#8 }
  { s with
    slotCall := Function.update s.slotCall slot call
    queue := { s.queue with
      desc := requestDescriptors s.queue.desc (s.slots slot) value.operation bytes } }

/-- The polling wait has given up. -/
def abandonRequest (s : BlkSystem) (slot call request : Nat) : BlkSystem :=
  let s := s.setRequest request fun value => { value with driverContext := none }
  let s :=
    if (s.slots slot).active ∧ (s.slots slot).request = some request then s.releaseRequestSlot slot
    else s
  s.failImmediately call request .timeout

/-- `virtio_blk_submit_request`, with the device's steps during a polling wait. -/
def submitRequest (s : BlkSystem) (request : Nat) (thread : CallerThread)
    (device : Nat → List DeviceAction) : Bool × BlkSystem :=
  let call := s.calls
  let s := s.called request
  if !s.validRequest (s.requests request) then (false, s.failImmediately call request .invalid)
  else
    match s.freeRequestSlot with
    | none => (false, s.failImmediately call request .busy)
    | some slot =>
      let s := (s.takeRequestSlot slot).prepareRequest slot call request
      let head := (s.slots slot).headDescriptor
      match virtqueueSubmit s.queue head with
      | none =>
        let s := s.setRequest request fun value => { value with driverContext := none }
        (false, (s.releaseRequestSlot slot).failImmediately call request .invalid)
      | some queue =>
        let s := { s with queue, available := s.available ++ [Chain.mk call head] }
        match s.waitForBootCompletion request thread device with
        | (true, s) => (true, s)
        | (false, s) => (false, s.abandonRequest slot call request)

/-! ## Runs -/

inductive BlkAction where
  /-- A caller fills in the request at an address and submits it. -/
  | submit (request : Nat) (value : BlockRequest) (thread : CallerThread)
      (device : Nat → List DeviceAction)
  | drain
  | device (action : DeviceAction)

def step (s : BlkSystem) : BlkAction → BlkSystem
  | .submit request value thread device =>
    ((s.setRequest request fun _ => value).submitRequest request thread device).2
  | .drain => s.drainUsed
  | .device action => s.deviceStep action

/-- The state after a probe, with the buffers of the slots at the given addresses. -/
def probed (deviceQueueSize capacitySectors : Nat) (buffer : Nat → Nat) : BlkSystem :=
  let queueSize :=
    if deviceQueueSize < kVirtioBlkQueueTargetSize then deviceQueueSize
    else kVirtioBlkQueueTargetSize
  { capacitySectors
    requestSlotCount := virtioBlkSlotCount queueSize
    slots := fun slot =>
      { headDescriptor := slot * kVirtioBlkDescriptorsPerRequest
        descriptorMask := virtioBlkDescriptorMask (slot * kVirtioBlkDescriptorsPerRequest)
        buffer := buffer slot
        data := List.replicate (kVirtioBlkMaxSectorsPerRequest * kVirtioSectorSize) 0#8 }
    queue := { size := queueSize } }

def run (s : BlkSystem) (actions : List BlkAction) : BlkSystem := actions.foldl step s

end BlkSystem
end Os1.Virtio
