import Os1.Mm.UserCopyExact
import Os1.Proc.WaitPid
import Os1.Sched.Kernel

/-! `sys_observe` of processes: the threads are counted, and walked again in a second section. -/
namespace Os1.Observe

open VirtualMemory UserAddress

structure ObservedProcess where
  pid : BitVec 64
  state : Proc.ProcessState
  name : List (BitVec 8)
  deriving DecidableEq, Repr

/-- A thread of the registry as one critical section sees it. -/
structure ObservedThread where
  tid : BitVec 64
  cr3 : BitVec 64
  state : Sched.ThreadState
  userMode : Bool
  process : Option ObservedProcess
  deriving DecidableEq, Repr

def processStateCode : Proc.ProcessState → BitVec 32
  | .free => 0#32
  | .ready => 1#32
  | .running => 2#32
  | .dying => 3#32
  | .zombie => 4#32

def threadStateCode : Sched.ThreadState → BitVec 32
  | .free => 0#32
  | .ready => 1#32
  | .running => 2#32
  | .blocked => 3#32
  | .dying => 4#32

def observeAbiVersion : BitVec 32 := 1#32
def observeProcesses : BitVec 32 := 2#32
def processFlagUserMode : BitVec 32 := 1#32
def processNameBytes : Nat := 32

/-- The bytes of a word, lowest first. -/
def encode {w : Nat} (value : BitVec w) (bytes : Nat) : List (BitVec 8) :=
  (List.range bytes).map fun i => value.extractLsb' (8 * i) 8

/-- `copy_fixed_string` into a field of `size` bytes. -/
def copyFixedString (size : Nat) (source : List (BitVec 8)) : List (BitVec 8) :=
  let text := (source.takeWhile (· ≠ 0#8)).take (size - 1)
  text ++ List.replicate (size - text.length) 0#8

/-- The packed `Os1ObserveHeader`. -/
def observeHeader (kind recordSize recordCount : BitVec 32) : List (BitVec 8) :=
  encode observeAbiVersion 4 ++ encode kind 4 ++ encode recordSize 4 ++ encode recordCount 4

/-- The packed `Os1ObserveProcessRecord`. -/
def processRecord (thread : ObservedThread) (process : ObservedProcess) : List (BitVec 8) :=
  encode process.pid 8 ++ encode thread.tid 8 ++ encode thread.cr3 8 ++
    encode (processStateCode process.state) 4 ++ encode (threadStateCode thread.state) 4 ++
    encode (if thread.userMode then processFlagUserMode else 0#32) 4 ++
    copyFixedString processNameBytes process.name

def headerSize : Nat := 16
def processRecordSize : Nat := 68

/-- The state of a transfer. `stream` holds all bytes that were passed to `copy_to_user`, one call
after the other, and `written` says how many of them it wrote. -/
structure Transfer where
  memory : VirtualMemory
  offset : Nat := 0
  records : Nat := 0
  stream : List (BitVec 8) := []
  written : Nat := 0

variable (cr3 userBuffer : BitVec 64)

/-- `copy_to_user` to `user_buffer + offset`, and the new offset on success. -/
def copyObserved (t : Transfer) (bytes : List (BitVec 8)) : Bool × Transfer :=
  let address := byteAt userBuffer t.offset
  let length := BitVec.ofNat 64 bytes.length
  let (result, memory) := t.memory.copyToUser (some cr3) address (some (bytes.getD · 0#8)) length
  let t := { t with
    memory := memory
    stream := t.stream ++ bytes
    written := t.offset + t.memory.copiedBytes cr3 address length }
  if result.isOk then (true, { t with offset := t.offset + bytes.length }) else (false, t)

/-- The result of the whole transfer, or none when `begin_observe_transfer` returns false. -/
def beginObserveTransfer (memory : VirtualMemory) (userLength : BitVec 64)
    (kind recordSize recordCount : BitVec 32) : Option Int × Transfer :=
  let t : Transfer := { memory := memory }
  if userBuffer = 0#64 ∨ userLength = 0#64 then (none, t)
  else
    let payloadBytes : BitVec 64 := recordSize.setWidth 64 * recordCount.setWidth 64
    if recordCount ≠ 0#32 ∧ payloadBytes / recordCount.setWidth 64 ≠ recordSize.setWidth 64 then
      (none, t)
    else
      let totalBytes := BitVec.ofNat 64 headerSize + payloadBytes
      if totalBytes < BitVec.ofNat 64 headerSize ∨ userLength < totalBytes then (none, t)
      else
        match copyObserved cr3 userBuffer t (observeHeader kind recordSize recordCount) with
        | (false, t) => (none, t)
        | (true, t) => (some totalBytes.toInt, t)

/-- The thread and its process, if the call reports it. -/
def reported (thread : ObservedThread) : Option (List (BitVec 8)) :=
  if thread.state = .free then none else thread.process.map (processRecord thread)

/-- The second walk over the registry. -/
def writeRecords : List ObservedThread → Transfer → Bool × Transfer
  | [], t => (true, t)
  | thread :: threads, t =>
    match reported thread with
    | none => writeRecords threads t
    | some record =>
      match copyObserved cr3 userBuffer t record with
      | (false, t) => (false, t)
      | (true, t) => writeRecords threads { t with records := t.records + 1 }

/-- `record_count`, which is 32 bits wide. -/
def countThreads (threads : List ObservedThread) : BitVec 32 :=
  BitVec.ofNat 32 (threads.filterMap reported).length

/-- `counted` and `walked` are the threads of the registry in the first and the second critical
section. -/
def sysObserveProcesses (memory : VirtualMemory) (length : BitVec 64)
    (counted walked : List ObservedThread) : Int × Transfer :=
  match beginObserveTransfer cr3 userBuffer memory length observeProcesses
      (BitVec.ofNat 32 processRecordSize) (countThreads counted) with
  | (none, t) => (-1, t)
  | (some result, t) =>
    match writeRecords cr3 userBuffer walked t with
    | (false, t) => (-1, t)
    | (true, t) => (result, t)

end Os1.Observe
