import Os1.Proc.WaitPid
import Os1.Sched.Kernel

/-! User processes and their threads from creation to collection. -/
namespace Os1.Proc

open Sched

/-- A process record; the defaults are those of a released record. -/
structure Process where
  pid : BitVec 64 := 0#64
  state : ProcessState := .free
  cr3 : BitVec 64 := 0#64
  exitStatus : BitVec 32 := 0#32
  parent : Option Nat := none
  childExitWaiters : List Nat := []
  deriving DecidableEq, Repr

/-- A thread record; `onCpu` says that it is the current thread of some CPU. -/
structure ProcessThread where
  process : Option Nat := none
  state : ThreadState := .free
  onCpu : Bool := false
  exitStatus : BitVec 32 := 0#32
  wait : WaitArgs := ⟨0#64, 0#64⟩
  rax : Int := 0
  deriving DecidableEq, Repr

/-- What is left to do of `reap_dead_threads`. -/
inductive ReapTask where
  /-- Look for the next dead thread. -/
  | scan
  /-- The owner of a reaped thread has no threads left. -/
  | owner (process : Nat)
  /-- `wake_child_waiters`: the waiters still to be tried, and those that keep waiting. -/
  | wake (parent : Nat) (pending stillWaiting : List Nat)
  deriving DecidableEq, Repr

/-- Records are named by their addresses; both registries are in creation order. -/
structure ProcessTable where
  processes : List Nat := []
  process : Nat → Process := fun _ => {}
  threads : List Nat := []
  thread : Nat → ProcessThread := fun _ => {}
  nextPid : BitVec 64 := 1#64
  work : List ReapTask := []

namespace ProcessTable

def setProcess (s : ProcessTable) (p : Nat) (f : Process → Process) : ProcessTable :=
  { s with process := fun q => if q = p then f (s.process q) else s.process q }

def setThread (s : ProcessTable) (t : Nat) (f : ProcessThread → ProcessThread) : ProcessTable :=
  { s with thread := fun u => if u = t then f (s.thread u) else s.thread u }

/-- `process_has_threads` -/
def processHasThreads (s : ProcessTable) (p : Nat) : Bool :=
  s.threads.any fun t => (s.thread t).process = some p && (s.thread t).state ≠ .free

/-- `set_process_state` for the process of a thread. -/
def setProcessState (s : ProcessTable) (t : Nat) (state : ProcessState) : ProcessTable :=
  match (s.thread t).process with
  | none => s
  | some p =>
    if (s.process p).state = .dying then s
    else s.setProcess p fun process => { process with state := state }

/-! ## Creation and exit -/

/-- `create_user_process`, the parent that `load_user_program` sets, and `create_user_thread`, which
leaves the thread ready or blocked. -/
def create (s : ProcessTable) (p t : Nat) (parent : Option Nat) (cr3 : BitVec 64)
    (startReady : Bool) : ProcessTable :=
  { s with
    processes := s.processes ++ [p]
    process := fun q =>
      if q = p then { pid := s.nextPid, state := .ready, cr3 := cr3, parent := parent }
      else s.process q
    threads := s.threads ++ [t]
    thread := fun u =>
      if u = t then { process := some p, state := if startReady then .ready else .blocked }
      else s.thread u
    nextPid := s.nextPid + 1#64 }

/-- `mark_current_thread_dying` -/
def markThreadDying (s : ProcessTable) (t : Nat) (exitStatus : BitVec 32) : ProcessTable :=
  let s := match (s.thread t).process with
    | none => s
    | some p => s.setProcess p fun process =>
        { process with
          exitStatus := exitStatus
          state := if process.parent.isSome then .zombie else .dying }
  s.setThread t fun thread =>
    { thread with exitStatus := exitStatus, wait := ⟨0#64, 0#64⟩, state := .dying }

/-! ## Collection -/

/-- `orphan_children` -/
def orphanChildren (s : ProcessTable) (p : Nat) : ProcessTable :=
  { s with
    process := fun q =>
      if q ∈ s.processes ∧ (s.process q).parent = some p then { s.process q with parent := none }
      else s.process q }

/-- `reap_process` of a user process; the record is cleared after its address space is gone. -/
def reapProcess (s : ProcessTable) (p : Nat) : Bool × ProcessTable :=
  if s.processHasThreads p then (false, s)
  else
    let s := s.orphanChildren p
    (true, { s with processes := s.processes.erase p }.setProcess p fun _ => {})

/-- `find_child_process_locked` -/
def findChildProcess (s : ProcessTable) (parent : Nat) (pid : BitVec 64) (zombieOnly : Bool) :
    Option Nat :=
  s.processes.find? fun q =>
    (s.process q).parent = some parent && (s.process q).state ≠ .free &&
      (s.process q).state ≠ .dying && (!zombieOnly || (s.process q).state = .zombie) &&
      (pid = 0#64 || (s.process q).pid = pid)

/-- The end of a wait that found a zombie: copy its status out and reap it. -/
def completeWait (s : ProcessTable) (child : Nat) (args : WaitArgs) (copied : Bool) :
    Int × ProcessTable :=
  if args.userStatusPointer ≠ 0#64 ∧ !copied then (-1, s)
  else
    match s.reapProcess child with
    | (false, s') => (-1, s')
    | (true, s') => ((s.process child).pid.toNat, s')

/-- `try_complete_wait_pid`: the result, or none when the caller has to wait. -/
def tryCompleteWaitPid (s : ProcessTable) (t : Nat) (args : WaitArgs) (copied : Bool) :
    Option Int × ProcessTable :=
  match (s.thread t).process with
  | none => (some (-1), s)
  | some p =>
    if args.pid >>> 63 ≠ 0#64 then (some (-1), s)
    else
      match s.findChildProcess p args.pid true with
      | some child =>
        if s.processHasThreads child then (none, s)
        else
          let (result, s) := s.completeWait child args copied
          (some result, s)
      | none =>
        match s.findChildProcess p args.pid false with
        | some _ => (none, s)
        | none => (some (-1), s)

/-- `try_complete_or_block_wait_pid`, with the result put in the thread's frame. -/
def waitPid (s : ProcessTable) (t : Nat) (args : WaitArgs) (copied : Bool) : ProcessTable :=
  let finish (s : ProcessTable) (result : Int) : ProcessTable :=
    s.setThread t fun thread => { thread with rax := result }
  match (s.thread t).process with
  | none => finish s (-1)
  | some p =>
    if args.pid >>> 63 ≠ 0#64 then finish s (-1)
    else
      let block (s : ProcessTable) : ProcessTable :=
        match s.findChildProcess p args.pid false with
        | none => finish s (-1)
        | some _ =>
          let s := s.setThread t fun thread =>
            { thread with wait := args, state := .blocked }
          s.setProcess p fun process =>
            { process with
              state := if process.state = .dying then .dying else .ready
              childExitWaiters := Kernel.waitQueueEnqueue process.childExitWaiters t }
      match s.findChildProcess p args.pid true with
      | some child =>
        if s.processHasThreads child then block s
        else
          let (result, s) := s.completeWait child args copied
          finish s result
      | none => block s

/-- `wake_blocked_thread` of a thread that is not running. -/
def wakeThread (s : ProcessTable) (t : Nat) (result : Int) : ProcessTable :=
  let s := s.setThread t fun thread => { thread with rax := result, wait := ⟨0#64, 0#64⟩ }
  if (s.thread t).state = .dying ∨ (s.thread t).state = .free then s
  else (s.setThread t fun thread => { thread with state := .ready }).setProcessState t .ready

/-- `clear_thread`; the record is cleared to its defaults. -/
def clearThread (s : ProcessTable) (t : Nat) : ProcessTable :=
  { s with threads := s.threads.erase t }.setThread t fun _ => {}

def deadThread (s : ProcessTable) : Option Nat :=
  s.threads.find? fun t => (s.thread t).state = .dying && !(s.thread t).onCpu

/-- One turn of the loop of `reap_dead_threads` or of `wake_child_waiters`. -/
def advance (s : ProcessTable) (copied : Bool) (rest : List ReapTask) : ReapTask → ProcessTable
  | .scan =>
    match s.deadThread with
    | none => { s with work := rest }
    | some t =>
      let owner := (s.thread t).process
      let s := s.clearThread t
      match owner with
      | none => { s with work := .scan :: rest }
      | some p =>
        if s.processHasThreads p then { s with work := .scan :: rest }
        else { s with work := .owner p :: .scan :: rest }
  | .owner p =>
    if (s.process p).state = .zombie then
      match (s.process p).parent with
      | none => { s with work := rest }
      | some q =>
        { s.setProcess q fun process => { process with childExitWaiters := [] } with
          work := .wake q (s.process q).childExitWaiters [] :: rest }
    else { (s.reapProcess p).2 with work := rest }
  | .wake q [] stillWaiting =>
    { s.setProcess q fun process =>
        { process with
          childExitWaiters :=
            stillWaiting.foldl Kernel.waitQueueEnqueue process.childExitWaiters } with
      work := rest }
  | .wake q (t :: pending) stillWaiting =>
    match s.tryCompleteWaitPid t (s.thread t).wait copied with
    | (some result, s) =>
      { s.wakeThread t result with work := .wake q pending stillWaiting :: rest }
    | (none, s) => { s with work := .wake q pending (stillWaiting ++ [t]) :: rest }

inductive TableAction where
  | create (p t : Nat) (parent : Option Nat) (cr3 : BitVec 64) (startReady : Bool)
  /-- A CPU begins to run a ready thread, or leaves the thread it runs. -/
  | switchTo (t : Nat)
  | switchFrom (t : Nat)
  | exit (t : Nat) (exitStatus : BitVec 32)
  | wait (t : Nat) (args : WaitArgs) (copied : Bool)
  | reap
  | advance (copied : Bool)
  deriving DecidableEq, Repr

/-- Calls are made one at a time. A thread that is running makes a call, in `create` the thread of
the parent; new records are at unused addresses. -/
def step (s : ProcessTable) (a : TableAction) : ProcessTable :=
  match s.work, a with
  | task :: rest, .advance copied => s.advance copied rest task
  | [], .create p t parent cr3 startReady =>
    if p ∉ s.processes ∧ t ∉ s.threads ∧ (∀ q, parent = some q →
        ∃ u ∈ s.threads, (s.thread u).process = some q ∧ (s.thread u).state = .running) then
      s.create p t parent cr3 startReady
    else s
  | [], .switchTo t =>
    if t ∈ s.threads ∧ (s.thread t).state = .ready then
      (s.setThread t fun thread => { thread with state := .running, onCpu := true }).setProcessState
        t .running
    else s
  | [], .switchFrom t =>
    if t ∈ s.threads ∧ (s.thread t).onCpu then
      let thread := s.thread t
      let s := s.setThread t fun thread => { thread with onCpu := false }
      if thread.state = .running then
        (s.setThread t fun thread => { thread with state := .ready }).setProcessState t .ready
      else s
    else s
  | [], .exit t exitStatus =>
    if t ∈ s.threads ∧ (s.thread t).state = .running then s.markThreadDying t exitStatus else s
  | [], .wait t args copied =>
    if t ∈ s.threads ∧ (s.thread t).state = .running then s.waitPid t args copied else s
  | [], .reap => { s with work := [.scan] }
  | _, _ => s

def run (s : ProcessTable) (actions : List TableAction) : ProcessTable := actions.foldl step s

end ProcessTable
end Os1.Proc
