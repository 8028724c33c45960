import Mathlib.Tactic.Common

/-! A parent that waits for its child, and the reaper, one locked section at a time. -/
namespace Os1.Proc

inductive ProcessState where
  | free
  | ready
  | running
  | dying
  | zombie
  deriving DecidableEq, Repr

/-- Who can hold the process-table lock. -/
inductive Party where
  | parent
  | reaper
  deriving DecidableEq, Repr

/-- The arguments of `waitpid`, kept in the wait state of a blocked thread. -/
structure WaitArgs where
  pid : BitVec 64
  userStatusPointer : BitVec 64
  deriving DecidableEq, Repr

/-- The sections of `reap_process`; `release` runs after the process-table lock is dropped. -/
inductive ReapStage where
  | lock
  | check
  | unlink
  | release
  deriving DecidableEq, Repr

/-- Where the parent is in `try_complete_or_block_wait_pid`. It holds the process-table lock from
`check` up to `enqueue`. -/
inductive ParentPc where
  | outside (result : Option Int)
  | find (args : WaitArgs)
  | check (args : WaitArgs) (found : Bool)
  | enqueue (args : WaitArgs)
  | copy (args : WaitArgs)
  | reap (stage : ReapStage)
  | blocked
  deriving DecidableEq, Repr

/-- Where the reaper is in `reap_dead_threads`; from `find` on it is inside
`wake_child_waiters` with the parent taken from its queue. -/
inductive ReaperPc where
  | idle
  | scan
  | unlink
  | hasThreads
  | readState
  | dequeue
  | find (args : WaitArgs)
  | check (args : WaitArgs) (found : Bool)
  | copy (args : WaitArgs)
  | complete (stage : ReapStage)
  | findAny (args : WaitArgs)
  | wake (result : Int)
  | requeue (args : WaitArgs)
  | reapOwner (stage : ReapStage)
  deriving DecidableEq, Repr

/-- The child's only thread: `exiting` has made the process a zombie, `dying` is still current on
its CPU, `left` is not. -/
inductive ChildThread where
  | running
  | exiting
  | dying
  | left
  deriving DecidableEq, Repr

/-- `queue` is the parent's `child_exit_waiters`, which can hold only the parent's thread;
`halted` is a kernel that has freed the child's record twice. -/
structure WaitSystem where
  lock : Option Party := none
  childPid : BitVec 64
  childState : ProcessState
  childLinked : Bool := true
  childFreed : Bool := false
  childThread : ChildThread := .running
  threadListed : Bool := true
  queue : Option WaitArgs := none
  parent : ParentPc := .outside none
  reaper : ReaperPc := .idle
  halted : Bool := false
  deriving DecidableEq, Repr

namespace WaitSystem

/-- `find_child_process_locked`, for the one child. -/
def findChild (s : WaitSystem) (pid : BitVec 64) (zombieOnly : Bool) : Bool :=
  s.childLinked && s.childState ≠ .free && s.childState ≠ .dying &&
    (!zombieOnly || s.childState = .zombie) && (pid = 0#64 || s.childPid = pid)

/-- One section of `reap_process`: the next stage, or the result. -/
def reapProcess (s : WaitSystem) (party : Party) : ReapStage → WaitSystem × (ReapStage ⊕ Bool)
  | .lock =>
    if s.lock = none then ({ s with lock := some party }, .inl .check) else (s, .inl .lock)
  | .check =>
    if s.threadListed then ({ s with lock := none }, .inr false) else (s, .inl .unlink)
  | .unlink => ({ s with childLinked := false, lock := none }, .inl .release)
  | .release =>
    if s.childFreed then ({ s with halted := true }, .inl .release)
    else ({ s with childFreed := true, childState := .free }, .inr true)

def resultOf (s : WaitSystem) (reaped : Bool) : Int := if reaped then s.childPid.toNat else -1

/-- One section of `try_complete_or_block_wait_pid`. -/
def parentStep (s : WaitSystem) (copied : Bool) : WaitSystem :=
  match s.parent with
  | .outside _ | .blocked => s
  | .find args =>
    if s.lock = none then
      { s with lock := some .parent, parent := .check args (s.findChild args.pid true) }
    else s
  | .check args found =>
    if found && !s.threadListed then { s with lock := none, parent := .copy args }
    else if s.findChild args.pid false then { s with parent := .enqueue args }
    else { s with lock := none, parent := .outside (some (-1)) }
  | .enqueue args => { s with lock := none, queue := some args, parent := .blocked }
  | .copy args =>
    if args.userStatusPointer ≠ 0#64 ∧ !copied then { s with parent := .outside (some (-1)) }
    else { s with parent := .reap .lock }
  | .reap stage =>
    match s.reapProcess .parent stage with
    | (s, .inl stage) => { s with parent := .reap stage }
    | (s, .inr reaped) => { s with parent := .outside (some (s.resultOf reaped)) }

/-- `mark_current_thread_dying` on the child's CPU, which then switches away. -/
def childStep (s : WaitSystem) : WaitSystem :=
  match s.childThread with
  | .running =>
    if s.lock = none then { s with childState := .zombie, childThread := .exiting } else s
  | .exiting => { s with childThread := .dying }
  | .dying => { s with childThread := .left }
  | .left => s

/-- One section of `reap_dead_threads`, with `wake_child_waiters` and `try_complete_wait_pid`. -/
def reaperStep (s : WaitSystem) (copied : Bool) : WaitSystem :=
  match s.reaper with
  | .idle => s
  | .scan =>
    if s.threadListed ∧ s.childThread = .left then { s with reaper := .unlink }
    else { s with reaper := .idle }
  | .unlink => { s with threadListed := false, reaper := .hasThreads }
  | .hasThreads =>
    if s.threadListed then { s with reaper := .scan } else { s with reaper := .readState }
  | .readState =>
    if s.childState = .zombie then { s with reaper := .dequeue }
    else { s with reaper := .reapOwner .lock }
  | .dequeue =>
    match s.queue with
    | none => { s with reaper := .scan }
    | some args => { s with queue := none, reaper := .find args }
  | .find args =>
    if s.lock = none then
      { s with lock := some .reaper, reaper := .check args (s.findChild args.pid true) }
    else s
  | .check args found =>
    if found then
      if s.threadListed then { s with lock := none, reaper := .requeue args }
      else { s with lock := none, reaper := .copy args }
    else { s with lock := none, reaper := .findAny args }
  | .copy args =>
    if args.userStatusPointer ≠ 0#64 ∧ !copied then { s with reaper := .wake (-1) }
    else { s with reaper := .complete .lock }
  | .complete stage =>
    match s.reapProcess .reaper stage with
    | (s, .inl stage) => { s with reaper := .complete stage }
    | (s, .inr reaped) => { s with reaper := .wake (s.resultOf reaped) }
  | .findAny args =>
    if s.lock = none then
      if s.findChild args.pid false then { s with reaper := .requeue args }
      else { s with reaper := .wake (-1) }
    else s
  | .wake result => { s with parent := .outside (some result), reaper := .scan }
  | .requeue args => { s with queue := some args, reaper := .scan }
  | .reapOwner stage =>
    match s.reapProcess .reaper stage with
    | (s, .inl stage) => { s with reaper := .reapOwner stage }
    | (s, .inr _) => { s with reaper := .scan }

inductive Action where
  | callWait (args : WaitArgs)
  | parent (copied : Bool)
  | child
  | callReap
  | reaper (copied : Bool)
  deriving DecidableEq, Repr

/-- Any party may run its next section; a halted kernel does nothing. -/
def step (s : WaitSystem) (a : Action) : WaitSystem :=
  if s.halted then s
  else match a with
    | .callWait args =>
      match s.parent with
      | .outside _ =>
        if args.pid >>> 63 ≠ 0#64 then { s with parent := .outside (some (-1)) }
        else { s with parent := .find args }
      | _ => s
    | .parent copied => s.parentStep copied
    | .child => s.childStep
    | .callReap => if s.reaper = .idle then { s with reaper := .scan } else s
    | .reaper copied => s.reaperStep copied

def run (s : WaitSystem) (actions : List Action) : WaitSystem := actions.foldl step s

end WaitSystem
end Os1.Proc
