import Os1.Sched.Kernel

/-! Run queues as the kernel links them: a head, a tail and the `next` field of each thread. -/
namespace Os1.Sched

/-- The fields of `Thread` that the run queues use; the defaults are those of a cleared record. -/
structure QueueThread extends Thread where
  next : Option Nat := none
  deriving DecidableEq, Repr

structure RunQueue where
  head : Option Nat := none
  tail : Option Nat := none
  length : Nat := 0
  deriving DecidableEq, Repr

structure QueueCpu where
  current : Option Nat := none
  idle : Option Nat := none
  runq : RunQueue := {}
  booted : Bool := false
  deriving DecidableEq, Repr

/-- CPUs and thread records are named by numbers; `registry` holds the records in use. -/
structure RunQueues where
  boot : Nat
  others : List Nat
  cpu : Nat → QueueCpu
  thread : Nat → QueueThread
  registry : List Nat
  lastKernelThreadCpu : Nat
  lastUserThreadCpu : Nat
  smpBalancerEnabled : Bool := true

namespace RunQueues

def cpus (s : RunQueues) : List Nat := s.boot :: s.others

def setQueue (s : RunQueues) (c : Nat) (f : RunQueue → RunQueue) : RunQueues :=
  { s with
    cpu := fun d => if d = c then { s.cpu d with runq := f (s.cpu d).runq } else s.cpu d }

def setThread (s : RunQueues) (t : Nat) (f : QueueThread → QueueThread) : RunQueues :=
  { s with thread := fun u => if u = t then f (s.thread u) else s.thread u }

def setNext (s : RunQueues) (t : Nat) (next : Option Nat) : RunQueues :=
  s.setThread t fun thread => { thread with next := next }

def setRunQueueCpu (s : RunQueues) (t : Nat) (owner : Option Nat) : RunQueues :=
  s.setThread t fun thread => { thread with runQueueCpu := owner }

def setState (s : RunQueues) (t : Nat) (state : ThreadState) : RunQueues :=
  s.setThread t fun thread => { thread with state := state }

def setSchedulerCpu (s : RunQueues) (t c : Nat) : RunQueues :=
  s.setThread t fun thread => { thread with schedulerCpu := some c }

/-- A walk meets each record in use at most once. -/
def walkFuel (s : RunQueues) : Nat := s.registry.length

/-! ## The queues -/

/-- `append_ready_thread_locked` -/
def appendReadyThreadLocked (s : RunQueues) (owner t : Nat) : RunQueues :=
  let s := s.setNext t none
  let s := match (s.cpu owner).runq.tail with
    | some last => s.setNext last (some t)
    | none => s.setQueue owner fun q => { q with head := some t }
  (s.setQueue owner fun q => { q with tail := some t, length := q.length + 1 }).setRunQueueCpu t
    (some owner)

/-- `run_queue_append_locked` -/
def runQueueAppendLocked (s : RunQueues) (owner t : Nat) : RunQueues :=
  if (s.thread t).runQueueCpu ≠ none then s else s.appendReadyThreadLocked owner t

/-- The walk of `run_queue_remove_locked`: the record before `t`, if `t` is met. -/
def findPrevious (s : RunQueues) (t : Nat) :
    (fuel : Nat) → (previous candidate : Option Nat) → Option (Option Nat)
  | _, _, none => none
  | 0, _, some _ => none
  | fuel + 1, previous, some candidate =>
    if candidate ≠ t then s.findPrevious t fuel (some candidate) (s.thread candidate).next
    else some previous

/-- Take `t` out of the queue, given the record before it. -/
def unlinkThread (s : RunQueues) (owner t : Nat) (previous : Option Nat) : RunQueues :=
  let next := (s.thread t).next
  let s := match previous with
    | some p => s.setNext p next
    | none => s.setQueue owner fun q => { q with head := next }
  let s := s.setQueue owner fun q =>
    { q with
      tail := if q.tail = some t then previous else q.tail
      length := if q.length ≠ 0 then q.length - 1 else q.length }
  (s.setNext t none).setRunQueueCpu t none

/-- `run_queue_remove_locked` -/
def runQueueRemoveLocked (s : RunQueues) (owner t : Nat) : RunQueues :=
  match s.findPrevious t s.walkFuel none (s.cpu owner).runq.head with
  | none => s
  | some previous => s.unlinkThread owner t previous

def dequeueThreadIfQueued (s : RunQueues) (t : Nat) : RunQueues :=
  match (s.thread t).runQueueCpu with
  | none => s
  | some owner => s.runQueueRemoveLocked owner t

/-- `enqueue_thread_on_cpu` -/
def enqueueThreadOnCpu (s : RunQueues) (t target : Nat) : RunQueues :=
  let s := s.setSchedulerCpu t target
  if (s.cpu target).idle = some t then (s.setRunQueueCpu t none).setNext t none
  else if (s.thread t).runQueueCpu ≠ none then s
  else s.runQueueAppendLocked target t

/-- `dequeue_ready_thread` -/
def dequeueReadyThread (s : RunQueues) (owner : Nat) : Option Nat × RunQueues :=
  match (s.cpu owner).runq.head with
  | none => (none, s)
  | some t =>
    let next := (s.thread t).next
    let s := s.setQueue owner fun q =>
      { head := next
        tail := if next = none then none else q.tail
        length := if q.length ≠ 0 then q.length - 1 else q.length }
    (some t, (s.setNext t none).setRunQueueCpu t none)

/-- The walk of `detach_last_migratable_thread_locked`: the last migratable record and the one
before it. -/
def findLastMigratable (s : RunQueues) (receiver : Nat) (now : BitVec 64) :
    (fuel : Nat) → (previous cursor : Option Nat) → (found : Option (Option Nat × Nat)) →
    Option (Option Nat × Nat)
  | _, _, none, found => found
  | 0, _, some _, found => found
  | fuel + 1, previous, some t, found =>
    s.findLastMigratable receiver now fuel (some t) (s.thread t).next
      (if Kernel.threadIsMigratable (s.thread t).toThread receiver now then some (previous, t)
        else found)

/-- `detach_last_migratable_thread_locked` -/
def detachLastMigratableThreadLocked (s : RunQueues) (donor receiver : Nat) (now : BitVec 64) :
    Option Nat × RunQueues :=
  match s.findLastMigratable receiver now s.walkFuel none (s.cpu donor).runq.head none with
  | none => (none, s)
  | some (previous, t) => (some t, s.unlinkThread donor t previous)

/-! ## Choosing a CPU -/

def cpuIsSchedulable (s : RunQueues) (c : Nat) : Bool := c = s.boot || (s.cpu c).booted

/-- `next_schedulable_cpu_after` as CPU `c` computes it: once round the ring of CPUs. -/
def nextSchedulableCpuAfter (s : RunQueues) (c after : Nat) : Nat :=
  let start := s.cpus.idxOf after + 1
  ((s.cpus.drop start ++ s.cpus.take start).find? s.cpuIsSchedulable).getD c

/-- The loop of `select_least_loaded_cpu`. -/
def leastLoadedFrom (s : RunQueues) (c : Nat) : (fuel candidate best : Nat) → Nat
  | 0, _, best => best
  | fuel + 1, candidate, best =>
    if candidate = best then best
    else if (s.cpu candidate).runq.length < (s.cpu best).runq.length then
      if (s.cpu candidate).runq.length = 0 then candidate
      else s.leastLoadedFrom c fuel (s.nextSchedulableCpuAfter c candidate) candidate
    else s.leastLoadedFrom c fuel (s.nextSchedulableCpuAfter c candidate) best

/-- `select_least_loaded_cpu`; every turn that lowers `best` is followed by at most one round. -/
def selectLeastLoadedCpu (s : RunQueues) (c startAfter : Nat) : Nat :=
  let best := s.nextSchedulableCpuAfter c startAfter
  if (s.cpu best).runq.length = 0 then best
  else s.leastLoadedFrom c (s.cpus.length * s.cpus.length) (s.nextSchedulableCpuAfter c best) best

/-- `select_user_target_cpu` -/
def selectUserTargetCpu (s : RunQueues) (c : Nat) : Nat × RunQueues :=
  let best := s.selectLeastLoadedCpu c s.lastUserThreadCpu
  (best, { s with lastUserThreadCpu := best })

def selectTargetCpu (s : RunQueues) (c t : Nat) (target : Option Nat) : Nat × RunQueues :=
  match target with
  | some d => (d, s)
  | none =>
    if (s.thread t).userMode then s.selectUserTargetCpu c
    else ((s.thread t).schedulerCpu.getD c, s)

/-! ## The calls -/

/-- `mark_thread_ready` on CPU `c`. -/
def markThreadReady (s : RunQueues) (c t : Nat) (target : Option Nat) : RunQueues :=
  if (s.thread t).state = .dying ∨ (s.thread t).state = .free then s
  else
    let (targetCpu, s) := s.selectTargetCpu c t target
    (s.setState t .ready).enqueueThreadOnCpu t targetCpu

/-- `set_current_thread` on CPU `c`. -/
def setCurrentThread (s : RunQueues) (c : Nat) (thread : Option Nat) : RunQueues :=
  let s := match thread with
    | none => s
    | some t => s.dequeueThreadIfQueued t
  let s := { s with
    cpu := fun d => if d = c then { s.cpu d with current := thread } else s.cpu d }
  match thread with
  | none => s
  | some t => ((s.setSchedulerCpu t c).setRunQueueCpu t none).setState t .running

def threadIsCurrentOnAnyCpu (s : RunQueues) (t : Nat) : Bool :=
  s.cpus.any fun c => (s.cpu c).current = some t

/-- `clear_thread`; the record is cleared to its defaults. -/
def clearThread (s : RunQueues) (t : Nat) : RunQueues :=
  let s := s.dequeueThreadIfQueued t
  { s with
    cpu := fun d =>
      if d ∈ s.cpus ∧ (s.cpu d).idle = some t then { s.cpu d with idle := none } else s.cpu d
    registry := s.registry.erase t
    thread := fun u => if u = t then {} else s.thread u }

/-- `reap_dead_threads`, as far as it is about thread records. -/
def reapDeadThreads : (fuel : Nat) → RunQueues → RunQueues
  | 0, s => s
  | fuel + 1, s =>
    match s.registry.find? fun t =>
        (s.thread t).state = .dying && !s.threadIsCurrentOnAnyCpu t with
    | none => s
    | some t => reapDeadThreads fuel (s.clearThread t)

/-- `schedule_next` puts a running current thread back before it chooses. -/
def readyCurrent (s : RunQueues) (c : Nat) (keepCurrent : Bool) : RunQueues :=
  match (s.cpu c).current with
  | none => s
  | some t =>
    if keepCurrent ∧ (s.cpu c).idle ≠ some t ∧ (s.thread t).state = .running then
      s.markThreadReady c t (some c)
    else s

/-- `schedule_next` on CPU `c`: the thread to run next. -/
def scheduleNext (s : RunQueues) (c : Nat) (keepCurrent : Bool) : Option Nat × RunQueues :=
  let s := if c = s.boot then reapDeadThreads s.registry.length s else s
  let (dequeued, s) := (s.readyCurrent c keepCurrent).dequeueReadyThread c
  match dequeued.or (s.cpu c).idle with
  | none => (none, s)
  | some t => (some t, s.setState t .running)

/-- A new record, with the affinity mask that `allocate_thread_record` gives it. -/
def newThread (state : ThreadState) (userMode : Bool) : QueueThread :=
  { state := state, userMode := userMode, affinityMask := BitVec.allOnes 64 }

/-- `link_thread`, with the record filled in before. -/
def linkThread (s : RunQueues) (t : Nat) (thread : QueueThread) : RunQueues :=
  { s with
    thread := fun u => if u = t then thread else s.thread u
    registry := s.registry ++ [t] }

/-- `publish_idle_thread` -/
def publishIdleThread (s : RunQueues) (owner t : Nat) : RunQueues :=
  { s with cpu := fun d => if d = owner then { s.cpu d with idle := some t } else s.cpu d }

/-- The CPU of a new kernel thread: the calling one while that has no idle thread. -/
def kernelThreadOwner (s : RunQueues) (c : Nat) : Nat × RunQueues :=
  if (s.cpu c).idle = none then (c, s)
  else
    let owner := s.nextSchedulableCpuAfter c s.lastKernelThreadCpu
    (owner, { s with lastKernelThreadCpu := owner })

/-- `create_kernel_thread` on CPU `c` with the record `t`. -/
def createKernelThread (s : RunQueues) (c t : Nat) : RunQueues :=
  let (owner, s) := s.kernelThreadOwner c
  let s := if (s.cpu owner).idle = none then s.publishIdleThread owner t else s
  let s := s.linkThread t { newThread .ready false with schedulerCpu := some owner }
  s.markThreadReady c t (some owner)

/-- `create_idle_thread_for_cpu` on CPU `c` with the record `t`. -/
def createIdleThreadForCpu (s : RunQueues) (c owner t : Nat) : RunQueues :=
  if (s.cpu owner).idle ≠ none then s
  else
    let state : ThreadState := if owner ≠ c then .blocked else .ready
    (s.publishIdleThread owner t).linkThread t
      { newThread state false with schedulerCpu := some owner }

/-- `create_user_thread` on CPU `c` with the record `t`. -/
def createUserThread (s : RunQueues) (c t : Nat) (startReady : Bool) : RunQueues :=
  let (target, s) := s.selectUserTargetCpu c
  let state : ThreadState := if startReady then .ready else .blocked
  let s := s.linkThread t { newThread state true with schedulerCpu := some target }
  if startReady then s.markThreadReady c t (some target) else s

/-- `scheduler_balance_cpu`: the first pass over the CPUs, as in `Kernel.readDepth`. -/
def readDepth (s : RunQueues) (target : Nat) (depths : Depths) (owner : Nat) : Depths :=
  if s.cpuIsSchedulable owner then
    let depth := (s.cpu owner).runq.length
    let depths := { depths with total := depths.total + depth }
    if owner = target then { depths with own := depth }
    else if depth > depths.donorDepth then { depths with donor := some owner, donorDepth := depth }
    else depths
  else depths

def schedulableCpuCount (s : RunQueues) : Nat := (s.cpus.filter s.cpuIsSchedulable).length

/-- Move a thread from the donor to the target. -/
def migrate (s : RunQueues) (donor target : Nat) (now : BitVec 64) : RunQueues :=
  match s.detachLastMigratableThreadLocked donor target now with
  | (none, s) => s
  | (some t, s) =>
    (s.appendReadyThreadLocked target t).setThread t fun thread =>
      { thread with schedulerCpu := some target, lastMigrationTick := now }

/-- Nothing happens between the two passes, so the depths read under the locks are the same. -/
def schedulerBalanceCpu (s : RunQueues) (target : Nat) (now : BitVec 64) (force : Bool) :
    RunQueues :=
  if !s.smpBalancerEnabled || !s.cpuIsSchedulable target || s.schedulableCpuCount < 2 then s
  else
    let depths := s.cpus.foldl (s.readDepth target) {}
    let targetDepth := (depths.total + s.schedulableCpuCount - 1) / s.schedulableCpuCount
    match depths.donor with
    | none => s
    | some donor =>
      if Kernel.worthMoving depths.own depths.donorDepth targetDepth force ∧
          Kernel.worthMoving (s.cpu target).runq.length (s.cpu donor).runq.length targetDepth force
      then s.migrate donor target now
      else s

inductive QueueAction where
  | createKernelThread (c t : Nat)
  | createIdleThreadForCpu (c owner t : Nat)
  | createUserThread (c t : Nat) (startReady : Bool)
  | markThreadReady (c t : Nat) (target : Option Nat)
  | setCurrentThread (c : Nat) (thread : Option Nat)
  | scheduleNext (c : Nat) (keepCurrent : Bool)
  | balance (target : Nat) (now : BitVec 64) (force : Bool)
  | clearThread (t : Nat)
  deriving DecidableEq, Repr

/-- A new record is at an address that is not in use; when there is none, the creating call fails
and changes nothing. -/
def step (s : RunQueues) : QueueAction → RunQueues
  | .createKernelThread c t => if t ∈ s.registry then s else s.createKernelThread c t
  | .createIdleThreadForCpu c owner t =>
    if t ∈ s.registry then s else s.createIdleThreadForCpu c owner t
  | .createUserThread c t startReady =>
    if t ∈ s.registry then s else s.createUserThread c t startReady
  | .markThreadReady c t target => s.markThreadReady c t target
  | .setCurrentThread c thread => s.setCurrentThread c thread
  | .scheduleNext c keepCurrent => (s.scheduleNext c keepCurrent).2
  | .balance target now force => s.schedulerBalanceCpu target now force
  | .clearThread t => s.clearThread t

def run (s : RunQueues) (actions : List QueueAction) : RunQueues := actions.foldl step s

end RunQueues
end Os1.Sched
