import Mathlib.Tactic.Common

/-! Threads, run queues and context switches on several CPUs, one locked section at a time. -/
namespace Os1.Sched

inductive ThreadState where
  | free
  | ready
  | running
  | blocked
  | dying
  deriving DecidableEq, Repr

/-- The fields of `Thread` that scheduling reads; the defaults are those of a cleared record. -/
structure Thread where
  state : ThreadState := .free
  userMode : Bool := false
  schedulerCpu : Option Nat := none
  runQueueCpu : Option Nat := none
  affinityMask : BitVec 64 := 0#64
  lastMigrationTick : BitVec 64 := 0#64
  deriving DecidableEq, Repr

def kMigrationCooldownTicks : BitVec 64 := 64#64

def kKernelThreadStackPages : Nat := 4

/-- The depths that `scheduler_balance_cpu` has read so far. -/
structure Depths where
  total : Nat := 0
  own : Nat := 0
  donor : Option Nat := none
  donorDepth : Nat := 0
  deriving DecidableEq, Repr

/-- What a CPU still has to do inside the kernel, one locked section after the other. -/
inductive Task where
  /-- Wake the dequeued threads; those that cannot be served go back to the queue. -/
  | wake (queue : Nat) (threads stillWaiting : List Nat) (target : Option Nat)
  /-- `enqueue_thread_on_cpu` -/
  | enqueue (thread target : Nat)
  | keepCurrent (keep : Bool)
  | pickNext
  | restoreThread (next : Option Nat)
  | restoreFrame
  | leaveStack (next : Nat)
  | snapshot (left : List Nat) (target : Nat) (depths : Depths) (now : BitVec 64) (force : Bool)
  | migrate (donor target targetDepth : Nat) (now : BitVec 64) (force : Bool)
  | reapScan
  | reapFree (thread page : Nat)
  | clearThread (thread : Nat)
  | reapOwner
  deriving DecidableEq, Repr

/-- `stack` is the thread whose kernel stack holds the stack pointer, if there is one. -/
structure Cpu where
  current : Option Nat := none
  idle : Option Nat := none
  runq : List Nat := []
  booted : Bool := false
  stack : Option Nat := none
  work : List Task := []
  deriving DecidableEq, Repr

/-- CPUs and threads are named by numbers; `freedPages` counts the pages of a thread's kernel
stack that went back to the frame allocator. -/
structure Kernel where
  boot : Nat
  others : List Nat
  cpu : Nat → Cpu
  thread : Nat → Thread
  waiters : Nat → List Nat
  registry : List Nat
  freedPages : Nat → Nat

namespace Kernel

def cpus (k : Kernel) : List Nat := k.boot :: k.others

def setCpu (k : Kernel) (c : Nat) (f : Cpu → Cpu) : Kernel :=
  { k with cpu := fun d => if d = c then f (k.cpu d) else k.cpu d }

def setThread (k : Kernel) (t : Nat) (f : Thread → Thread) : Kernel :=
  { k with thread := fun u => if u = t then f (k.thread u) else k.thread u }

def setState (k : Kernel) (t : Nat) (state : ThreadState) : Kernel :=
  k.setThread t fun th => { th with state := state }

def setWork (k : Kernel) (c : Nat) (work : List Task) : Kernel :=
  k.setCpu c fun cpu => { cpu with work := work }

def setStack (k : Kernel) (c : Nat) (stack : Option Nat) : Kernel :=
  k.setCpu c fun cpu => { cpu with stack := stack }

def setWaiters (k : Kernel) (q : Nat) (l : List Nat) : Kernel :=
  { k with waiters := fun r => if r = q then l else k.waiters r }

def cpuIsSchedulable (k : Kernel) (c : Nat) : Bool := c = k.boot || (k.cpu c).booted

/-! ## Blocking and waking -/

/-- `wait_queue_enqueue_locked` -/
def waitQueueEnqueue (l : List Nat) (t : Nat) : List Nat := if t ∈ l then l else l ++ [t]

/-- `block_current_thread`; a wait for block I/O that is already complete is not begun. -/
def blockCurrentThread (k : Kernel) (c queue : Nat) (completionDone : Bool) : Kernel :=
  match (k.cpu c).current with
  | none => k
  | some t =>
    if (k.thread t).state = .dying ∨ (k.thread t).state = .free then k
    else if completionDone then k
    else (k.setState t .blocked).setWaiters queue (waitQueueEnqueue (k.waiters queue) t)

/-- `select_target_cpu`; `leastLoaded` is what `select_least_loaded_cpu` finds. -/
def selectTargetCpu (k : Kernel) (c t : Nat) (target : Option Nat) (leastLoaded : Nat) : Nat :=
  match target with
  | some d => d
  | none =>
    if (k.thread t).userMode then if k.cpuIsSchedulable leastLoaded then leastLoaded else c
    else (k.thread t).schedulerCpu.getD c

/-- `mark_thread_ready` up to the run queue, which is a section of its own. -/
def markThreadReady (k : Kernel) (c t : Nat) (target : Option Nat) (leastLoaded : Nat)
    (rest : List Task) : Kernel :=
  if (k.thread t).state = .dying ∨ (k.thread t).state = .free then k.setWork c rest
  else
    (k.setState t .ready).setWork c
      (.enqueue t (k.selectTargetCpu c t target leastLoaded) :: rest)

/-- `enqueue_thread_on_cpu` with `run_queue_append_locked` -/
def enqueueThreadOnCpu (k : Kernel) (t target : Nat) : Kernel :=
  let k := k.setThread t fun th => { th with schedulerCpu := some target }
  if (k.cpu target).idle = some t then
    k.setThread t fun th => { th with runQueueCpu := none }
  else if (k.thread t).runQueueCpu ≠ none then k
  else
    (k.setCpu target fun cpu => { cpu with runq := cpu.runq ++ [t] }).setThread t
      fun th => { th with runQueueCpu := some target }

/-- `wake_blocked_thread` -/
def wakeBlockedThread (k : Kernel) (c t : Nat) (target : Option Nat) (leastLoaded : Nat)
    (rest : List Task) : Kernel :=
  if (k.cpu c).current = some t then (k.setState t .running).setWork c rest
  else k.markThreadReady c t target leastLoaded rest

/-! ## Choosing the next thread -/

/-- `schedule_next` puts a running current thread back before it chooses. -/
def keepCurrent (k : Kernel) (c : Nat) (keep : Bool) (rest : List Task) : Kernel :=
  match (k.cpu c).current with
  | none => k.setWork c rest
  | some t =>
    if keep ∧ (k.cpu c).idle ≠ some t ∧ (k.thread t).state = .running then
      k.markThreadReady c t (some c) c rest
    else k.setWork c rest

/-- `dequeue_ready_thread` -/
def dequeueReadyThread (k : Kernel) (c : Nat) : Option Nat × Kernel :=
  match (k.cpu c).runq with
  | [] => (none, k)
  | t :: runq =>
    (some t, (k.setCpu c fun cpu => { cpu with runq := runq }).setThread t
      fun th => { th with runQueueCpu := none })

/-- The rest of `schedule_next`: the head of the run queue, or the idle thread. -/
def pickNext (k : Kernel) (c : Nat) (rest : List Task) : Kernel :=
  let (dequeued, k) := k.dequeueReadyThread c
  match dequeued.or (k.cpu c).idle with
  | none => k.setWork c (.restoreThread none :: rest)
  | some t => (k.setState t .running).setWork c (.restoreThread (some t) :: rest)

/-- `restore_thread` publishes the thread and jumps on, still on the old stack. -/
def restoreThread (k : Kernel) (c : Nat) (next : Option Nat) (rest : List Task) : Kernel :=
  match next with
  | none => k.setWork c rest
  | some t => k.setCpu c fun cpu =>
      { cpu with current := some t, work := [.restoreFrame, .leaveStack t] }

/-- The stack a CPU is on when it runs `t`: none of the kernel's in user mode. -/
def stackOf (k : Kernel) (t : Nat) : Option Nat := if (k.thread t).userMode then none else some t

/-! ## Balancing -/

def threadAllowsCpu (th : Thread) (c : Nat) : Bool :=
  64 ≤ c || (th.affinityMask &&& (1#64 <<< c)) != 0#64

def threadIsMigratable (th : Thread) (c : Nat) (now : BitVec 64) : Bool :=
  th.state = .ready && threadAllowsCpu th c &&
    (th.lastMigrationTick = 0#64 || kMigrationCooldownTicks ≤ now - th.lastMigrationTick)

/-- The thread that `detach_last_migratable_thread_locked` takes. -/
def lastMigratable (k : Kernel) (donor receiver : Nat) (now : BitVec 64) : Option Nat :=
  (k.cpu donor).runq.foldl (fun candidate t =>
    if threadIsMigratable (k.thread t) receiver now then some t else candidate) none

def schedulableCpuCount (k : Kernel) : Nat := (k.cpus.filter k.cpuIsSchedulable).length

/-- One run queue length of the first pass, read under that queue's lock. -/
def readDepth (k : Kernel) (target : Nat) (depths : Depths) (owner : Nat) : Depths :=
  if k.cpuIsSchedulable owner then
    let depth := (k.cpu owner).runq.length
    let depths := { depths with total := depths.total + depth }
    if owner = target then { depths with own := depth }
    else if depth > depths.donorDepth then { depths with donor := some owner, donorDepth := depth }
    else depths
  else depths

/-- The donor is worth taking from, judged by these depths. -/
def worthMoving (own donorDepth targetDepth : Nat) (force : Bool) : Bool :=
  donorDepth ≠ 0 && own + 1 < donorDepth && (force || own + 1 < targetDepth)

def chooseDonor (k : Kernel) (target : Nat) (depths : Depths) (now : BitVec 64) (force : Bool) :
    List Task :=
  let cpuCount := k.schedulableCpuCount
  let targetDepth := (depths.total + cpuCount - 1) / cpuCount
  match depths.donor with
  | none => []
  | some donor =>
    if worthMoving depths.own depths.donorDepth targetDepth force then
      [.migrate donor target targetDepth now force]
    else []

/-- The last part of `scheduler_balance_cpu`, under both run queue locks. -/
def migrate (k : Kernel) (donor target targetDepth : Nat) (now : BitVec 64) (force : Bool) :
    Kernel :=
  if worthMoving (k.cpu target).runq.length (k.cpu donor).runq.length targetDepth force then
    match k.lastMigratable donor target now with
    | none => k
    | some t =>
      let k := k.setCpu donor fun cpu => { cpu with runq := cpu.runq.erase t }
      let k := k.setCpu target fun cpu => { cpu with runq := cpu.runq ++ [t] }
      k.setThread t fun th =>
        { th with
          runQueueCpu := some target, schedulerCpu := some target, lastMigrationTick := now }
  else k

/-! ## Reaping -/

def threadIsCurrentOnAnyCpu (k : Kernel) (t : Nat) : Bool :=
  k.cpus.any fun c => (k.cpu c).current = some t

/-- The thread that `reap_dead_threads` takes next. -/
def deadThread (k : Kernel) : Option Nat :=
  k.registry.find? fun t => (k.thread t).state = .dying && !k.threadIsCurrentOnAnyCpu t

/-- `clear_thread`; the record is cleared to its defaults. -/
def clearThread (k : Kernel) (t : Nat) : Kernel :=
  { k with
    cpu := fun d =>
      let runq := if (k.thread t).runQueueCpu = some d then (k.cpu d).runq.erase t
        else (k.cpu d).runq
      { k.cpu d with
        runq := runq
        idle := if (k.cpu d).idle = some t then none else (k.cpu d).idle }
    thread := fun u => if u = t then {} else k.thread u
    registry := k.registry.erase t }

/-! ## Steps -/

/-- What the environment decides during a step: the CPU that `select_least_loaded_cpu` finds,
whether a dequeued waiter cannot be served yet, and the queue of a parent to be told. -/
structure Choice where
  leastLoaded : Nat := 0
  putBack : Bool := false
  queue : Option Nat := none
  deriving DecidableEq, Repr

/-- Take the waiters of a queue, one or all, to wake them. -/
def beginWake (k : Kernel) (c queue : Nat) (all : Bool) (target : Option Nat) (rest : List Task) :
    Kernel :=
  let taken := if all then k.waiters queue else (k.waiters queue).take 1
  (k.setWaiters queue (if all then [] else (k.waiters queue).drop 1)).setWork c
    (.wake queue taken [] target :: rest)

/-- One section of the topmost task of a CPU. -/
def advance (k : Kernel) (c : Nat) (choice : Choice) (rest : List Task) : Task → Kernel
  | .wake queue [] stillWaiting _ =>
    (k.setWaiters queue (stillWaiting.foldl waitQueueEnqueue (k.waiters queue))).setWork c rest
  | .wake queue (t :: threads) stillWaiting target =>
    if choice.putBack then
      k.setWork c (.wake queue threads (stillWaiting ++ [t]) target :: rest)
    else
      k.wakeBlockedThread c t target choice.leastLoaded
        (.wake queue threads stillWaiting target :: rest)
  | .enqueue t target => (k.enqueueThreadOnCpu t target).setWork c rest
  | .keepCurrent keep => k.keepCurrent c keep rest
  | .pickNext => k.pickNext c rest
  | .restoreThread next => k.restoreThread c next rest
  | .restoreFrame => k.setWork c rest
  | .leaveStack t => (k.setStack c (k.stackOf t)).setWork c rest
  | .snapshot [] target depths now force =>
    k.setWork c (k.chooseDonor target depths now force ++ rest)
  | .snapshot (owner :: left) target depths now force =>
    k.setWork c (.snapshot left target (k.readDepth target depths owner) now force :: rest)
  | .migrate donor target targetDepth now force =>
    (k.migrate donor target targetDepth now force).setWork c rest
  | .reapScan =>
    match k.deadThread with
    | none => k.setWork c rest
    | some t => k.setWork c (.reapFree t 0 :: rest)
  | .reapFree t page =>
    { k with freedPages := fun u => if u = t then k.freedPages u + 1 else k.freedPages u }.setWork c
      ((if page + 1 < kKernelThreadStackPages then .reapFree t (page + 1) else .clearThread t) ::
        rest)
  | .clearThread t => (k.clearThread t).setWork c (.reapOwner :: rest)
  | .reapOwner =>
    match choice.queue with
    | none => k.setWork c (.reapScan :: rest)
    | some queue => k.beginWake c queue true none (.reapScan :: rest)

/-- The calls that a trap, a system call or a thread makes on its CPU. -/
inductive Call where
  | block (queue : Nat) (completionDone : Bool)
  | wake (queue : Nat) (all : Bool) (target : Option Nat)
  | scheduleNext (keep : Bool)
  | balance (target : Nat) (now : BitVec 64) (force : Bool)
  | exit
  | reap
  | resume
  deriving DecidableEq, Repr

/-- The idle thread only halts, so it never blocks or exits. Only the boot CPU reaps. -/
def begin (k : Kernel) (c : Nat) : Call → Kernel
  | .block queue completionDone =>
    if (k.cpu c).current = (k.cpu c).idle then k else k.blockCurrentThread c queue completionDone
  | .wake queue all target => k.beginWake c queue all target []
  | .scheduleNext keep =>
    k.setWork c ((if c = k.boot then [.reapScan] else []) ++ [.keepCurrent keep, .pickNext])
  | .balance target now force =>
    if k.cpuIsSchedulable target ∧ 2 ≤ k.schedulableCpuCount then
      k.setWork c [.snapshot k.cpus target {} now force]
    else k
  | .exit =>
    match (k.cpu c).current with
    | none => k
    | some t => if (k.cpu c).idle = some t then k else k.setState t .dying
  | .reap => if c = k.boot then k.setWork c [.reapScan] else k
  | .resume => k.setStack c ((k.cpu c).current.bind k.stackOf)

/-- A trap or system call enters on the kernel stack of the current thread. -/
def enter (k : Kernel) (c : Nat) : Kernel := k.setStack c (k.cpu c).current

inductive Action where
  | call (c : Nat) (call : Call)
  | advance (c : Nat) (choice : Choice)
  deriving DecidableEq, Repr

def step (k : Kernel) : Action → Kernel
  | .call c call =>
    if c ∈ k.cpus ∧ (k.cpu c).work = [] then (k.enter c).begin c call else k
  | .advance c choice =>
    if c ∈ k.cpus then
      match (k.cpu c).work with
      | [] => k
      | task :: rest => k.advance c choice rest task
    else k

def run (k : Kernel) (actions : List Action) : Kernel := actions.foldl step k

end Kernel
end Os1.Sched
