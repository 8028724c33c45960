import Mathlib.Data.Prod.Lex
import Os1.Lib.LockOrder

/-! The locks that the process and scheduler code takes, in scopes as the code has them. -/
namespace Os1.Locks

open LockOrder LockOrder.Skeleton

/-- A run queue is named by its CPU, a wait queue and an object cache by a number. -/
inductive Lock (C : Type) where
  | processTable
  | threadRegistry
  | waitQueue (queue : Nat)
  | runQueue (owner : C)
  | eventRing
  | pageFrames
  | kmemCache (cache : Nat)
  deriving DecidableEq, Repr

/-- The code takes locks in this order, run queues by the ids of their CPUs. -/
@[simp] def Lock.rank {C : Type} (id : C → Nat) : Lock C → Nat ×ₗ Nat
  | processTable => toLex (0, 0)
  | threadRegistry => toLex (1, 0)
  | waitQueue _ => toLex (2, 0)
  | runQueue owner => toLex (3, id owner)
  | eventRing => toLex (4, 0)
  | pageFrames => toLex (4, 0)
  | kmemCache _ => toLex (4, 0)

section Calls

variable {C : Type}

/-- Code that is run or not. -/
def maybe (a : Skeleton (Lock C)) : Skeleton (Lock C) := choice skip a

/-- A scope that only reads or writes plain data. -/
def guarded (lock : Lock C) : Skeleton (Lock C) := locked lock skip

/-! ## Leaves -/

/-- `kernel_event::record` and `record_subject` -/
def record : Skeleton (Lock C) := guarded .eventRing

/-- `PageFrameContainer::free` -/
def freeFrame : Skeleton (Lock C) := guarded .pageFrames

/-- An object is freed, and maybe its slab page. -/
def kmemCacheFree : Skeleton (Lock C) :=
  pick fun cache : Nat => seq (guarded (.kmemCache cache)) (maybe freeFrame)

/-- A failed copy is recorded. -/
def copyToUser : Skeleton (Lock C) := maybe record

/-- `VirtualMemory::destroy_user_slot` frees tables and pages. -/
def destroyUserSlot : Skeleton (Lock C) := loop freeFrame

def setProcessState : Skeleton (Lock C) := maybe (guarded .processTable)

def processHasThreads : Skeleton (Lock C) := guarded .threadRegistry

/-- `cpu_run_queue_length_locked` and `snapshot_run_queue_length`, `dequeue_thread_if_queued`,
`enqueue_thread_on_cpu`: a scope of the run queue of some CPU. -/
def anyRunQueue : Skeleton (Lock C) := pick fun owner : C => guarded (.runQueue owner)

/-! ## Threads -/

def selectLeastLoadedCpu : Skeleton (Lock C) := loop anyRunQueue

def selectUserTargetCpu : Skeleton (Lock C) :=
  seq (guarded .threadRegistry) (seq selectLeastLoadedCpu (guarded .threadRegistry))

def selectTargetCpu : Skeleton (Lock C) := maybe selectUserTargetCpu

def enqueueThreadOnCpu : Skeleton (Lock C) := maybe anyRunQueue

def ipiSendReschedule : Skeleton (Lock C) := maybe (seq record (maybe record))

def markThreadReady : Skeleton (Lock C) :=
  maybe (seq selectTargetCpu (seq setProcessState (seq enqueueThreadOnCpu
    (maybe ipiSendReschedule))))

/-- The current thread only changes its state. -/
def wakeBlockedThread : Skeleton (Lock C) := choice setProcessState markThreadReady

def blockCurrentThread (queue : Option Nat) : Skeleton (Lock C) :=
  maybe (locked .processTable (match queue with
    | none => skip
    | some queue => guarded (.waitQueue queue)))

/-- The queue is emptied in one scope, then its threads are woken. -/
def completionSignal (queue : Nat) : Skeleton (Lock C) :=
  seq (guarded (.waitQueue queue)) (loop wakeBlockedThread)

def clearThread : Skeleton (Lock C) :=
  seq (maybe anyRunQueue) (seq (guarded .threadRegistry) (maybe kmemCacheFree))

/-! ## Processes -/

/-- The search for threads is inside the scope of the process table; the address space and the
record are freed after it. -/
def reapProcess : Skeleton (Lock C) :=
  seq (locked .processTable (guarded .threadRegistry))
    (maybe (seq (maybe (seq destroyUserSlot freeFrame)) (maybe kmemCacheFree)))

/-- The end of a wait that found a zombie. -/
def completeWait : Skeleton (Lock C) := seq copyToUser (maybe reapProcess)

def tryCompleteWaitPid : Skeleton (Lock C) :=
  maybe (seq (locked .processTable (guarded .threadRegistry))
    (maybe (choice completeWait (guarded .processTable))))

/-- The caller is put in its queue inside the scope of the process table. -/
def tryCompleteOrBlockWaitPid (queue : Nat) : Skeleton (Lock C) :=
  maybe (seq (locked .processTable
    (seq (guarded .threadRegistry) (maybe (guarded (.waitQueue queue))))) (maybe completeWait))

def wakeChildWaiters (queue : Nat) : Skeleton (Lock C) :=
  maybe (seq (guarded (.waitQueue queue))
    (seq (loop (seq tryCompleteWaitPid (maybe wakeBlockedThread)))
      (maybe (guarded (.waitQueue queue)))))

/-- Each turn finds a dead thread and clears it; the last one finds none. -/
def reapDeadThreads : Skeleton (Lock C) :=
  seq (loop (seq (guarded .threadRegistry) (seq (loop freeFrame) (seq clearThread
    (maybe (seq processHasThreads
      (maybe (choice (pick fun queue : Nat => wakeChildWaiters queue) reapProcess))))))))
    (guarded .threadRegistry)

/-- Records are copied out inside both scopes. -/
def sysObserveProcesses : Skeleton (Lock C) :=
  seq (locked .processTable (guarded .threadRegistry))
    (seq copyToUser (maybe (locked .processTable (locked .threadRegistry (loop copyToUser)))))

/-! ## The scheduler -/

/-- The boot CPU reaps first. -/
def scheduleNext (localCpu : C) : Skeleton (Lock C) :=
  seq (maybe reapDeadThreads) (seq (maybe markThreadReady)
    (seq (guarded (.runQueue localCpu)) (maybe record)))

/-- The run queues of the receiver and of the donor are taken by the ids of their CPUs. -/
def lockRunQueuePair [DecidableEq C] (id : C → Nat) (target donor : C)
    (body : Skeleton (Lock C)) : Skeleton (Lock C) :=
  let first := if id target ≤ id donor then target else donor
  let second := if first = target then donor else target
  locked (.runQueue first)
    (if second ≠ first then locked (.runQueue second) body else body)

/-- All run queues are measured one after the other; a donor is another CPU than the receiver. -/
def schedulerBalanceCpu [DecidableEq C] (id : C → Nat) (target : C) : Skeleton (Lock C) :=
  maybe (seq (loop anyRunQueue) (seq (maybe record)
    (maybe (pick fun donor : C =>
      if donor = target then skip else lockRunQueuePair id target donor (maybe record)))))

/-- What a CPU may run. -/
inductive Calls [DecidableEq C] (id : C → Nat) (cpu : C) : Skeleton (Lock C) → Prop where
  | blockCurrentThread (queue : Option Nat) : Calls id cpu (blockCurrentThread queue)
  | tryCompleteOrBlockWaitPid (queue : Nat) : Calls id cpu (tryCompleteOrBlockWaitPid queue)
  | wakeChildWaiters (queue : Nat) : Calls id cpu (wakeChildWaiters queue)
  | reapProcess : Calls id cpu reapProcess
  | reapDeadThreads : Calls id cpu reapDeadThreads
  | markThreadReady : Calls id cpu markThreadReady
  | scheduleNext : Calls id cpu (scheduleNext cpu)
  | schedulerBalanceCpu (target : C) : Calls id cpu (schedulerBalanceCpu id target)
  | completionSignal (queue : Nat) : Calls id cpu (completionSignal queue)
  | sysObserveProcesses : Calls id cpu sysObserveProcesses

/-! ## Order -/

variable {id : C → Nat} {held : List (Lock C)} {a : Skeleton (Lock C)} {l : Lock C}

@[simp] theorem ordered_maybe :
    Ordered (Lock.rank id) held (maybe a) ↔ Ordered (Lock.rank id) held a := by
  simp [maybe]

@[simp] theorem ordered_guarded : Ordered (Lock.rank id) held (guarded l) ↔
    ∀ m ∈ held, Lock.rank id m < Lock.rank id l := by
  simp [guarded]

theorem ordered_reapProcess : Ordered (Lock.rank id) [] (reapProcess : Skeleton (Lock C)) := by
  simp [reapProcess, destroyUserSlot, freeFrame, kmemCacheFree,
    Prod.Lex.toLex_lt_toLex]

theorem ordered_completeWait : Ordered (Lock.rank id) [] (completeWait : Skeleton (Lock C)) := by
  simp [completeWait, copyToUser, record, ordered_reapProcess]

theorem ordered_tryCompleteOrBlockWaitPid (queue : Nat) :
    Ordered (Lock.rank id) [] (tryCompleteOrBlockWaitPid queue : Skeleton (Lock C)) := by
  simp [tryCompleteOrBlockWaitPid, ordered_completeWait,
    Prod.Lex.toLex_lt_toLex]

theorem ordered_blockCurrentThread (queue : Option Nat) :
    Ordered (Lock.rank id) [] (blockCurrentThread queue : Skeleton (Lock C)) := by
  cases queue <;> simp [blockCurrentThread, Prod.Lex.toLex_lt_toLex]

theorem ordered_markThreadReady :
    Ordered (Lock.rank id) [] (markThreadReady : Skeleton (Lock C)) := by
  simp [markThreadReady, selectTargetCpu, selectUserTargetCpu, selectLeastLoadedCpu,
    anyRunQueue, setProcessState, enqueueThreadOnCpu, ipiSendReschedule, record]

theorem ordered_wakeBlockedThread :
    Ordered (Lock.rank id) [] (wakeBlockedThread : Skeleton (Lock C)) := by
  simp [wakeBlockedThread, setProcessState, ordered_markThreadReady]

theorem ordered_wakeChildWaiters (queue : Nat) :
    Ordered (Lock.rank id) [] (wakeChildWaiters queue : Skeleton (Lock C)) := by
  simp [wakeChildWaiters, tryCompleteWaitPid, ordered_completeWait,
    ordered_wakeBlockedThread, Prod.Lex.toLex_lt_toLex]

theorem ordered_reapDeadThreads :
    Ordered (Lock.rank id) [] (reapDeadThreads : Skeleton (Lock C)) := by
  simp [reapDeadThreads, freeFrame, clearThread, anyRunQueue, kmemCacheFree,
    processHasThreads, ordered_wakeChildWaiters, ordered_reapProcess]

theorem ordered_scheduleNext (cpu : C) : Ordered (Lock.rank id) [] (scheduleNext cpu) := by
  simp [scheduleNext, ordered_reapDeadThreads, ordered_markThreadReady, record]

theorem ordered_sysObserveProcesses :
    Ordered (Lock.rank id) [] (sysObserveProcesses : Skeleton (Lock C)) := by
  simp [sysObserveProcesses, copyToUser, record, Prod.Lex.toLex_lt_toLex]

variable [DecidableEq C]

/-- CPUs with different ids have their run queues in a definite order. -/
theorem ordered_lockRunQueuePair (hid : Function.Injective id) {target donor : C}
    (hne : donor ≠ target) :
    Ordered (Lock.rank id) [] (lockRunQueuePair id target donor (maybe record)) := by
  have hids : id donor ≠ id target := fun heq => hne (hid heq)
  unfold lockRunQueuePair
  by_cases hle : id target ≤ id donor
  · have hlt : id target < id donor := lt_of_le_of_ne hle hids.symm
    simp [hle, hne, record, Prod.Lex.toLex_lt_toLex, hlt]
  · have hlt : id donor < id target := not_le.mp hle
    simp [hle, hne, hne.symm, record, Prod.Lex.toLex_lt_toLex, hlt]

theorem ordered_schedulerBalanceCpu (hid : Function.Injective id) (target : C) :
    Ordered (Lock.rank id) [] (schedulerBalanceCpu id target) := by
  simp only [schedulerBalanceCpu, ordered_maybe, Ordered, anyRunQueue, record, ordered_guarded]
  refine ⟨by simp, by simp, fun donor => ?_⟩
  split
  · trivial
  · rename_i hne
    exact ordered_lockRunQueuePair hid hne

/-- Every call starts without locks and takes them in order. -/
theorem ordered_calls (hid : Function.Injective id) (cpu : C) (a : Skeleton (Lock C))
    (h : Calls id cpu a) : Ordered (Lock.rank id) [] a := by
  cases h with
  | blockCurrentThread queue => exact ordered_blockCurrentThread queue
  | tryCompleteOrBlockWaitPid queue => exact ordered_tryCompleteOrBlockWaitPid queue
  | wakeChildWaiters queue => exact ordered_wakeChildWaiters queue
  | reapProcess => exact ordered_reapProcess
  | reapDeadThreads => exact ordered_reapDeadThreads
  | markThreadReady => exact ordered_markThreadReady
  | scheduleNext => exact ordered_scheduleNext cpu
  | schedulerBalanceCpu target => exact ordered_schedulerBalanceCpu hid target
  | completionSignal queue =>
    simp [completionSignal, ordered_wakeBlockedThread]
  | sysObserveProcesses => exact ordered_sysObserveProcesses

/-- CPUs with different ids that run any sequence of the calls, with interrupts taken only while no
lock is held, never wait for each other in a circle, and none wants a lock that it holds. -/
theorem locks_never_deadlock [Finite C] (hid : Function.Injective id)
    {s : LockOrder.Machine C (Lock C)} (h : Reachable (Calls id) s) :
    (∀ S : Set C, S.Nonempty → ¬ Circle s S) ∧ ∀ cpu l, Wants s cpu l → l ∉ s.held cpu := by
  have hsound := sound_reachable (ordered_calls hid) h
  exact ⟨fun S hne => not_circle hsound S.toFinite hne, fun cpu l hw => (hsound cpu).not_held hw⟩

end Calls

/-- CPU 0 is about to put its thread in wait queue 7 and holds the process table; CPU 1, in
`waitpid`, wants it. -/
def contended : LockOrder.Machine (Fin 2) (Lock (Fin 2)) :=
  (start.put 0 [.processTable] [.code (guarded (.waitQueue 7)), .unlock .processTable]).put 1 []
    [.code (locked .processTable (seq (guarded .threadRegistry) (maybe (guarded (.waitQueue 3))))),
      .code (maybe completeWait)]

theorem contended_reachable : Reachable (Calls fun cpu => cpu.val) contended := by
  have hblock : Reachable (Calls fun cpu : Fin 2 => cpu.val)
      (start.put 0 [] [.code (blockCurrentThread (some 7))]) :=
    Reachable.call .refl rfl (.blockCurrentThread (some 7))
  have htable := (hblock.silent .right).acquire (by simp [LockOrder.Machine.put, start])
  have hwait := htable.call (c := 1) rfl (.tryCompleteOrBlockWaitPid 3)
  exact (hwait.silent .right).silent .seq

theorem locks_never_deadlock_contended : Lock.processTable ∈ contended.held 0 ∧
    Wants contended 1 .processTable ∧ ¬ Circle contended Set.univ :=
  ⟨by simp [contended, LockOrder.Machine.put], ⟨_, _, rfl⟩,
    (locks_never_deadlock (fun _ _ => Fin.ext) contended_reachable).1 Set.univ ⟨0, trivial⟩⟩

end Os1.Locks
