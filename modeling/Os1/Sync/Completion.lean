import Os1.Lib.Along
import Os1.Sched.Kernel

/-! A completion that threads wait for and interrupt handlers signal. -/
namespace Os1.Sync

open Sched

/-- A call of `completion_signal` between its two steps; `first` is what it will return. -/
structure Signal where
  cpu : Nat
  first : Bool
  deriving DecidableEq, Repr

/-- The wait queue of the completion, by its number among the kernel's wait queues. -/
def completionQueue : Nat := 0

/-- One completion and the kernel around it: `waiting` says whose wait metadata names the
completion, `enqueued` and `woken` count how often each thread was put on and taken off its
queue. -/
structure IoSystem where
  kernel : Kernel
  done : Bool := false
  waiting : Nat → Bool := fun _ => false
  signals : List Signal := []
  enqueued : Nat → Nat := fun _ => 0
  woken : Nat → Nat := fun _ => 0

namespace IoSystem

variable {s : IoSystem}

def waiters (s : IoSystem) : List Nat := s.kernel.waiters completionQueue

/-- The locked section of `block_current_thread_on_block_io`. -/
def block (s : IoSystem) (c : Nat) : IoSystem :=
  match (s.kernel.cpu c).current with
  | none => s
  | some t =>
    if (s.kernel.thread t).state = .dying ∨ (s.kernel.thread t).state = .free then s
    else if s.done then s
    else
      { s with
        kernel := s.kernel.blockCurrentThread c completionQueue s.done
        waiting := fun u => if u = t then true else s.waiting u
        enqueued := fun u =>
          if u = t ∧ t ∉ s.waiters then s.enqueued u + 1 else s.enqueued u }

/-- The first step of `completion_signal`: exchange the flag. -/
def setDone (s : IoSystem) (c : Nat) : IoSystem :=
  { s with done := true, signals := s.signals ++ [{ cpu := c, first := !s.done }] }

/-- `wake_blocked_thread` without a target, run to its end; `leastLoaded` is what
`select_least_loaded_cpu` finds. -/
def wakeBlockedThread (k : Kernel) (c t leastLoaded : Nat) : Kernel :=
  if (k.cpu c).current = some t then k.setState t .running
  else if (k.thread t).state = .dying ∨ (k.thread t).state = .free then k
  else (k.setState t .ready).enqueueThreadOnCpu t (k.selectTargetCpu c t none leastLoaded)

/-- One turn of the loop of `wait_queue_wake_all`. -/
def wakeOne (c : Nat) (leastLoaded : Nat → Nat) (s : IoSystem) (t : Nat) : IoSystem :=
  { s with
    kernel := wakeBlockedThread s.kernel c t (leastLoaded t)
    waiting := fun u => if u = t then false else s.waiting u
    woken := fun u => if u = t then s.woken u + 1 else s.woken u }

/-- `wait_queue_wake_all` -/
def wakeAll (s : IoSystem) (c : Nat) (leastLoaded : Nat → Nat) : IoSystem :=
  s.waiters.foldl (wakeOne c leastLoaded)
    { s with kernel := s.kernel.setWaiters completionQueue [] }

/-- The second step of a signal that CPU `c` has begun. -/
def finishSignal (s : IoSystem) (c : Nat) (leastLoaded : Nat → Nat) : IoSystem :=
  if s.signals.any (·.cpu = c) then
    { s.wakeAll c leastLoaded with signals := s.signals.eraseP (·.cpu = c) }
  else s

/-- `schedule_next(true)` makes a running current thread ready before it chooses. -/
def keepCurrent (k : Kernel) (c : Nat) : Kernel :=
  match (k.cpu c).current with
  | none => k
  | some t =>
    if (k.cpu c).idle ≠ some t ∧ (k.thread t).state = .running then
      (k.setState t .ready).enqueueThreadOnCpu t c
    else k

/-- `schedule_next(true)` on CPU `c`, and the switch to the thread it returns. -/
def dispatch (s : IoSystem) (c : Nat) : IoSystem :=
  let (dequeued, kernel) := (keepCurrent s.kernel c).dequeueReadyThread c
  match dequeued.or (kernel.cpu c).idle with
  | none => { s with kernel := kernel }
  | some t =>
    { s with
      kernel := (kernel.setState t .running).setCpu c fun cpu => { cpu with current := some t } }

inductive Action where
  | block (c : Nat)
  | setDone (c : Nat)
  | finishSignal (c : Nat) (leastLoaded : Nat → Nat)
  | reset
  | dispatch (c : Nat)

def step (s : IoSystem) : Action → IoSystem
  | .block c => s.block c
  | .setDone c => s.setDone c
  | .finishSignal c leastLoaded => s.finishSignal c leastLoaded
  | .reset => { s with done := false }
  | .dispatch c => s.dispatch c

def run (s : IoSystem) (actions : List Action) : IoSystem := actions.foldl step s

/-! ## What a step does to the queue -/

@[simp] theorem waiters_setState (k : Kernel) (t : Nat) (state : ThreadState) :
    (k.setState t state).waiters = k.waiters := rfl

theorem waiters_enqueueThreadOnCpu (k : Kernel) (t target : Nat) :
    (k.enqueueThreadOnCpu t target).waiters = k.waiters := by
  unfold Kernel.enqueueThreadOnCpu
  dsimp only
  split
  · rfl
  · split <;> rfl

theorem waiters_wakeBlockedThread (k : Kernel) (c t leastLoaded : Nat) :
    (wakeBlockedThread k c t leastLoaded).waiters = k.waiters := by
  unfold wakeBlockedThread
  split
  · rfl
  · split
    · rfl
    · rw [waiters_enqueueThreadOnCpu]
      rfl

/-- Waking a list of threads clears their metadata and counts each of them. -/
theorem foldl_wakeOne (c : Nat) (leastLoaded : Nat → Nat) (l : List Nat) (s : IoSystem) :
    let s' := l.foldl (wakeOne c leastLoaded) s
    s'.waiters = s.waiters ∧ s'.done = s.done ∧ s'.signals = s.signals ∧
      s'.enqueued = s.enqueued ∧ (∀ u, s'.waiting u = (s.waiting u && u ∉ l)) ∧
      ∀ u, s'.woken u = s.woken u + l.count u := by
  induction l generalizing s with
  | nil => simp
  | cons t l ih =>
    obtain ⟨hwaiters, hdone, hsignals, henqueued, hwaiting, hwoken⟩ :=
      ih (wakeOne c leastLoaded s t)
    refine ⟨?_, hdone, hsignals, henqueued, fun u => ?_, fun u => ?_⟩
    · rw [List.foldl_cons, hwaiters]
      simp only [waiters, wakeOne, waiters_wakeBlockedThread]
    · rw [List.foldl_cons, hwaiting]
      by_cases hu : u = t <;> simp [wakeOne, hu]
    · rw [List.foldl_cons, hwoken, List.count_cons]
      by_cases hu : u = t
      · subst hu
        simp [wakeOne]
        omega
      · simp [wakeOne, hu, Ne.symm hu]

theorem waiters_keepCurrent (k : Kernel) (c : Nat) : (keepCurrent k c).waiters = k.waiters := by
  unfold keepCurrent
  split
  · rfl
  · split
    · rw [waiters_enqueueThreadOnCpu]
      rfl
    · rfl

theorem waiters_dequeueReadyThread (k : Kernel) (c : Nat) :
    (k.dequeueReadyThread c).2.waiters = k.waiters := by
  unfold Kernel.dequeueReadyThread
  split <;> rfl

/-- A switch leaves the completion and its queue alone. -/
theorem dispatch_spec (s : IoSystem) (c : Nat) :
    ∃ kernel : Kernel, s.dispatch c = { s with kernel := kernel } ∧
      kernel.waiters = s.kernel.waiters := by
  have hkernel : ((keepCurrent s.kernel c).dequeueReadyThread c).2.waiters = s.kernel.waiters := by
    rw [waiters_dequeueReadyThread, waiters_keepCurrent]
  unfold dispatch
  dsimp only
  split
  · exact ⟨_, rfl, hkernel⟩
  · exact ⟨_, rfl, hkernel⟩

/-- A thread that blocks is put on the queue once, and only while the flag is clear. -/
theorem block_cases (s : IoSystem) (c : Nat) :
    s.block c = s ∨ s.done = false ∧ ∃ t,
      (s.block c).waiters = Kernel.waitQueueEnqueue s.waiters t ∧ (s.block c).done = s.done ∧
      (s.block c).signals = s.signals ∧ (s.block c).woken = s.woken ∧
      (∀ u, (s.block c).waiting u = if u = t then true else s.waiting u) ∧
      ∀ u, (s.block c).enqueued u =
        if u = t ∧ t ∉ s.waiters then s.enqueued u + 1 else s.enqueued u := by
  unfold block
  split
  · exact Or.inl rfl
  case h_2 t hcurrent =>
    split
    · exact Or.inl rfl
    · split
      · exact Or.inl rfl
      · rename_i hstate hdone
        rw [Bool.not_eq_true] at hdone
        refine Or.inr ⟨hdone, t, ?_, rfl, rfl, rfl, fun u => rfl, fun u => rfl⟩
        simp [waiters, Kernel.blockCurrentThread, hcurrent, hstate, hdone, Kernel.setWaiters]

/-! ## Runs -/

/-- A waiting thread is on the queue, a set flag with a waiting thread has a signal on its way to
the queue, and every thread was woken as often as it was put on the queue. -/
structure Tended (s : IoSystem) : Prop where
  nodup : s.waiters.Nodup
  waiting : ∀ t, s.waiting t = true ↔ t ∈ s.waiters
  tended : s.done = true → s.waiters = [] ∨ s.signals ≠ []
  counted : ∀ t, s.enqueued t = s.woken t + s.waiters.count t

theorem Tended.block (h : Tended s) (c : Nat) : Tended (s.block c) := by
  rcases s.block_cases c with heq | ⟨hdone, t, hwaiters, hdone', -, hwoken, hwaiting, henqueued⟩
  · rw [heq]
    exact h
  · by_cases ht : t ∈ s.waiters
    · rw [Kernel.waitQueueEnqueue, if_pos ht] at hwaiters
      refine ⟨by rw [hwaiters]; exact h.nodup, fun u => ?_, fun hd => ?_, fun u => ?_⟩
      · rw [hwaiting, hwaiters]
        split
        · simp_all
        · exact h.waiting u
      · rw [hdone', hdone] at hd
        exact absurd hd (by simp)
      · rw [henqueued, if_neg (by simp [ht]), hwoken, hwaiters, h.counted]
    · rw [Kernel.waitQueueEnqueue, if_neg ht] at hwaiters
      refine ⟨?_, fun u => ?_, fun hd => ?_, fun u => ?_⟩
      · rw [hwaiters, List.nodup_append]
        exact ⟨h.nodup, by simp, by simp; exact fun a ha hat => ht (hat ▸ ha)⟩
      · rw [hwaiting, hwaiters, List.mem_append, List.mem_singleton, ← h.waiting u]
        split
        · simp_all
        · simp_all
      · rw [hdone', hdone] at hd
        exact absurd hd (by simp)
      · rw [henqueued, hwoken, hwaiters, List.count_append, h.counted, List.count_singleton]
        by_cases hu : u = t
        · subst hu
          rw [if_pos ⟨rfl, ht⟩, if_pos (beq_self_eq_true u)]
          omega
        · simp [hu, Ne.symm hu]

theorem Tended.finishSignal (h : Tended s) (c : Nat) (leastLoaded : Nat → Nat) :
    Tended (s.finishSignal c leastLoaded) := by
  unfold IoSystem.finishSignal
  split
  · obtain ⟨hwaiters, -, -, henqueued, hwaiting, hwoken⟩ :=
      foldl_wakeOne c leastLoaded s.waiters
        { s with kernel := s.kernel.setWaiters completionQueue [] }
    have hempty : (s.wakeAll c leastLoaded).waiters = [] := by
      rw [wakeAll, hwaiters]
      simp [waiters, Kernel.setWaiters]
    refine ⟨?_, fun t => ?_, fun _ => Or.inl hempty, fun t => ?_⟩
    · exact hempty ▸ List.nodup_nil
    · change (s.wakeAll c leastLoaded).waiting t = true ↔ t ∈ (s.wakeAll c leastLoaded).waiters
      rw [hempty, wakeAll, hwaiting, Bool.and_eq_true, h.waiting t]
      simp
    · change (s.wakeAll c leastLoaded).enqueued t =
        (s.wakeAll c leastLoaded).woken t + (s.wakeAll c leastLoaded).waiters.count t
      rw [hempty, wakeAll, henqueued, hwoken, List.count_nil]
      exact h.counted t
  · exact h

theorem Tended.step (h : Tended s) (a : Action) : Tended (s.step a) := by
  cases a with
  | block c => exact h.block c
  | setDone c =>
    exact ⟨h.nodup, h.waiting, fun _ => Or.inr (by simp [IoSystem.step, setDone]), h.counted⟩
  | finishSignal c leastLoaded => exact h.finishSignal c leastLoaded
  | reset => exact ⟨h.nodup, h.waiting, fun hd => absurd hd (by simp [IoSystem.step]), h.counted⟩
  | dispatch c =>
    obtain ⟨kernel, heq, hwaiters⟩ := s.dispatch_spec c
    have hsame : ({ s with kernel := kernel } : IoSystem).waiters = s.waiters := by
      rw [waiters, hwaiters, waiters]
    change Tended (s.dispatch c)
    rw [heq]
    exact ⟨hsame ▸ h.nodup, fun t => by rw [hsame]; exact h.waiting t,
      fun hd => by rw [hsame]; exact h.tended hd, fun t => by rw [hsame]; exact h.counted t⟩

theorem Tended.run (h : Tended s) (actions : List Action) : Tended (s.run actions) := by
  induction actions generalizing s with
  | nil => exact h
  | cons a actions ih => exact ih (h.step a)

/-- Nobody waits for the completion and nobody is signalling it. -/
structure Unused (s : IoSystem) : Prop where
  waiters : s.waiters = []
  waiting : ∀ t, s.waiting t = false
  signals : s.signals = []
  enqueued : ∀ t, s.enqueued t = 0
  woken : ∀ t, s.woken t = 0

theorem Unused.tended (h : Unused s) : Tended s :=
  ⟨h.waiters ▸ List.nodup_nil, fun t => by simp [h.waiting, h.waiters], fun _ => Or.inl h.waiters,
    fun t => by simp [h.enqueued, h.woken, h.waiters]⟩

end IoSystem
end Os1.Sync
