import Mathlib.Order.Nat
import Os1.Sched.QueueOrder

/-! Round robin: a ready thread waits for those before it in its queue and for no others. -/
namespace Os1.Sched.RunQueues

/-! ## The calls -/

/-- `block_current_thread` on CPU `c`; it is refused when the completion to wait for is done. -/
def blockCurrentThread (s : RunQueues) (c : Nat) (completionDone : Bool) : RunQueues :=
  match (s.cpu c).current with
  | none => s
  | some t =>
    if (s.thread t).state = .dying ∨ (s.thread t).state = .free ∨ completionDone then s
    else s.setState t .blocked

/-- `wake_blocked_thread` on CPU `c`. -/
def wakeBlockedThread (s : RunQueues) (c t : Nat) (target : Option Nat) : RunQueues :=
  if (s.cpu c).current = some t then s.setState t .running else s.markThreadReady c t target

/-- `mark_current_thread_dying` on CPU `c`. -/
def markCurrentThreadDying (s : RunQueues) (c : Nat) : RunQueues :=
  match (s.cpu c).current with
  | none => s
  | some t => s.setState t .dying

inductive ThreadAction where
  | call (action : QueueAction)
  | blockCurrentThread (c : Nat) (completionDone : Bool)
  | wakeBlockedThread (c t : Nat) (target : Option Nat)
  | markCurrentThreadDying (c : Nat)
  | reapDeadThreads
  deriving DecidableEq, Repr

/-- The waiters that the reaper of `schedule_next` wakes are woken before the call. -/
def act (s : RunQueues) : ThreadAction → RunQueues
  | .call action => s.step action
  | .blockCurrentThread c completionDone => s.blockCurrentThread c completionDone
  | .wakeBlockedThread c t target => s.wakeBlockedThread c t target
  | .markCurrentThreadDying c => s.markCurrentThreadDying c
  | .reapDeadThreads => reapDeadThreads s.registry.length s

/-- Threads that are woken or that exit are in use, and no idle thread is put on another CPU. -/
def Allowed (s : RunQueues) : ThreadAction → Prop
  | .call action => s.Permitted action
  | .wakeBlockedThread c t target => t ∈ s.registry ∧ s.Permitted (.markThreadReady c t target)
  | .markCurrentThreadDying c => ∀ t ∈ (s.cpu c).current, t ∈ s.registry
  | _ => True

/-- The states that allowed calls reach from the one that `init_tasks` leaves. -/
def Reached (s : RunQueues) : Prop :=
  ∃ start actions, Initial start ∧ Along act Allowed start actions ∧ s = actions.foldl act start

/-- The action is about other threads than `t`, and migrates none. -/
def Spares (s : RunQueues) (t : Nat) : ThreadAction → Prop
  | .call (.markThreadReady _ u _) => u ≠ t
  | .call (.setCurrentThread _ thread) => thread ≠ some t
  | .call (.clearThread u) => u ≠ t
  | .call (.balance _ _ _) => False
  | .blockCurrentThread c _ => (s.cpu c).current ≠ some t
  | .wakeBlockedThread _ u _ => u ≠ t
  | .markCurrentThreadDying c => (s.cpu c).current ≠ some t
  | _ => True

/-- What a call of `schedule_next` on CPU `c` returns, if the action is one. -/
def returnedBy (s : RunQueues) (c : Nat) : ThreadAction → Option (Option Nat)
  | .call (.scheduleNext d keepCurrent) =>
    if d = c then some (s.scheduleNext c keepCurrent).1 else none
  | _ => none

/-- What the calls of `schedule_next` on CPU `c` return in a run. -/
def returned (c : Nat) : RunQueues → List ThreadAction → List (Option Nat)
  | _, [] => []
  | s, action :: rest => (s.returnedBy c action).toList ++ returned c (s.act action) rest

/-- Until it is returned, the actions are allowed ones about other threads than `t`. -/
def Undisturbed (c t : Nat) : RunQueues → List ThreadAction → Prop
  | _, [] => True
  | s, action :: rest => s.Allowed action ∧ s.Spares t action ∧
    (s.returnedBy c action ≠ some (some t) → Undisturbed c t (s.act action) rest)

variable {s s' s'' : RunQueues} {queue : Nat → List Nat} {c d t u owner n : Nat} {l : List Nat}

/-! ## Well-formed queues -/

/-- The threads that an action is about. -/
def About (s : RunQueues) : ThreadAction → Nat → Prop
  | .call action => s.Concerns action
  | .wakeBlockedThread _ t _ => (· = t)
  | .blockCurrentThread c _ => fun u => (s.cpu c).current = some u
  | .markCurrentThreadDying c => fun u => (s.cpu c).current = some u
  | .reapDeadThreads => fun u => (s.thread u).state = .dying

namespace Ordered

theorem act_effect {action : ThreadAction} (h : Ordered s) (hallowed : s.Allowed action)
    (hbalance : ∀ target now force, action ≠ .call (.balance target now force)) :
    Effect (s.About action) s (s.act action) := by
  cases action with
  | call action =>
    exact h.effect hallowed fun target now force heq =>
      hbalance target now force (congrArg ThreadAction.call heq)
  | blockCurrentThread c completionDone =>
    refine .of_touches ?_
    simp only [RunQueues.act, RunQueues.blockCurrentThread]
    split
    next => exact .refl h
    next t ht =>
      split
      next => exact .refl h
      next hstate =>
        refine .setState h ht ?_ .blocked
        by_contra hout
        exact hstate (Or.inr (Or.inl (h.kept.released hout)))
  | wakeBlockedThread c t target =>
    refine .of_touches ?_
    simp only [RunQueues.act, wakeBlockedThread, About]
    split
    next => exact .setState h (by rfl) hallowed.1 .running
    next => exact .markThreadReady h rfl hallowed.2
  | markCurrentThreadDying c =>
    refine .of_touches ?_
    simp only [RunQueues.act, markCurrentThreadDying]
    split
    next => exact .refl h
    next t ht => exact .setState h ht (hallowed t ht) .dying
  | reapDeadThreads => exact .of_touches (.reapDeadThreads h)

theorem act {action : ThreadAction} (h : Ordered s) (hallowed : s.Allowed action) :
    Ordered (s.act action) := by
  by_cases hbalance : ∃ target now force, action = .call (.balance target now force)
  · obtain ⟨target, now, force, rfl⟩ := hbalance
    exact h.schedulerBalanceCpu
  · exact (h.act_effect hallowed fun target now force heq =>
      hbalance ⟨target, now, force, heq⟩).ordered

theorem of_reached (h : Reached s) : Ordered s := by
  obtain ⟨start, actions, hstart, hallowed, rfl⟩ := h
  have hrun := Along.invariant Ordered (fun _ _ hs ha => hs.act ha) (.initial hstart) hallowed
    actions.length
  rwa [List.take_length] at hrun

end Ordered

/-! ## Waiting -/

/-- The ready thread `t` is on the queue of CPU `c`, with at most `n` threads before it. -/
structure Waits (c t n : Nat) (s : RunQueues) : Prop where
  ready : (s.thread t).state = .ready
  place : ∃ queue, Linked s queue ∧ t ∈ queue c ∧ (queue c).idxOf t ≤ n

theorem Waits.mem_registry (h : Waits c t n s) (hs : Ordered s) : t ∈ s.registry := by
  by_contra hout
  obtain ⟨queue, hlinked, hmem, -⟩ := h.place
  have howner := (hlinked.mem_iff c t).mp hmem
  rw [hs.kept.unqueued hout] at howner
  cases howner

theorem Waits.not_idle (h : Waits c t n s) (hs : Ordered s) : (s.cpu d).idle ≠ some t := by
  intro hidle
  obtain ⟨queue, hlinked, hmem, -⟩ := h.place
  have howner := (hlinked.mem_iff c t).mp hmem
  rw [hs.kept.idle_unqueued hidle] at howner
  cases howner

theorem Touches.waits {P : Nat → Prop} (h : Touches P s s') (ht : ¬ P t)
    (hwaits : Waits c t n s) : Waits c t n s' := by
  obtain ⟨queue, hlinked, hmem, hle⟩ := hwaits.place
  obtain ⟨queue', hlinked', hplace⟩ := h.place queue hlinked
  exact ⟨(h.state t ht).trans hwaits.ready, queue', hlinked', (hplace t ht c hmem).1,
    (hplace t ht c hmem).2.trans hle⟩

/-- A call about other threads lets no thread come before `t`. -/
theorem Effect.waits {P : Nat → Prop} (h : Effect P s s') (ht : ¬ P t) (hs : Ordered s)
    (hwaits : Waits c t n s) : Waits c t n s' := by
  obtain ⟨s₁, rfl | ⟨u, hu, hadds⟩, htouches⟩ := h
  · exact htouches.waits ht hwaits
  · have hne : t ≠ u := fun heq => hu (heq ▸ hwaits.mem_registry hs)
    obtain ⟨queue, hlinked, hplace⟩ := hwaits.place
    have hready : (s₁.thread t).state = .ready := by rw [hadds.others t hne, hwaits.ready]
    exact htouches.waits ht ⟨hready, queue, hadds.linked queue hlinked, hplace⟩

/-- Taking the first thread of a queue: it is `t`, or `t` moves up. -/
theorem Waits.dequeue (h : Waits c t n s) (hs : Ordered s) :
    d = c ∧ (s.dequeueReadyThread d).1 = some t ∨
      (s.dequeueReadyThread d).1.or ((s.dequeueReadyThread d).2.cpu d).idle ≠ some t ∧
        ∃ m, m + (if d = c then 1 else 0) ≤ n ∧ Waits c t m (s.dequeueReadyThread d).2 := by
  obtain ⟨queue, hlinked, hmem, hle⟩ := h.place
  cases hq : queue d with
  | nil =>
    have hne : d ≠ c := by
      rintro rfl
      rw [hq] at hmem
      cases hmem
    rw [Ordered.dequeueReadyThread_nil hlinked hq]
    exact Or.inr ⟨h.not_idle hs, n, by simp [hne], h⟩
  | cons u us =>
    rw [Ordered.dequeueReadyThread_eq hlinked hq]
    have hlinked' : Linked (s.unlinkThread d u ([] : List Nat).getLast?) fun c =>
        if c = d then us else queue c := hlinked.unlink hq
    have hstate : ((s.unlinkThread d u none).thread t).state = (s.thread t).state :=
      unlink_same.state t
    by_cases hd : d = c
    · subst hd
      by_cases hut : u = t
      · exact Or.inl ⟨rfl, congrArg some hut⟩
      · rw [hq] at hmem hle
        rw [List.idxOf_cons_ne _ hut] at hle
        refine Or.inr ⟨by simpa using hut, us.idxOf t, by simpa using hle,
          hstate.trans h.ready, _, hlinked', ?_, by simp⟩
        simpa using List.mem_of_ne_of_mem (Ne.symm hut) hmem
    · have hut : u ≠ t := by
        rintro rfl
        have howner := (hlinked.mem_iff d u).mp (by simp [hq])
        exact hd (Option.some.inj (howner.symm.trans ((hlinked.mem_iff c u).mp hmem)))
      refine Or.inr ⟨by simpa using hut, n, by simp [hd], hstate.trans h.ready, _, hlinked', ?_⟩
      simpa [Ne.symm hd] using ⟨hmem, hle⟩

theorem Waits.scheduleNext {keepCurrent : Bool} (h : Waits c t n s) (hs : Ordered s)
    (hkeep : s.Permitted (.scheduleNext d keepCurrent)) :
    d = c ∧ (s.scheduleNext d keepCurrent).1 = some t ∨
      ∃ m, m + (if d = c then 1 else 0) ≤ n ∧ Waits c t m (s.scheduleNext d keepCurrent).2 := by
  have hput := Touches.putBack hs hkeep
  have hback := hput.waits (not_not.mpr h.ready) h
  obtain ⟨hd, hfirst⟩ | ⟨hother, m, hm, hwaits⟩ := hback.dequeue (d := d) hput.ordered
  · refine Or.inl ⟨hd, ?_⟩
    rw [scheduleNext_eq, hfirst]
    rfl
  · refine Or.inr ⟨m, hm, ?_⟩
    rw [scheduleNext_eq]
    split
    next => exact hwaits
    next u hu =>
      have hut : t ≠ u := fun heq => hother (heq ▸ hu)
      obtain ⟨hdequeued, hin⟩ := Touches.dequeueReadyThread (c := d) hput.ordered
      have hset := Touches.setState (P := (· = u)) hdequeued.ordered rfl (hin u hu) .running
      exact hset.waits hut hwaits

/-- One call about other threads: `t` is returned, or it waits for no more threads than before,
and for one less after a call of `schedule_next` on its CPU. -/
theorem Waits.act {action : ThreadAction} (h : Waits c t n s) (hs : Ordered s)
    (hallowed : s.Allowed action) (hspares : s.Spares t action) :
    s.returnedBy c action = some (some t) ∨
      ∃ m, m + (s.returnedBy c action).toList.length ≤ n ∧ Waits c t m (s.act action) := by
  have hkept (habout : ¬ s.About action t)
      (hbalance : ∀ target now force, action ≠ .call (.balance target now force)) :
      ∃ m, m + 0 ≤ n ∧ Waits c t m (s.act action) :=
    ⟨n, le_rfl, (hs.act_effect hallowed hbalance).waits habout hs h⟩
  have hin : ¬ t ∉ s.registry := not_not.mpr (h.mem_registry hs)
  cases action with
  | call action =>
    cases action with
    | scheduleNext d keepCurrent =>
      obtain ⟨rfl, hreturned⟩ | ⟨m, hm, hwaits⟩ := h.scheduleNext hs hallowed
      · exact Or.inl (by simp [returnedBy, hreturned])
      · refine Or.inr ⟨m, ?_, hwaits⟩
        by_cases hd : d = c
        · simpa [returnedBy, hd] using hm
        · simpa [returnedBy, hd] using hm
    | balance target now force => exact absurd hspares id
    | markThreadReady d u target => exact Or.inr (hkept (Ne.symm hspares) (by simp))
    | setCurrentThread d thread => exact Or.inr (hkept hspares (by simp))
    | clearThread u => exact Or.inr (hkept (Ne.symm hspares) (by simp))
    | _ => exact Or.inr (hkept hin (by simp))
  | blockCurrentThread d completionDone => exact Or.inr (hkept hspares (by simp))
  | wakeBlockedThread d u target => exact Or.inr (hkept (Ne.symm hspares) (by simp))
  | markCurrentThreadDying d => exact Or.inr (hkept hspares (by simp))
  | reapDeadThreads =>
    refine Or.inr (hkept (fun hdying => ?_) (by simp))
    have hready := h.ready.symm.trans hdying
    cases hready

/-- In a run, `t` is among the first `n + 1` threads that its CPU gets. -/
theorem Waits.returned {actions : List ThreadAction} (h : Waits c t n s) (hs : Ordered s)
    (hrun : Undisturbed c t s actions) (hlong : n < (returned c s actions).length) :
    some t ∈ (returned c s actions).take (n + 1) := by
  induction actions generalizing s n with
  | nil => cases hlong
  | cons action rest ih =>
    obtain ⟨hallowed, hspares, hrest⟩ := hrun
    simp only [RunQueues.returned, List.length_append] at hlong ⊢
    obtain hnow | ⟨m, hm, hwaits⟩ := h.act hs hallowed hspares
    · simp [hnow]
    · by_cases hnow : s.returnedBy c action = some (some t)
      · simp [hnow]
      · have hlater := ih hwaits (hs.act hallowed) (hrest hnow) (by omega)
        rw [List.take_append]
        refine List.mem_append_right _ ((List.take_subset_take_left _ ?_) hlater)
        omega

/-- The idle thread of a CPU is on no queue, so it is returned when the queue is empty only. -/
theorem Ordered.queue_empty {keepCurrent : Bool} (h : Ordered s)
    (hkeep : s.Permitted (.scheduleNext c keepCurrent))
    (hidle : ((s.scheduleNext c keepCurrent).2.cpu c).idle = some t)
    (hreturned : (s.scheduleNext c keepCurrent).1 = some t) :
    ∃ queue, Linked (s.putBack c keepCurrent) queue ∧ queue c = [] := by
  obtain ⟨⟨queue, hlinked⟩, hkept⟩ := (Touches.putBack h hkeep).ordered
  refine ⟨queue, hlinked, ?_⟩
  cases hq : queue c with
  | nil => rfl
  | cons u us =>
    rw [scheduleNext_eq, dequeueReadyThread_eq hlinked hq] at hidle hreturned
    obtain rfl : u = t := Option.some.inj hreturned
    have hunlinked : (((s.putBack c keepCurrent).unlinkThread c u none).cpu c).idle = some u :=
      hidle
    have hidle' : ((s.putBack c keepCurrent).cpu c).idle = some u :=
      (unlink_same.idle c).symm.trans hunlinked
    have howner := (hlinked.mem_iff c u).mp (by simp [hq])
    rw [hkept.idle_unqueued hidle'] at howner
    cases howner

/-- No ready thread starves: with the threads `front` before it in the queue of its CPU, `t` is
returned by one of the next `front.length + 1` calls of `schedule_next` there, whatever happens to
other threads. The idle thread is returned only when the queue is empty after the current thread
has been put back. -/
theorem round_robin (h : Reached s) :
    (∀ queue c front t back actions, Linked s queue → queue c = front ++ t :: back →
      (s.thread t).state = .ready → Undisturbed c t s actions →
      front.length < (returned c s actions).length →
      some t ∈ (returned c s actions).take (front.length + 1)) ∧
    ∀ c keepCurrent t, s.Permitted (.scheduleNext c keepCurrent) →
      ((s.scheduleNext c keepCurrent).2.cpu c).idle = some t →
      (s.scheduleNext c keepCurrent).1 = some t →
      ∃ queue, Linked (s.putBack c keepCurrent) queue ∧ queue c = [] := by
  have hs : Ordered s := .of_reached h
  refine ⟨fun queue c front t back actions hlinked hq hready hrun hlong => ?_,
    fun c keepCurrent t hkeep => hs.queue_empty hkeep⟩
  have hfront : t ∉ front := fun hmem => by
    have hnodup := hlinked.nodup c
    rw [hq, List.nodup_append] at hnodup
    exact hnodup.2.2 t hmem t List.mem_cons_self rfl
  have hwaits : Waits c t front.length s := by
    refine ⟨hready, queue, hlinked, by simp [hq], ?_⟩
    rw [hq, List.idxOf_append_of_notMem hfront]
    simp
  exact hwaits.returned hs hrun hlong

def oneCpu : RunQueues where
  boot := 0
  others := []
  cpu _ := {}
  thread _ := {}
  registry := []
  lastKernelThreadCpu := 0
  lastUserThreadCpu := 0

/-- CPU 0 runs thread 2, and threads 3 and 4 wait. -/
def twoWaiting : RunQueues :=
  [.call (.createKernelThread 0 1), .call (.createUserThread 0 2 true),
    .call (.createUserThread 0 3 true), .call (.createUserThread 0 4 true),
    .call (.scheduleNext 0 false), .call (.setCurrentThread 0 (some 2))].foldl act oneCpu

/-- CPU 0 has its idle thread only. -/
def oneIdle : RunQueues := oneCpu.act (.call (.createKernelThread 0 1))

theorem oneCpu_initial : Initial oneCpu := ⟨rfl, fun _ => rfl, fun _ => ⟨rfl, rfl⟩⟩

theorem oneIdle_reached : Reached oneIdle :=
  ⟨oneCpu, [.call (.createKernelThread 0 1)], oneCpu_initial, ⟨List.mem_cons_self .., trivial⟩, rfl⟩

theorem twoWaiting_reached : Reached twoWaiting := by
  refine ⟨oneCpu, _, oneCpu_initial, ?_, rfl⟩
  refine ⟨?_, trivial, trivial, trivial, ?_, ?_, trivial⟩
  · exact List.mem_cons_self ..
  · simp [Allowed, Permitted]
  · rintro t ⟨⟩
    decide

theorem twoWaiting_queue : ∃ queue, Linked twoWaiting queue ∧ queue 0 = [3] ++ 4 :: [] := by
  obtain ⟨⟨queue, hlinked⟩, -⟩ := Ordered.of_reached twoWaiting_reached
  refine ⟨queue, hlinked, ?_⟩
  have hlength : 2 = (queue 0).length := hlinked.length 0
  obtain ⟨a, b, hq⟩ := List.length_eq_two.mp hlength.symm
  have hchain := hlinked.chain 0
  rw [hq] at hchain
  obtain ⟨hhead, hnext, -⟩ := hchain
  cases hhead
  cases hnext
  exact hq

/-- CPU 0 waits in its idle thread as long as nothing is queued, and comes to thread 4 after
thread 3, which blocks. -/
theorem round_robin_one_cpu : (∃ queue, Linked (oneIdle.putBack 0 true) queue ∧ queue 0 = []) ∧
    some 4 ∈ (returned 0 twoWaiting [.call (.createUserThread 0 5 true),
      .call (.scheduleNext 0 true), .call (.setCurrentThread 0 (some 3)),
      .blockCurrentThread 0 false, .call (.scheduleNext 0 true)]).take 2 := by
  refine ⟨(round_robin oneIdle_reached).2 0 true 1 ?_ rfl rfl, ?_⟩
  · rintro t d _ ⟨⟩
  obtain ⟨queue, hlinked, hq⟩ := twoWaiting_queue
  refine (round_robin twoWaiting_reached).1 queue 0 [3] 4 [] _ hlinked hq (by decide)
    ⟨trivial, trivial, fun _ => ⟨?_, trivial, fun _ => ⟨?_, ?_, fun _ => ⟨trivial, ?_, fun _ =>
      ⟨?_, trivial, fun _ => trivial⟩⟩⟩⟩⟩ (by decide)
  · intro t d _ ht _ hd
    cases d with
    | zero => rfl
    | succ d => cases hd
  · rintro t ⟨⟩
    decide
  · exact (by decide : some 3 ≠ some 4)
  · exact (by decide : some 3 ≠ some 4)
  · intro t d _ ht _ hd
    cases d with
    | zero => rfl
    | succ d => cases hd

end Os1.Sched.RunQueues
