import Mathlib.Data.Fintype.Card
import Os1.Sched.RoundRobin

/-! Wait queues without a tail pointer, whose lists share one link field of each thread. -/
namespace Os1.Sync

open Sched

inductive ThreadWaitReason where
  | none
  | consoleRead
  | childExit
  | blockIo
  deriving DecidableEq, Repr

/-- Wait queues by number over `n` thread records, with the fields that waiting and waking use. -/
structure WaitQueues (n : Nat) where
  head : Nat → Option (Fin n)
  waitLink : Fin n → Option (Fin n)
  waitReason : Fin n → ThreadWaitReason
  sched : RunQueues

namespace WaitQueues

variable {n : Nat}

def setHead (s : WaitQueues n) (q : Nat) (thread : Option (Fin n)) : WaitQueues n :=
  { s with head := Function.update s.head q thread }

def setWaitLink (s : WaitQueues n) (t : Fin n) (next : Option (Fin n)) : WaitQueues n :=
  { s with waitLink := Function.update s.waitLink t next }

/-- `wait_queue_enqueue_locked`. `none` says that its loop has not ended after `n` turns. -/
def waitQueueEnqueue (s : WaitQueues n) (q : Nat) : Option (Fin n) → Option (WaitQueues n)
  | none => some s
  | some t =>
    match s.head q with
    | none => some ((s.setWaitLink t none).setHead q (some t))
    | some first =>
      -- The walk meets `t`, or it ends at the tail.
      (walk s.waitLink (· = t) n none (some first)).map fun
        | (_, some _) => s
        | (tail, none) => (s.setWaitLink t none).setWaitLink (tail.getD first) (some t)

/-- `wait_queue_dequeue_locked` -/
def waitQueueDequeue (s : WaitQueues n) (q : Nat) : Option (Fin n) × WaitQueues n :=
  match s.head q with
  | none => (none, s)
  | some t => (some t, (s.setHead q (s.waitLink t)).setWaitLink t none)

/-- `wait_queue_dequeue_all_locked` -/
def waitQueueDequeueAll (s : WaitQueues n) (q : Nat) : Option (Fin n) × WaitQueues n :=
  (s.head q, s.setHead q none)

/-- `wake_blocked_thread` on CPU `c`. -/
def wakeBlockedThread (s : WaitQueues n) (c : Nat) (t : Fin n) (target : Option Nat) :
    WaitQueues n :=
  { s with
    waitReason := Function.update s.waitReason t .none
    sched := s.sched.wakeBlockedThread c t target }

/-- `wait_queue_wake_all` on CPU `c`: the threads that it wakes, first to last. -/
def waitQueueWakeAll (s : WaitQueues n) (c q : Nat) (target : Option Nat) :
    Option (List (Fin n) × WaitQueues n) :=
  let (first, s) := s.waitQueueDequeueAll q
  drain waitLink (fun s t => (s.setWaitLink t none).wakeBlockedThread c t target) n first s

end WaitQueues

inductive WaitAction (n : Nat) where
  | enqueue (q : Nat) (thread : Option (Fin n))
  | dequeue (q : Nat)
  | dequeueAll (q : Nat)
  | wakeAll (c q : Nat) (target : Option Nat)
  deriving DecidableEq, Repr

/-- What a call returns, and the threads that it has woken. -/
structure WaitResult (n : Nat) where
  thread : Option (Fin n) := none
  woken : List (Fin n) := []
  deriving DecidableEq, Repr

namespace WaitQueues

variable {n : Nat}

/-- `none` says that a loop does not end. -/
def step (s : WaitQueues n) : WaitAction n → Option (WaitResult n × WaitQueues n)
  | .enqueue q thread => (s.waitQueueEnqueue q thread).map fun s => ({}, s)
  | .dequeue q => some (({ thread := (s.waitQueueDequeue q).1 }), (s.waitQueueDequeue q).2)
  | .dequeueAll q =>
    some (({ thread := (s.waitQueueDequeueAll q).1 }), (s.waitQueueDequeueAll q).2)
  | .wakeAll c q target =>
    (s.waitQueueWakeAll c q target).map fun r => ({ woken := r.1 }, r.2)

def run (s : WaitQueues n) : List (WaitAction n) → Option (List (WaitResult n) × WaitQueues n)
  | [] => some ([], s)
  | action :: rest =>
    (s.step action).bind fun r => (r.2.run rest).map fun r' => (r.1 :: r'.1, r'.2)

end WaitQueues

/-! ## Queues without duplicates -/

/-- What waits on each queue, first to last. -/
abbrev Waiting (n : Nat) := Nat → List (Fin n)

namespace Waiting

variable {n : Nat}

def next (w : Waiting n) : WaitAction n → Waiting n
  | .enqueue _ none => w
  | .enqueue q (some t) => Function.update w q (if t ∈ w q then w q else w q ++ [t])
  | .dequeue q => Function.update w q (w q).tail
  | .dequeueAll q => Function.update w q []
  | .wakeAll _ q _ => Function.update w q []

def result (w : Waiting n) : WaitAction n → WaitResult n
  | .enqueue _ _ => {}
  | .dequeue q => { thread := (w q).head? }
  | .dequeueAll q => { thread := (w q).head? }
  | .wakeAll _ q _ => { woken := w q }

def results (w : Waiting n) : List (WaitAction n) → List (WaitResult n)
  | [] => []
  | action :: rest => w.result action :: (w.next action).results rest

/-- A thread is enqueued only while it is on no other queue. -/
def Allowed (w : Waiting n) : WaitAction n → Prop
  | .enqueue q (some t) => ∀ d ≠ q, t ∉ w d
  | _ => True

end Waiting

/-! ## Refinement -/

namespace WaitQueues

variable {n : Nat} {s s' : WaitQueues n} {w : Waiting n} {q fuel : Nat} {t : Fin n}
  {l : List (Fin n)}

/-- Each queue is a list without cycles of the threads that wait on it, and on it only. -/
structure Refines (s : WaitQueues n) (w : Waiting n) : Prop where
  chain (q : Nat) : Seg s.waitLink (s.head q) (w q) none
  nodup (q : Nat) : (w q).Nodup
  apart {q d : Nat} {t : Fin n} (hq : t ∈ w q) (hd : t ∈ w d) : q = d

namespace Refines

theorem length_le (h : Refines s w) (q : Nat) : (w q).length ≤ n := by
  simpa using List.Nodup.length_le_card (h.nodup q)

theorem head_eq (h : Refines s w) (q : Nat) : s.head q = (w q).head? := by
  have hchain := h.chain q
  cases hw : w q with
  | nil =>
    rw [hw] at hchain
    exact hchain
  | cons t l =>
    rw [hw] at hchain
    exact hchain.1

/-- One queue changes, and of the links only those of its threads, old and new. -/
theorem update (h : Refines s w) (hchain : Seg s'.waitLink (s'.head q) l none) (hl : l.Nodup)
    (hhead : ∀ d ≠ q, s'.head d = s.head d)
    (hlink : ∀ t, t ∉ w q → t ∉ l → s'.waitLink t = s.waitLink t)
    (hfree : ∀ t ∈ l, t ∉ w q → ∀ d ≠ q, t ∉ w d) : Refines s' (Function.update w q l) := by
  have hout : ∀ t ∈ l, ∀ d ≠ q, t ∉ w d := by
    intro t ht d hd hmem
    by_cases hold : t ∈ w q
    · exact hd (h.apart hmem hold)
    · exact hfree t ht hold d hd hmem
  refine ⟨fun d => ?_, fun d => ?_, fun {c d t} hc hd => ?_⟩
  · by_cases hd : d = q
    · subst hd
      rwa [Function.update_self]
    · rw [Function.update_of_ne hd, hhead d hd]
      refine (h.chain d).congr fun t ht => hlink t (fun hq => hd (h.apart ht hq)) fun hnew => ?_
      exact hout t hnew d hd ht
  · by_cases hd : d = q
    · subst hd
      rwa [Function.update_self]
    · rw [Function.update_of_ne hd]
      exact h.nodup d
  · by_cases hcq : c = q <;> by_cases hdq : d = q
    · rw [hcq, hdq]
    · subst hcq
      rw [Function.update_self] at hc
      rw [Function.update_of_ne hdq] at hd
      exact absurd hd (hout t hc d hdq)
    · subst hdq
      rw [Function.update_self] at hd
      rw [Function.update_of_ne hcq] at hc
      exact absurd hc (hout t hd c hcq)
    · rw [Function.update_of_ne hcq] at hc
      rw [Function.update_of_ne hdq] at hd
      exact h.apart hc hd

end Refines

/-- A thread that is on the queue already is met before the end. -/
theorem Refines.enqueue_present (h : Refines s w) (ht : t ∈ w q) :
    s.waitQueueEnqueue q (some t) = some s := by
  have hchain := h.chain q
  have hnodup := h.nodup q
  have hfuel := h.length_le q
  simp only [waitQueueEnqueue]
  cases hhead : s.head q with
  | none =>
    rw [h.head_eq, List.head?_eq_none_iff] at hhead
    simp [hhead] at ht
  | some first =>
    obtain ⟨l₁, l₂, hw⟩ := List.append_of_mem ht
    rw [hhead, hw] at hchain
    rw [hw] at hnodup hfuel
    simp only [hchain.walk_found hnodup none (decide_eq_true rfl)
      (fun u _ hu => of_decide_eq_true hu) hfuel, Option.map_some]

theorem Refines.enqueue (h : Refines s w) (hfree : ∀ d, t ∉ w d) :
    ∃ s', s.waitQueueEnqueue q (some t) = some s' ∧
      Refines s' (Function.update w q (w q ++ [t])) := by
  have hchain := h.chain q
  have hnodup : (w q ++ [t]).Nodup :=
    List.Nodup.append (h.nodup q) (List.nodup_singleton t)
      (List.disjoint_singleton.mpr (hfree q))
  have hnew : ∀ u ∈ w q ++ [t], u ∉ w q → ∀ d ≠ q, u ∉ w d := by
    intro u hu hout d _
    obtain rfl := List.mem_singleton.mp ((List.mem_append.mp hu).resolve_left hout)
    exact hfree d
  simp only [waitQueueEnqueue]
  cases hhead : s.head q with
  | none =>
    rw [h.head_eq, List.head?_eq_none_iff] at hhead
    refine ⟨_, rfl, h.update ?_ hnodup (fun d hd => ?_) (fun u _ hu => ?_) hnew⟩
    · simp [setHead, setWaitLink, hhead, Seg]
    · exact Function.update_of_ne hd _ _
    · exact Function.update_of_ne (by simpa [hhead] using hu) _ _
  | some first =>
    rw [hhead] at hchain
    have hlast : (w q).getLast? = some ((w q).getLast?.getD first) := by
      cases hl : (w q).getLast? with
      | none =>
        rw [List.getLast?_eq_none_iff] at hl
        rw [h.head_eq, hl] at hhead
        cases hhead
      | some x => rfl
    have habsent : ∀ u ∈ w q, decide (u = t) = false := by
      intro u hu
      refine decide_eq_false fun heq => ?_
      exact hfree q (heq ▸ hu)
    simp only [hchain.walk_absent none habsent (h.length_le q), Option.or_none, Option.map_some]
    generalize (w q).getLast?.getD first = last at hlast
    have hmem : last ∈ w q := List.mem_of_getLast? hlast
    have hne : last ≠ t := fun heq => hfree q (heq ▸ hmem)
    refine ⟨_, rfl, h.update ?_ hnodup (fun d _ => rfl) (fun u hout hu => ?_) hnew⟩
    · have hback : Seg ((s.setWaitLink t none).setWaitLink last (some t)).waitLink
          (if w q = [] then some t else some first) (w q ++ [t]) none := by
        refine hchain.pushBack (h.nodup q) (fun x hx => ?_) (fun x hx hxlast => ?_) ?_
        · obtain rfl : last = x := Option.some.inj (hlast.symm.trans hx)
          simp [setWaitLink]
        · have hxl : x ≠ last := fun heq => hxlast (heq ▸ hlast)
          have hxt : x ≠ t := fun heq => hfree q (heq ▸ hx)
          simp [setWaitLink, hxl, hxt]
        · simp [setWaitLink, hne.symm]
      rw [if_neg (List.ne_nil_of_mem hmem), ← hhead] at hback
      exact hback
    · have hul : u ≠ last := fun heq => hout (heq ▸ hmem)
      have hut : u ≠ t := fun heq => hu (by simp [heq])
      simp [setWaitLink, hul, hut]

theorem Refines.dequeue (h : Refines s w) (q : Nat) :
    (s.waitQueueDequeue q).1 = (w q).head? ∧
      Refines (s.waitQueueDequeue q).2 (Function.update w q (w q).tail) := by
  have hchain := h.chain q
  have hnodup := h.nodup q
  unfold waitQueueDequeue
  rw [h.head_eq]
  cases hw : w q with
  | nil =>
    refine ⟨rfl, ?_⟩
    have hsame : Function.update w q ([] : List (Fin n)).tail = w := by
      rw [List.tail_nil, ← hw, Function.update_eq_self]
    rw [hsame]
    exact h
  | cons t l =>
    rw [hw] at hchain hnodup
    have ht : t ∉ l := (List.nodup_cons.mp hnodup).1
    have hrest : Seg (Function.update s.waitLink t none)
        (Function.update s.head q (s.waitLink t) q) l none := by
      rw [Function.update_self]
      refine hchain.2.congr fun u hu => Function.update_of_ne ?_ _ _
      rintro rfl
      exact ht hu
    refine ⟨rfl, h.update hrest hnodup.of_cons (fun d hd => ?_) (fun u hout _ => ?_) ?_⟩
    · exact Function.update_of_ne hd _ _
    · exact Function.update_of_ne (fun heq => hout (by simp [hw, heq])) _ _
    · exact fun u hu hout => absurd (hw ▸ List.mem_cons_of_mem t hu) hout

theorem Refines.clear (h : Refines s w) (hhead : s'.head q = none)
    (hothers : ∀ d ≠ q, s'.head d = s.head d)
    (hlink : ∀ t, t ∉ w q → s'.waitLink t = s.waitLink t) :
    Refines s' (Function.update w q []) :=
  h.update hhead List.nodup_nil hothers (fun t ht _ => hlink t ht) fun _ ht => by cases ht

/-- Waking threads changes no queue's head and no other thread's link. -/
theorem foldl_wake (s : WaitQueues n) (c : Nat) (target : Option Nat) (l : List (Fin n)) :
    let s' := l.foldl (fun s t => (s.setWaitLink t none).wakeBlockedThread c t target) s
    s'.head = s.head ∧ ∀ t, t ∉ l → s'.waitLink t = s.waitLink t := by
  induction l generalizing s with
  | nil => exact ⟨rfl, fun _ _ => rfl⟩
  | cons x xs ih =>
    obtain ⟨hhead, hlink⟩ := ih ((s.setWaitLink x none).wakeBlockedThread c x target)
    refine ⟨hhead, fun u hu => ?_⟩
    rw [List.mem_cons, not_or] at hu
    exact (hlink u hu.2).trans (Function.update_of_ne hu.1 _ _)

/-- The loop wakes the threads of the list, although it takes the list apart as it goes. -/
theorem Refines.wakeAll (h : Refines s w) (c q : Nat) (target : Option Nat) :
    ∃ s', s.waitQueueWakeAll c q target = some (w q, s') ∧
      Refines s' (Function.update w q []) := by
  have hdrain := Seg.drain waitLink
    (fun s t => (s.setWaitLink t none).wakeBlockedThread c t target) (s.setHead q none)
    (h.chain q) (h.nodup q) (h.length_le q) fun s x y hy => Function.update_of_ne hy _ _
  obtain ⟨hhead, hlink⟩ := foldl_wake (s.setHead q none) c target (w q)
  refine ⟨_, hdrain, h.clear ?_ (fun d hd => ?_) hlink⟩
  · rw [hhead]
    exact Function.update_self ..
  · rw [hhead]
    exact Function.update_of_ne hd _ _

/-- One call ends, returns what the queue without duplicates returns, and leaves what it leaves. -/
theorem Refines.step (h : Refines s w) {action : WaitAction n} (hallowed : w.Allowed action) :
    ∃ s', s.step action = some (w.result action, s') ∧ Refines s' (w.next action) := by
  cases action with
  | enqueue q thread =>
    cases thread with
    | none => exact ⟨s, rfl, h⟩
    | some t =>
      simp only [WaitQueues.step, Waiting.result, Waiting.next]
      by_cases ht : t ∈ w q
      · refine ⟨s, by simp [h.enqueue_present ht], ?_⟩
        rw [if_pos ht, Function.update_eq_self]
        exact h
      · have hfree : ∀ d, t ∉ w d := by
          intro d
          by_cases hd : d = q
          · rwa [hd]
          · exact hallowed d hd
        obtain ⟨s', heq, hs'⟩ := h.enqueue hfree (q := q)
        refine ⟨s', by simp [heq], ?_⟩
        rwa [if_neg ht]
  | dequeue q =>
    obtain ⟨hthread, hs'⟩ := h.dequeue q
    exact ⟨_, by simp only [WaitQueues.step, Waiting.result, hthread], hs'⟩
  | dequeueAll q =>
    refine ⟨s.setHead q none, ?_, h.clear ?_ (fun d hd => ?_) fun _ _ => rfl⟩
    · simp only [WaitQueues.step, waitQueueDequeueAll, Waiting.result, h.head_eq]
    · exact Function.update_self ..
    · exact Function.update_of_ne hd _ _
  | wakeAll c q target =>
    obtain ⟨s', heq, hs'⟩ := h.wakeAll c q target
    exact ⟨s', by simp [WaitQueues.step, heq, Waiting.result], hs'⟩

/-- Every run from empty queues ends and refines a run of queues without duplicates: the calls
return and wake the same threads in the same order, each queue is linked as a list of what waits on
it, `dequeueAll` hands that list out, and enqueueing a thread that is there already changes
nothing. -/
theorem wait_queues_refine_fifo (s : WaitQueues n) (hempty : ∀ q, s.head q = none)
    (actions : List (WaitAction n))
    (hallowed : Along Waiting.next Waiting.Allowed (fun _ => []) actions) :
    ∃ s', s.run actions = some (Waiting.results (fun _ => []) actions, s') ∧
      Refines s' (actions.foldl Waiting.next fun _ => []) ∧
      ∀ q, Seg (s'.waitQueueDequeueAll q).2.waitLink (s'.waitQueueDequeueAll q).1
          (actions.foldl Waiting.next (fun _ => []) q) none ∧
        ∀ t ∈ actions.foldl Waiting.next (fun _ => []) q,
          s'.waitQueueEnqueue q (some t) = some s' := by
  have hstart : Refines s fun _ => [] :=
    ⟨hempty, fun _ => List.nodup_nil, fun hq => by cases hq⟩
  suffices hrun : ∀ (s : WaitQueues n) (w : Waiting n), Refines s w →
      Along Waiting.next Waiting.Allowed w actions →
      ∃ s', s.run actions = some (w.results actions, s') ∧
        Refines s' (actions.foldl Waiting.next w) by
    obtain ⟨s', heq, hs'⟩ := hrun s _ hstart hallowed
    exact ⟨s', heq, hs', fun q => ⟨hs'.chain q, fun t ht => hs'.enqueue_present ht⟩⟩
  clear hstart hallowed hempty s
  induction actions with
  | nil => exact fun s w h _ => ⟨s, rfl, h⟩
  | cons action rest ih =>
    intro s w h hallowed
    obtain ⟨s₁, hstep, h₁⟩ := h.step hallowed.1
    obtain ⟨s', hrest, hs'⟩ := ih s₁ (w.next action) h₁ hallowed.2
    exact ⟨s', by simp [run, hstep, hrest, Waiting.results], hs'⟩

/-- Four threads on the two CPUs of `RunQueues.twoCpus`. -/
def fourThreads : WaitQueues 4 where
  head _ := none
  waitLink _ := none
  waitReason _ := .none
  sched := RunQueues.twoCpus

/-- Threads wait on two queues; one of them asks twice, one is taken out, and two are woken. -/
def waitAndWake : List (WaitAction 4) :=
  [.enqueue 0 (some 0), .enqueue 1 (some 1), .enqueue 0 (some 2), .enqueue 0 (some 3),
    .enqueue 0 (some 2), .dequeue 0, .wakeAll 0 0 none]

theorem wait_queues_refine_fifo_two_queues : ∃ s', fourThreads.run waitAndWake =
    some ([{}, {}, {}, {}, {}, { thread := some 0 }, { woken := [2, 3] }], s') := by
  have hallowed : Along Waiting.next Waiting.Allowed (fun _ => []) waitAndWake := by
    refine ⟨?_, ?_, ?_, ?_, ?_, trivial, trivial, trivial⟩ <;> intro d hd <;>
      by_cases hone : d = 1 <;> simp_all [Waiting.next, Function.update_apply]
  obtain ⟨s', hrun, -⟩ := wait_queues_refine_fifo fourThreads (fun _ => rfl) waitAndWake hallowed
  exact ⟨s', hrun.trans rfl⟩

end WaitQueues
end Os1.Sync
