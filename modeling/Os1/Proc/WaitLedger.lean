import Mathlib.Tactic.Ring
import Os1.Proc.Collect

/-! Over any run each child is returned at most once, with the status its thread exited with. -/
namespace Os1.Proc.ProcessTable

open Sched

variable {s s' : ProcessTable} {p q t : Nat}

/-- A child handed to a waiter: which creation it goes back to, the result and the status. -/
structure Return where
  child : Nat
  result : Int
  status : BitVec 32
  deriving DecidableEq, Repr

/-- A table and what happened so far. Records are used again, so a process is known by the number
of its creation. -/
structure Ledger where
  table : ProcessTable := {}
  made : Nat := 0
  birth : Nat → Nat := fun _ => 0
  exited : List (Nat × BitVec 32) := []
  returned : List Return := []

namespace Ledger

def step (l : Ledger) (a : TableAction) : Ledger where
  table := l.table.step a
  made := match l.table.creates a with
    | none => l.made
    | some _ => l.made + 1
  birth := match l.table.creates a with
    | none => l.birth
    | some p => Function.update l.birth p l.made
  exited := match l.table.exits a with
    | none => l.exited
    | some (p, status) => l.exited ++ [(l.birth p, status)]
  returned := match l.table.returns a with
    | none => l.returned
    | some (t, child) =>
      l.returned ++ [⟨l.birth child, ((l.table.step a).thread t).rax,
        (l.table.process child).exitStatus⟩]

def run (l : Ledger) (actions : List TableAction) : Ledger := actions.foldl step l

/-- The pid of the process that was created as number `n`. -/
def pidOf (n : Nat) : BitVec 64 := BitVec.ofNat 64 (n + 1)

/-- No child is returned twice, none exits twice, and a child is returned as its pid with the
status of its exit. -/
structure Settled (l : Ledger) : Prop where
  once : (l.returned.map Return.child).Nodup
  exitsOnce : (l.exited.map Prod.fst).Nodup
  status : ∀ r ∈ l.returned, (r.child, r.status) ∈ l.exited
  result : ∀ r ∈ l.returned, r.result = (pidOf r.child).toNat

/-- The registries agree with what happened. -/
structure Books (l : Ledger) : Prop extends Settled l, Registered l.table where
  births : ∀ p ∈ l.table.processes, ∀ q ∈ l.table.processes, l.birth p = l.birth q → p = q
  born : ∀ p ∈ l.table.processes, l.birth p < l.made
  pid : ∀ p ∈ l.table.processes, (l.table.process p).pid = pidOf (l.birth p)
  nextPid : l.table.nextPid = pidOf l.made
  alive : ∀ t ∈ l.table.threads, ∀ p, (l.table.thread t).process = some p →
    (l.table.thread t).state ≠ .dying → l.birth p ∉ l.exited.map Prod.fst
  finished : ∀ p ∈ l.table.processes, (l.table.process p).state = .zombie →
    (l.birth p, (l.table.process p).exitStatus) ∈ l.exited
  exitedBorn : ∀ e ∈ l.exited, e.1 < l.made
  gone : ∀ r ∈ l.returned, r.child < l.made ∧ ∀ p ∈ l.table.processes, l.birth p ≠ r.child

variable {l : Ledger}

theorem books_start : Books {} := by
  refine ⟨⟨?_, ?_, ?_, ?_⟩, registered_empty, ?_, ?_, ?_, rfl, ?_, ?_, ?_, ?_⟩ <;> simp

theorem Books.of_calm (h : Books l) (hcalm : Calm l.table s) : Books { l with table := s } where
  toSettled := ⟨h.once, h.exitsOnce, h.status, h.result⟩
  toRegistered := hcalm.registered h.toRegistered
  births := fun p hp q hq => h.births p (hcalm.processes ▸ hp) q (hcalm.processes ▸ hq)
  born := fun p hp => h.born p (hcalm.processes ▸ hp)
  pid := fun p hp => (hcalm.process p).pid.trans (h.pid p (hcalm.processes ▸ hp))
  nextPid := hcalm.nextPid.trans h.nextPid
  alive := fun t ht p htp hlive => h.alive t (hcalm.threads ▸ ht) p
    ((hcalm.thread t).owner.symm.trans htp) (mt (hcalm.thread t).dying hlive)
  finished := fun p hp hz => by
    have hold : (l.table.process p).state = .zombie := by
      rcases (hcalm.process p).state with heq | ⟨-, hnew⟩
      · exact heq.symm.trans hz
      · exact absurd hz hnew.1
    have hexit := h.finished p (hcalm.processes ▸ hp) hold
    rwa [← (hcalm.process p).exitStatus] at hexit
  exitedBorn := h.exitedBorn
  gone := fun r hr => ⟨(h.gone r hr).1, fun p hp => (h.gone r hr).2 p (hcalm.processes ▸ hp)⟩

/-- Removing a process, whose record is cleared. -/
theorem Books.reapProcess (h : Books l) (q : Nat) :
    Books { l with table := (l.table.reapProcess q).2 } := by
  have hregistered := h.toRegistered.reapProcess q
  cases hq : l.table.processHasThreads q with
  | true => rwa [reapProcess_refused hq]
  | false =>
    have hmem : ∀ p, p ∈ l.table.processes.erase q → p ≠ q ∧ p ∈ l.table.processes := fun p hp =>
      (h.processesNodup.mem_erase_iff).mp hp
    rw [reapProcess_eq hq] at hregistered ⊢
    refine ⟨⟨h.once, h.exitsOnce, h.status, h.result⟩, hregistered, ?_, ?_, ?_, h.nextPid, h.alive,
      ?_, h.exitedBorn, ?_⟩
    · exact fun p hp p' hp' => h.births p (hmem p hp).2 p' (hmem p' hp').2
    · exact fun p hp => h.born p (hmem p hp).2
    · intro p hp
      dsimp only
      rw [if_neg (hmem p hp).1]
      exact h.pid p (hmem p hp).2
    · intro p hp hz
      dsimp only at hz ⊢
      rw [if_neg (hmem p hp).1] at hz ⊢
      exact h.finished p (hmem p hp).2 hz
    · exact fun r hr => ⟨(h.gone r hr).1, fun p hp => (h.gone r hr).2 p (hmem p hp).2⟩

/-- A child is returned as its record is removed. -/
theorem Books.collect (h : Books l) (hq : q ∈ l.table.processes)
    (hzombie : (l.table.process q).state = .zombie)
    (hthreads : l.table.processHasThreads q = false) :
    Books { l with
      table := (l.table.reapProcess q).2
      returned := l.returned ++
        [⟨l.birth q, (l.table.process q).pid.toNat, (l.table.process q).exitStatus⟩] } := by
  have hreap := h.reapProcess q
  rw [reapProcess_eq hthreads] at hreap ⊢
  exact {
    hreap with
    once := by
      rw [List.map_append, List.nodup_append]
      refine ⟨h.once, by simp, fun a ha b hb => ?_⟩
      obtain ⟨r, hr, rfl⟩ := List.mem_map.mp ha
      obtain rfl : b = l.birth q := by simpa using hb
      exact ((h.gone r hr).2 q hq).symm
    exitsOnce := h.exitsOnce
    status := by
      intro r hr
      rcases List.mem_append.mp hr with hr | hr
      · exact h.status r hr
      · obtain rfl := List.mem_singleton.mp hr
        exact h.finished q hq hzombie
    result := by
      intro r hr
      rcases List.mem_append.mp hr with hr | hr
      · exact h.result r hr
      · obtain rfl := List.mem_singleton.mp hr
        rw [h.pid q hq]
    gone := by
      intro r hr
      rcases List.mem_append.mp hr with hr | hr
      · exact hreap.gone r hr
      · obtain rfl := List.mem_singleton.mp hr
        refine ⟨h.born q hq, fun p hp heq => ?_⟩
        obtain ⟨hne, hp⟩ := (h.processesNodup.mem_erase_iff).mp hp
        exact hne (h.births p hp q hq heq) }

theorem Books.clearThread (h : Books l) (t : Nat) (work : List ReapTask) :
    Books { l with table := { l.table.clearThread t with work := work } } := by
  refine ⟨⟨h.once, h.exitsOnce, h.status, h.result⟩, h.toRegistered.clearThread work, h.births,
    h.born, h.pid, h.nextPid, fun u hu => ?_, h.finished, h.exitedBorn, h.gone⟩
  obtain ⟨hut, hu⟩ := h.mem_erase_threads.mp hu
  dsimp only
  rw [clearThread_thread hut]
  exact h.alive u hu

/-- A new process has a number of its own. -/
theorem Books.create {parent : Option Nat} {cr3 : BitVec 64} {startReady : Bool} (h : Books l)
    (hp : p ∉ l.table.processes) (ht : t ∉ l.table.threads) :
    Books { l with
      table := l.table.create p t parent cr3 startReady
      made := l.made + 1
      birth := Function.update l.birth p l.made } := by
  have hbirth {q : Nat} (hq : q ∈ l.table.processes) :
      Function.update l.birth p l.made q = l.birth q :=
    Function.update_of_ne (ne_of_mem_of_not_mem hq hp) _ _
  have hfresh : l.made ∉ l.exited.map Prod.fst := by
    intro hmade
    obtain ⟨e, he, hmade⟩ := List.mem_map.mp hmade
    have := h.exitedBorn e he
    omega
  exact {
    once := h.once
    exitsOnce := h.exitsOnce
    status := h.status
    result := h.result
    toRegistered := h.toRegistered.create hp ht
    births := by
      intro q hq r hr heq
      dsimp only at heq
      rcases mem_create_processes.mp hq with hold | rfl <;>
        rcases mem_create_processes.mp hr with hold' | rfl
      · rw [hbirth hold, hbirth hold'] at heq
        exact h.births q hold r hold' heq
      · rw [hbirth hold, Function.update_self] at heq
        exact absurd (h.born q hold) (by omega)
      · rw [hbirth hold', Function.update_self] at heq
        exact absurd (h.born r hold') (by omega)
      · rfl
    born := by
      intro q hq
      dsimp only
      rcases mem_create_processes.mp hq with hq | rfl
      · rw [hbirth hq]
        exact Nat.lt_succ_of_lt (h.born q hq)
      · simp
    pid := by
      intro q hq
      dsimp only
      rcases mem_create_processes.mp hq with hq | rfl
      · rw [hbirth hq, create_process hp hq]
        exact h.pid q hq
      · simpa [create_new_process] using h.nextPid
    nextPid := by
      simp [ProcessTable.create, h.nextPid, pidOf, BitVec.ofNat_add]
    alive := by
      intro u hu q huq hlive
      dsimp only at huq hlive ⊢
      rcases mem_create_threads.mp hu with hu | rfl
      · rw [create_thread ht hu] at huq hlive
        rw [hbirth (h.owner_mem hu huq)]
        exact h.alive u hu q huq hlive
      · obtain rfl := Option.some.inj (create_new.1.symm.trans huq)
        rwa [Function.update_self]
    finished := by
      intro q hq hz
      dsimp only at hz ⊢
      rcases mem_create_processes.mp hq with hq | rfl
      · rw [create_process hp hq] at hz ⊢
        rw [hbirth hq]
        exact h.finished q hq hz
      · exact absurd hz (by simp [create_new_process])
    exitedBorn := fun e he => Nat.lt_succ_of_lt (h.exitedBorn e he)
    gone := by
      intro r hr
      refine ⟨Nat.lt_succ_of_lt (h.gone r hr).1, fun q hq => ?_⟩
      dsimp only
      rcases mem_create_processes.mp hq with hq | rfl
      · rw [hbirth hq]
        exact (h.gone r hr).2 q hq
      · rw [Function.update_self]
        have := (h.gone r hr).1
        omega }

/-- An exit is entered once: the thread was the only one of its process and had not exited. -/
theorem Books.markThreadDying (h : Books l) (ht : t ∈ l.table.threads)
    (hlive : (l.table.thread t).state = .running) (htp : (l.table.thread t).process = some p)
    (status : BitVec 32) :
    Books { l with
      table := l.table.markThreadDying t status
      exited := l.exited ++ [(l.birth p, status)] } := by
  have hp := h.owner_mem ht htp
  have hsame : SameOwners l.table (l.table.markThreadDying t status) :=
    h.toRegistered.same_markThreadDying ht
  have hprocesses := hsame.processes
  have hnew : l.birth p ∉ l.exited.map Prod.fst := h.alive t ht p htp (by rw [hlive]; simp)
  exact {
    once := h.once
    exitsOnce := by
      rw [List.map_append, List.nodup_append]
      refine ⟨h.exitsOnce, by simp, fun a ha b hb => ?_⟩
      obtain rfl : b = l.birth p := by simpa using hb
      exact ne_of_mem_of_not_mem ha hnew
    status := fun r hr => List.mem_append_left _ (h.status r hr)
    result := h.result
    toRegistered := h.toRegistered.markThreadDying ht
    births := fun q hq r hr => h.births q (hprocesses ▸ hq) r (hprocesses ▸ hr)
    born := fun q hq => h.born q (hprocesses ▸ hq)
    pid := fun q hq => by
      dsimp only
      rw [markThreadDying_process htp]
      split
      next hqp =>
        rw [hqp]
        exact h.pid p hp
      next => exact h.pid q (hprocesses ▸ hq)
    nextPid := markThreadDying_nextPid.trans h.nextPid
    alive := fun u hu q huq hdying => by
      dsimp only at hu huq hdying ⊢
      rw [hsame.threads] at hu
      rw [hsame.owner] at huq
      rw [markThreadDying_state] at hdying
      by_cases hut : u = t
      · exact absurd (if_pos hut) hdying
      · rw [if_neg hut] at hdying
        rw [List.map_append, List.mem_append]
        rintro (hold | hexit)
        · exact h.alive u hu q huq hdying hold
        · have hbirth : l.birth q = l.birth p := by simpa using hexit
          obtain rfl := h.births q (h.owner_mem hu huq) p hp hbirth
          exact hut (h.single u hu t ht (huq.trans htp.symm))
    finished := fun q hq hz => by
      dsimp only at hz ⊢
      rw [markThreadDying_process htp] at hz ⊢
      split at hz
      next hqp => simp [hqp]
      next hqp =>
        rw [if_neg hqp]
        exact List.mem_append_left _ (h.finished q (hprocesses ▸ hq) hz)
    exitedBorn := fun e he => by
      rcases List.mem_append.mp he with he | he
      · exact h.exitedBorn e he
      · rw [List.mem_singleton.mp he]
        exact h.born p hp
    gone := fun r hr => ⟨(h.gone r hr).1, fun q hq => (h.gone r hr).2 q (hprocesses ▸ hq)⟩ }

theorem Books.step (h : Books l) (a : TableAction) : Books (l.step a) := by
  obtain ⟨x, hevent, hcalm, -⟩ := h.toRegistered.eventful a
  suffices hx : Books { l.step a with table := x } from hx.of_calm hcalm
  cases hevent with
  | none hc he hr => simpa only [Ledger.step, hc, he, hr] using h
  | create hp ht _ hc he hr =>
    simp only [Ledger.step, hc, he, hr]
    exact h.create hp ht
  | exit ht hrun htp hc he hr =>
    simp only [Ledger.step, hc, he, hr]
    exact h.markThreadDying ht hrun htp _
  | clear _ hc he hr =>
    simp only [Ledger.step, hc, he, hr]
    exact h.clearThread _ _
  | reap _ hc he hr =>
    simp only [Ledger.step, hc, he, hr]
    exact h.reapProcess _
  | collect _ hp hzombie hthreads hc he hr hrax =>
    simp only [Ledger.step, hc, he, hr, hrax]
    exact h.collect hp hzombie hthreads

theorem run_books (actions : List TableAction) : Books (run {} actions) := by
  have hrun : ∀ (l : Ledger), Books l → Books (run l actions) := by
    induction actions with
    | nil => exact fun _ h => h
    | cons a actions ih => exact fun l h => ih _ (h.step a)
  exact hrun {} books_start

/-- The table of the ledger is that of the run. -/
theorem run_table (actions : List TableAction) : (run {} actions).table =
    ProcessTable.run {} actions := by
  have hrun : ∀ (l : Ledger), (run l actions).table = ProcessTable.run l.table actions := by
    induction actions with
    | nil => exact fun _ => rfl
    | cons a actions ih => exact fun l => ih (l.step a)
  exact hrun {}

/-- Until pids wrap around, each process has a pid of its own, and no wait has returned it. -/
theorem pids_not_reused (actions : List TableAction) :
    let l := run {} actions
    l.table = ProcessTable.run {} actions ∧ (l.made < 2 ^ 64 →
      (l.table.processes.map fun p => (l.table.process p).pid).Nodup ∧
      ∀ p ∈ l.table.processes, (l.table.process p).pid ≠ 0#64 ∧
        ∀ r ∈ l.returned, r.result ≠ (l.table.process p).pid.toNat) := by
  intro l
  have h : Books l := run_books actions
  refine ⟨run_table actions, fun hmade => ?_⟩
  have htoNat {n : Nat} (hn : n < l.made) : (pidOf n).toNat = n + 1 := by
    rw [pidOf, BitVec.toNat_ofNat, Nat.mod_eq_of_lt (by omega)]
  have hpid p (hp : p ∈ l.table.processes) :=
    (congrArg BitVec.toNat (h.pid p hp)).trans (htoNat (h.born p hp))
  refine ⟨?_, fun p hp => ⟨fun hzero => ?_, fun r hr => ?_⟩⟩
  · refine List.Nodup.map_on (fun p hp q hq heq => h.births p hp q hq ?_) h.processesNodup
    have := congrArg BitVec.toNat heq
    rw [hpid p hp, hpid q hq] at this
    omega
  · have := hpid p hp
    simp [hzero] at this
  · have hgone := (h.gone r hr).2 p hp
    rw [h.result r hr, htoNat (h.gone r hr).1, hpid p hp]
    omega

end Ledger

/-! ## The calls and the runs -/

end Os1.Proc.ProcessTable
