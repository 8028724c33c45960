import Os1.Lib.Along
import Os1.Sched.Kernel

/-! No thread runs on two CPUs, as long as no thread is handed over while a CPU still has it. -/
namespace Os1.Sched

variable {k k' : Kernel} {c d e t u q : Nat} {task task' : Task} {work rest : List Task}
  {th : ThreadState}

/-- The threads that a task is about to wake or to queue. -/
def Task.threads : Task → List Nat
  | .wake _ threads stillWaiting _ => threads ++ stillWaiting
  | .enqueue t _ => [t]
  | _ => []

/-- The tasks that move threads between run queues and CPUs. -/
def Task.Moving : Task → Bool
  | .enqueue _ _ | .pickNext | .restoreThread (some _) | .migrate _ _ _ _ _ | .clearThread _ => true
  | _ => false

namespace Kernel

/-- The CPU runs `t` or has chosen it to be run next. -/
def Holds (k : Kernel) (c t : Nat) : Prop :=
  (k.cpu c).current = some t ∨ .restoreThread (some t) ∈ (k.cpu c).work

/-- The thread is on a wait queue, or some CPU has taken it from one or is about to queue it. -/
def Waits (k : Kernel) (t : Nat) : Prop :=
  (∃ q, t ∈ k.waiters q) ∨ ∃ d, ∃ task ∈ (k.cpu d).work, t ∈ task.threads

/-- The thread has exited, or its record has been cleared. -/
def Dead (k : Kernel) (t : Nat) : Prop :=
  (k.thread t).state = .dying ∨ (k.thread t).state = .free

/-- Threads that a step can begin to wake or to queue: those that waited, and a thread that its
CPU gives up. -/
def MayWait (k : Kernel) (t : Nat) : Prop :=
  k.Waits t ∨ ∃ d, k.Holds d t ∧ (k.cpu d).idle ≠ some t

/-! ## Fields after an update -/

section Fields

variable (k) (c d t u q : Nat) (work : List Task) (l : List Nat) (state : ThreadState)
  (stack : Option Nat) (f : Cpu → Cpu) (g : Thread → Thread)

@[simp] theorem cpu_setCpu :
    (k.setCpu c f).cpu d = if d = c then f (k.cpu d) else k.cpu d := rfl

@[simp] theorem thread_setCpu : (k.setCpu c f).thread = k.thread := rfl

@[simp] theorem waiters_setCpu : (k.setCpu c f).waiters = k.waiters := rfl

@[simp] theorem cpu_setThread : (k.setThread t g).cpu = k.cpu := rfl

@[simp] theorem thread_setThread :
    (k.setThread t g).thread u = if u = t then g (k.thread u) else k.thread u := rfl

@[simp] theorem waiters_setThread : (k.setThread t g).waiters = k.waiters := rfl

@[simp] theorem cpu_setState : (k.setState t state).cpu = k.cpu := rfl

@[simp] theorem waiters_setState : (k.setState t state).waiters = k.waiters := rfl

@[simp] theorem runQueueCpu_setState :
    ((k.setState t state).thread u).runQueueCpu = (k.thread u).runQueueCpu := by
  rw [setState, thread_setThread]
  split <;> rfl

@[simp] theorem state_setState :
    ((k.setState t state).thread u).state = if u = t then state else (k.thread u).state := by
  rw [setState, thread_setThread]
  split <;> rfl

@[simp] theorem cpu_setWaiters : (k.setWaiters q l).cpu = k.cpu := rfl

@[simp] theorem thread_setWaiters : (k.setWaiters q l).thread = k.thread := rfl

@[simp] theorem thread_setWork : (k.setWork c work).thread = k.thread := rfl

@[simp] theorem waiters_setWork : (k.setWork c work).waiters = k.waiters := rfl

@[simp] theorem work_setWork :
    ((k.setWork c work).cpu d).work = if d = c then work else (k.cpu d).work := by
  rw [setWork, cpu_setCpu]
  split <;> rfl

@[simp] theorem runq_setWork : ((k.setWork c work).cpu d).runq = (k.cpu d).runq := by
  rw [setWork, cpu_setCpu]
  split <;> rfl

@[simp] theorem current_setWork : ((k.setWork c work).cpu d).current = (k.cpu d).current := by
  rw [setWork, cpu_setCpu]
  split <;> rfl

@[simp] theorem idle_setWork : ((k.setWork c work).cpu d).idle = (k.cpu d).idle := by
  rw [setWork, cpu_setCpu]
  split <;> rfl

@[simp] theorem thread_setStack : (k.setStack c stack).thread = k.thread := rfl

@[simp] theorem waiters_setStack : (k.setStack c stack).waiters = k.waiters := rfl

@[simp] theorem work_setStack : ((k.setStack c stack).cpu d).work = (k.cpu d).work := by
  rw [setStack, cpu_setCpu]
  split <;> rfl

@[simp] theorem runq_setStack : ((k.setStack c stack).cpu d).runq = (k.cpu d).runq := by
  rw [setStack, cpu_setCpu]
  split <;> rfl

@[simp] theorem current_setStack :
    ((k.setStack c stack).cpu d).current = (k.cpu d).current := by
  rw [setStack, cpu_setCpu]
  split <;> rfl

@[simp] theorem idle_setStack : ((k.setStack c stack).cpu d).idle = (k.cpu d).idle := by
  rw [setStack, cpu_setCpu]
  split <;> rfl

@[simp] theorem holds_setStack : (k.setStack c stack).Holds d t ↔ k.Holds d t := by
  simp [Holds]

@[simp] theorem waits_setStack : (k.setStack c stack).Waits t ↔ k.Waits t := by
  simp [Waits]

@[simp] theorem mayWait_setStack : (k.setStack c stack).MayWait t ↔ k.MayWait t := by
  simp [MayWait]

end Fields

/-! ## What one step moves -/

/-- Where a thread can be after a step, by where it was before. -/
structure Moves (k k' : Kernel) : Prop where
  idle : ∀ d t, (k'.cpu d).idle = some t → (k.cpu d).idle = some t
  held : ∀ d t, k'.Holds d t → k.Holds d t ∨ (k.cpu d).idle = some t ∨ t ∈ (k.cpu d).runq
  queued : ∀ d t, t ∈ (k'.cpu d).runq → (∃ e, t ∈ (k.cpu e).runq) ∨ k.Waits t
  waits : ∀ t, k'.Waits t → k.MayWait t

/-- Idle threads stay with their CPU: they are never queued, never wait and run nowhere else. -/
structure IdleOwn (k : Kernel) : Prop where
  held : ∀ d e t, (k.cpu e).idle = some t → k.Holds d t → d = e
  unqueued : ∀ d e t, (k.cpu e).idle = some t → t ∉ (k.cpu d).runq
  notWaiting : ∀ e t, (k.cpu e).idle = some t → ¬ k.Waits t
  distinct : ∀ d e t, (k.cpu d).idle = some t → (k.cpu e).idle = some t → d = e

theorem IdleOwn.of_moves (h : IdleOwn k) (hm : Moves k k') : IdleOwn k' := by
  refine ⟨fun d e t he hd => ?_, fun d e t he hd => ?_, fun e t he hw => ?_, fun d e t hd he =>
    h.distinct d e t (hm.idle d t hd) (hm.idle e t he)⟩
  · rcases hm.held d t hd with hd | hd | hd
    · exact h.held d e t (hm.idle e t he) hd
    · exact h.distinct d e t hd (hm.idle e t he)
    · exact (h.unqueued d e t (hm.idle e t he) hd).elim
  · rcases hm.queued d t hd with ⟨e', hd⟩ | hw
    · exact h.unqueued e' e t (hm.idle e t he) hd
    · exact h.notWaiting e t (hm.idle e t he) hw
  · rcases hm.waits t hw with hw | ⟨d, hd, hne⟩
    · exact h.notWaiting e t (hm.idle e t he) hw
    · obtain rfl := h.held d e t (hm.idle e t he) hd
      exact hne (hm.idle d t he)

/-- A step that changes only wait queues and the tasks of CPU `c`. -/
structure Rewrites (k k' : Kernel) (c : Nat) : Prop where
  current : ∀ d, (k'.cpu d).current = (k.cpu d).current
  idle : ∀ d, (k'.cpu d).idle = (k.cpu d).idle
  runq : ∀ d, (k'.cpu d).runq = (k.cpu d).runq
  work : ∀ d, d ≠ c → (k'.cpu d).work = (k.cpu d).work
  runQueueCpu : ∀ t, (k'.thread t).runQueueCpu = (k.thread t).runQueueCpu
  waiters : ∀ q, ∀ t ∈ k'.waiters q, k.MayWait t
  chosen : ∀ t, .restoreThread (some t) ∈ (k'.cpu c).work →
    .restoreThread (some t) ∈ (k.cpu c).work
  threads : ∀ task ∈ (k'.cpu c).work, ∀ t ∈ task.threads,
    k.MayWait t

theorem Rewrites.holds (h : Rewrites k k' c) (hd : k'.Holds d t) : k.Holds d t := by
  rcases hd with hd | hd
  · exact Or.inl (h.current d ▸ hd)
  · by_cases hdc : d = c
    · subst hdc
      exact Or.inr (h.chosen t hd)
    · exact Or.inr (h.work d hdc ▸ hd)

theorem Rewrites.moves (h : Rewrites k k' c) : Moves k k' := by
  refine ⟨fun d t hd => h.idle d ▸ hd, fun d t hd => Or.inl (h.holds hd),
    fun d t hd => Or.inl ⟨d, h.runq d ▸ hd⟩, fun t hw => ?_⟩
  rcases hw with ⟨q, hq⟩ | ⟨d, task, hd, ht⟩
  · exact h.waiters q t hq
  · by_cases hdc : d = c
    · subst hdc
      exact h.threads task hd t ht
    · exact Or.inl (Or.inr ⟨d, task, h.work d hdc ▸ hd, ht⟩)

theorem waits_of_waiters (ht : t ∈ k.waiters q) : k.MayWait t := Or.inl (Or.inl ⟨q, ht⟩)

theorem waits_of_same (h : k'.waiters = k.waiters) (q : Nat) : ∀ t ∈ k'.waiters q, k.MayWait t :=
  fun _ ht => waits_of_waiters (h ▸ ht)

theorem Rewrites.refl (k : Kernel) (c : Nat) : Rewrites k k c :=
  ⟨fun _ => rfl, fun _ => rfl, fun _ => rfl, fun _ _ => rfl, fun _ => rfl,
    fun _ _ ht => waits_of_waiters ht, fun _ ht => ht,
    fun task ht _ hm => Or.inl (Or.inr ⟨c, task, ht, hm⟩)⟩

theorem Rewrites.of_setStack (stack : Option Nat) (h : Rewrites (k.setStack c stack) k' c) :
    Rewrites k k' c := by
  refine ⟨fun d => (h.current d).trans (by simp), fun d => (h.idle d).trans (by simp),
    fun d => (h.runq d).trans (by simp), fun d hd => (h.work d hd).trans (by simp), h.runQueueCpu,
    fun q t ht => by simpa using h.waiters q t ht, fun t ht => by simpa using h.chosen t ht,
    fun task ht t hm => by simpa using h.threads task ht t hm⟩

theorem waits_of_task (hw : (k.cpu c).work = task :: rest) (ht : t ∈ task.threads) : k.Waits t :=
  Or.inr ⟨c, task, by rw [hw]; exact List.mem_cons_self, ht⟩

theorem mem_work_of_rest (hw : (k.cpu c).work = task :: rest) (ht : task' ∈ rest) :
    task' ∈ (k.cpu c).work := by
  rw [hw]
  exact List.mem_cons_of_mem _ ht

/-- New tasks are put before old ones, and what else changes is not scheduling state. -/
theorem rewrites_tasks (tasks : List Task) (hcpu : k'.cpu = (k.setWork c (tasks ++ rest)).cpu)
    (hrest : ∀ task' ∈ rest, task' ∈ (k.cpu c).work)
    (hqueue : ∀ t, (k'.thread t).runQueueCpu = (k.thread t).runQueueCpu)
    (hwaiters : ∀ q, ∀ t ∈ k'.waiters q, k.MayWait t)
    (hchosen : ∀ t, .restoreThread (some t) ∉ tasks)
    (hthreads : ∀ task' ∈ tasks, ∀ t ∈ task'.threads, k.MayWait t) : Rewrites k k' c := by
  refine ⟨fun d => by rw [hcpu, current_setWork], fun d => by rw [hcpu, idle_setWork],
    fun d => by rw [hcpu, runq_setWork], fun d hd => by rw [hcpu, work_setWork, if_neg hd], hqueue,
    hwaiters, fun t ht => ?_, fun task' ht t hm => ?_⟩
  · rw [hcpu, work_setWork, if_pos rfl] at ht
    exact hrest _ ((List.mem_append.mp ht).resolve_left (hchosen t))
  · rw [hcpu, work_setWork, if_pos rfl] at ht
    rcases List.mem_append.mp ht with ht | ht
    · exact hthreads task' ht t hm
    · exact Or.inl (Or.inr ⟨c, task', hrest _ ht, hm⟩)

/-! ## Plain steps -/

/-- The tasks that say where a CPU is in a switch or what the reaper has taken. -/
def marks : Task → Bool
  | .leaveStack _ | .reapFree _ _ | .clearThread _ => true
  | _ => false

/-- The task begins neither a switch nor the reaping of a thread, and wakes only threads that may
be woken. -/
def Harmless (k : Kernel) (task : Task) : Prop :=
  marks task = false ∧ (∀ t, task ≠ .restoreThread (some t)) ∧ ∀ t ∈ task.threads, k.MayWait t

/-- A step that puts harmless tasks before the old ones of CPU `c`. No thread revives unless a CPU
holds it, and only the current thread of `c` can die. -/
structure Plain (k k' : Kernel) (c : Nat) (tasks rest : List Task) : Prop where
  cpu : k'.cpu = (k.setWork c (tasks ++ rest)).cpu
  cpus : k'.cpus = k.cpus
  freedPages : k'.freedPages = k.freedPages
  runQueueCpu : ∀ t, (k'.thread t).runQueueCpu = (k.thread t).runQueueCpu
  dead : ∀ t, k.Dead t → (∀ d, ¬ k.Holds d t) → k'.Dead t
  died : ∀ t, k'.Dead t → k.Dead t ∨ (k.cpu c).current = some t ∧ (k.cpu c).idle ≠ some t
  waiters : ∀ q, ∀ t ∈ k'.waiters q, k.MayWait t
  harmless : ∀ task ∈ tasks, Harmless k task

section Plain

variable {tasks : List Task} {target : Option Nat} {leastLoaded : Nat}

theorem Plain.rewrites (h : Plain k k' c tasks rest)
    (hrest : ∀ task' ∈ rest, task' ∈ (k.cpu c).work) : Rewrites k k' c :=
  rewrites_tasks tasks h.cpu hrest h.runQueueCpu h.waiters
    (fun t ht => (h.harmless _ ht).2.1 t rfl) (fun task ht => (h.harmless task ht).2.2)

theorem Plain.setWaiters {l : List Nat} (h : Plain k k' c tasks rest) (q : Nat)
    (hl : ∀ t ∈ l, k.MayWait t) : Plain k (k'.setWaiters q l) c tasks rest := by
  refine ⟨h.cpu, h.cpus, h.freedPages, h.runQueueCpu, h.dead, h.died, fun r t ht => ?_, h.harmless⟩
  change t ∈ (if r = q then l else k'.waiters r) at ht
  split at ht
  · exact hl t ht
  · exact h.waiters r t ht

theorem plain_setWork (tasks : List Task) (htasks : ∀ task ∈ tasks, Harmless k task) :
    Plain k (k.setWork c (tasks ++ rest)) c tasks rest :=
  ⟨rfl, rfl, rfl, fun _ => rfl, fun _ ht _ => ht, fun _ ht => Or.inl ht,
    waits_of_same rfl, htasks⟩

theorem plain_pop : Plain k (k.setWork c rest) c [] rest :=
  plain_setWork [] (by simp)

/-- A thread that is held or alive gets another state. -/
theorem plain_setState {state : ThreadState} (tasks : List Task)
    (htasks : ∀ task ∈ tasks, Harmless k task) (ht : (∃ d, k.Holds d t) ∨ ¬ k.Dead t)
    (hdies : (k.setState t state).Dead t →
      (k.cpu c).current = some t ∧ (k.cpu c).idle ≠ some t) :
    Plain k ((k.setState t state).setWork c (tasks ++ rest)) c tasks rest := by
  have hother : ∀ u, u ≠ t → ((k.setState t state).Dead u ↔ k.Dead u) := fun u hu => by
    rw [Dead, state_setState, if_neg hu, Dead]
  refine ⟨rfl, rfl, rfl, fun u => runQueueCpu_setState .., fun u hu hfree => ?_, fun u hu => ?_,
    waits_of_same rfl, htasks⟩
  · refine (hother u ?_).mpr hu
    rintro rfl
    rcases ht with ⟨d, hd⟩ | ht
    · exact hfree d hd
    · exact ht hu
  · by_cases hut : u = t
    · subst hut
      exact Or.inr (hdies hu)
    · exact Or.inl ((hother u hut).mp hu)

theorem plain_markThreadReady (tasks : List Task) (htasks : ∀ task ∈ tasks, Harmless k task)
    (ht : k.MayWait t) :
    ∃ tasks', Plain k (k.markThreadReady c t target leastLoaded (tasks ++ rest)) c tasks' rest := by
  unfold markThreadReady
  split
  · exact ⟨tasks, plain_setWork tasks htasks⟩
  · rename_i hdead
    refine ⟨.enqueue t (k.selectTargetCpu c t target leastLoaded) :: tasks,
      plain_setState _ (List.forall_mem_cons.mpr ⟨?_, htasks⟩) (Or.inr hdead) (by simp [Dead])⟩
    exact ⟨rfl, by simp, by simpa [Task.threads] using ht⟩

theorem plain_wakeBlockedThread (tasks : List Task) (htasks : ∀ task ∈ tasks, Harmless k task)
    (ht : k.MayWait t) : ∃ tasks',
      Plain k (k.wakeBlockedThread c t target leastLoaded (tasks ++ rest)) c tasks' rest := by
  unfold wakeBlockedThread
  split
  · rename_i hcur
    exact ⟨tasks, plain_setState tasks htasks (Or.inl ⟨c, Or.inl hcur⟩) (by simp [Dead])⟩
  · exact plain_markThreadReady tasks htasks ht

theorem plain_keepCurrent (keep : Bool) :
    ∃ tasks', Plain k (k.keepCurrent c keep rest) c tasks' rest := by
  unfold keepCurrent
  split
  · exact ⟨[], plain_pop⟩
  · rename_i t ht
    split
    · rename_i hkeep
      exact plain_markThreadReady [] (by simp) (Or.inr ⟨c, Or.inl ht, hkeep.2.1⟩)
    · exact ⟨[], plain_pop⟩

theorem plain_beginWake (tasks : List Task) (htasks : ∀ task ∈ tasks, Harmless k task)
    (all : Bool) :
    ∃ tasks', Plain k (k.beginWake c q all target (tasks ++ rest)) c tasks' rest := by
  refine ⟨.wake q (if all then k.waiters q else (k.waiters q).take 1) [] target :: tasks,
    (plain_setWork _ (List.forall_mem_cons.mpr
      ⟨⟨rfl, by simp, fun t ht => ?_⟩, htasks⟩)).setWaiters q (fun t ht => ?_)⟩
  · rw [Task.threads, List.append_nil] at ht
    split at ht
    · exact waits_of_waiters ht
    · exact waits_of_waiters (List.mem_of_mem_take ht)
  · split at ht
    · exact absurd ht (by simp)
    · exact waits_of_waiters (List.mem_of_mem_drop ht)

end Plain

theorem mem_foldl_waitQueueEnqueue {l : List Nat} (still : List Nat)
    (ht : t ∈ still.foldl waitQueueEnqueue l) : t ∈ l ∨ t ∈ still := by
  induction still generalizing l with
  | nil => exact Or.inl ht
  | cons u still ih =>
    rcases ih ht with ht | ht
    · unfold waitQueueEnqueue at ht
      split at ht
      · exact Or.inl ht
      · rcases List.mem_append.mp ht with ht | ht
        · exact Or.inl ht
        · exact Or.inr (List.mem_cons.mpr (Or.inl (List.mem_singleton.mp ht)))
    · exact Or.inr (List.mem_cons_of_mem _ ht)

theorem chooseDonor_eq (k : Kernel) (target : Nat) (depths : Depths) (now : BitVec 64)
    (force : Bool) : k.chooseDonor target depths now force = [] ∨
      ∃ donor depth, k.chooseDonor target depths now force =
        [.migrate donor target depth now force] := by
  simp only [chooseDonor]
  split
  · exact Or.inl rfl
  · split
    · exact Or.inr ⟨_, _, rfl⟩
    · exact Or.inl rfl

/-- What a task does that moves no thread: a plain step, the end of a switch or a step of the
reaper. -/
theorem advance_cases (choice : Choice) (hw : (k.cpu c).work = task :: rest)
    (hm : task.Moving = false) :
    (∃ tasks, Plain k (k.advance c choice rest task) c tasks rest) ∨ (∃ t, task = .leaveStack t) ∨
      (∃ t, task = .reapScan ∧ k.deadThread = some t) ∨ ∃ t page, task = .reapFree t page := by
  have hown : ∀ t ∈ task.threads, k.MayWait t := fun t ht => Or.inl (waits_of_task hw ht)
  have hpush : ∀ task', Harmless k task' →
      ∃ tasks, Plain k (k.setWork c (task' :: rest)) c tasks rest :=
    fun task' h => ⟨[task'], plain_setWork [task'] (List.forall_mem_singleton.mpr h)⟩
  cases task with
  | wake queue threads stillWaiting target =>
    refine Or.inl ?_
    cases threads with
    | nil =>
      refine ⟨[], plain_pop.setWaiters queue (fun t ht => ?_)⟩
      rcases mem_foldl_waitQueueEnqueue stillWaiting ht with ht | ht
      · exact waits_of_waiters ht
      · exact hown t (by simpa [Task.threads] using ht)
    | cons t threads =>
      rw [advance]
      split
      · refine hpush _ ⟨rfl, by simp, fun u hu => hown u ?_⟩
        simp only [Task.threads, List.mem_append, List.mem_cons] at hu ⊢
        grind
      · refine plain_wakeBlockedThread [.wake queue threads stillWaiting target]
          (List.forall_mem_singleton.mpr ⟨rfl, by simp, fun u hu => hown u ?_⟩)
          (hown t (by simp [Task.threads]))
        exact List.mem_cons_of_mem _ hu
  | keepCurrent keep => exact Or.inl (plain_keepCurrent keep)
  | restoreThread next =>
    cases next with
    | none => exact Or.inl ⟨[], plain_pop⟩
    | some t => simp [Task.Moving] at hm
  | restoreFrame => exact Or.inl ⟨[], plain_pop⟩
  | leaveStack t => exact Or.inr (Or.inl ⟨t, rfl⟩)
  | snapshot left target depths now force =>
    refine Or.inl ?_
    cases left with
    | nil =>
      rw [advance]
      rcases k.chooseDonor_eq target depths now force with heq | ⟨donor, depth, heq⟩ <;> rw [heq]
      · exact ⟨[], plain_pop⟩
      · exact hpush _ ⟨rfl, by simp, by simp [Task.threads]⟩
    | cons owner left => exact hpush _ ⟨rfl, by simp, by simp [Task.threads]⟩
  | reapScan =>
    rw [advance]
    split
    · exact Or.inl ⟨[], plain_pop⟩
    · rename_i t ht
      exact Or.inr (Or.inr (Or.inl ⟨t, rfl, ht⟩))
  | reapFree t page => exact Or.inr (Or.inr (Or.inr ⟨t, page, rfl⟩))
  | reapOwner =>
    have hscan : Harmless k .reapScan := ⟨rfl, by simp, by simp [Task.threads]⟩
    rw [advance]
    split
    · exact Or.inl (hpush _ hscan)
    · exact Or.inl (plain_beginWake [.reapScan] (by simpa using hscan) true)
  | enqueue | pickNext | migrate | clearThread => simp [Task.Moving] at hm

/-- All other tasks leave run queues and held threads alone. -/
theorem rewrites_advance {choice : Choice} (hw : (k.cpu c).work = task :: rest)
    (hm : task.Moving = false) : Rewrites k (k.advance c choice rest task) c := by
  have hrest : ∀ task' ∈ rest, task' ∈ (k.cpu c).work := fun task' => mem_work_of_rest hw
  rcases advance_cases choice hw hm with ⟨tasks, h⟩ | ⟨t, rfl⟩ | ⟨t, rfl, ht⟩ |
    ⟨t, page, rfl⟩
  · exact h.rewrites hrest
  · refine Rewrites.of_setStack (k.stackOf t) (rewrites_tasks [] rfl ?_ (fun _ => rfl)
      (waits_of_same rfl) (by simp) (by simp))
    simpa using hrest
  · rw [advance, ht]
    exact rewrites_tasks [.reapFree t 0] rfl hrest (fun _ => rfl) (waits_of_same rfl)
      (by simp) (by simp [Task.threads])
  · rw [advance]
    split
    · exact rewrites_tasks [.reapFree t (page + 1)] rfl hrest (fun _ => rfl)
        (waits_of_same rfl) (by simp) (by simp [Task.threads])
    · exact rewrites_tasks [.clearThread t] rfl hrest (fun _ => rfl)
        (waits_of_same rfl) (by simp) (by simp [Task.threads])

theorem setWork_self (hw : (k.cpu c).work = work) : k.setWork c work = k := by
  have hcpu : (fun d => if d = c then { k.cpu d with work := work } else k.cpu d) = k.cpu := by
    funext d
    split
    next hd => rw [hd, ← hw]
    next => rfl
  rw [setWork, setCpu, hcpu]

/-- A call only hands out tasks, or blocks or ends the current thread. -/
theorem begin_plain {call : Call} (hw : (k.cpu c).work = []) (hcall : call ≠ .resume) :
    ∃ tasks, Plain k (k.begin c call) c tasks [] := by
  have hsame : ∃ tasks, Plain k k c tasks [] := by
    have h : Plain k (k.setWork c []) c [] [] := plain_pop
    rw [setWork_self hw] at h
    exact ⟨[], h⟩
  have htasks : ∀ tasks, (∀ task ∈ tasks, Harmless k task) →
      ∃ tasks', Plain k (k.setWork c tasks) c tasks' [] := fun tasks htasks => by
    have h : Plain k (k.setWork c (tasks ++ [])) c tasks [] := plain_setWork tasks htasks
    rw [List.append_nil] at h
    exact ⟨tasks, h⟩
  -- A current thread other than the idle one gets a new state.
  have hstate : ∀ t state, (k.cpu c).current = some t → (k.cpu c).idle ≠ some t →
      Plain k (k.setState t state) c [] [] := fun t state ht hidle => by
    have h : Plain k ((k.setState t state).setWork c ([] ++ [])) c [] [] :=
      plain_setState [] (by simp) (Or.inl ⟨c, Or.inl ht⟩) fun _ => ⟨ht, hidle⟩
    rwa [List.append_nil, setWork_self (k := k.setState t state) hw] at h
  cases call with
  | block queue completionDone =>
    rw [begin]
    split
    · exact hsame
    rename_i hidle
    unfold blockCurrentThread
    split
    · exact hsame
    rename_i t ht
    have hne : (k.cpu c).idle ≠ some t := fun heq => hidle (ht.trans heq.symm)
    split
    · exact hsame
    split
    · exact hsame
    · refine ⟨[], (hstate t .blocked ht hne).setWaiters queue (fun u hu => ?_)⟩
      rcases mem_foldl_waitQueueEnqueue [t] hu with hu | hu
      · exact waits_of_waiters hu
      · rw [List.mem_singleton.mp hu]
        exact Or.inr ⟨c, Or.inl ht, hne⟩
  | wake queue all target => exact plain_beginWake [] (by simp) all
  | scheduleNext keep =>
    rw [begin]
    split <;> exact htasks _ (by simp [Harmless, marks, Task.threads])
  | balance target now force =>
    rw [begin]
    split
    · exact htasks _ (by simp [Harmless, marks, Task.threads])
    · exact hsame
  | exit =>
    rw [begin]
    split
    · exact hsame
    · rename_i t ht
      split
      · exact hsame
      · rename_i hidle
        exact ⟨[], hstate t .dying ht hidle⟩
  | reap =>
    rw [begin]
    split
    · exact htasks _ (by simp [Harmless, marks, Task.threads])
    · exact hsame
  | resume => exact (hcall rfl).elim

theorem rewrites_call {call : Call} (hw : (k.cpu c).work = []) :
    Rewrites k ((k.enter c).begin c call) c := by
  refine Rewrites.of_setStack (k.cpu c).current ?_
  by_cases hcall : call = .resume
  · rw [hcall]
    exact Rewrites.of_setStack _ (Rewrites.refl _ c)
  · obtain ⟨tasks, h⟩ := begin_plain ((work_setStack k c c _).trans hw) hcall
    exact h.rewrites (by simp)

/-! ## The moving tasks -/

/-- `enqueue_thread_on_cpu` changes nothing that matters here, or it appends the thread. -/
theorem enqueueThreadOnCpu_cases (k : Kernel) (t target : Nat) :
    ((k.enqueueThreadOnCpu t target).cpu = k.cpu ∧ ((k.cpu target).idle = some t ∨
      ∀ u, ((k.enqueueThreadOnCpu t target).thread u).runQueueCpu = (k.thread u).runQueueCpu)) ∨
    ((k.thread t).runQueueCpu = none ∧
      (∀ d, (k.enqueueThreadOnCpu t target).cpu d =
        if d = target then { k.cpu d with runq := (k.cpu d).runq ++ [t] } else k.cpu d) ∧
      ∀ u, ((k.enqueueThreadOnCpu t target).thread u).runQueueCpu =
        if u = t then some target else (k.thread u).runQueueCpu) := by
  simp only [enqueueThreadOnCpu, cpu_setThread, thread_setThread, if_true]
  by_cases hidle : (k.cpu target).idle = some t
  · rw [if_pos hidle]
    exact Or.inl ⟨rfl, Or.inl hidle⟩
  · rw [if_neg hidle]
    by_cases hq : (k.thread t).runQueueCpu = none
    · rw [if_neg (by simp [hq])]
      refine Or.inr ⟨hq, fun d => rfl, fun u => ?_⟩
      simp only [thread_setThread, thread_setCpu]
      split <;> rfl
    · rw [if_pos hq]
      refine Or.inl ⟨rfl, Or.inr (fun u => ?_)⟩
      rw [thread_setThread]
      split <;> rfl

theorem waiters_enqueueThreadOnCpu (k : Kernel) (t target : Nat) :
    (k.enqueueThreadOnCpu t target).waiters = k.waiters := by
  simp only [enqueueThreadOnCpu]
  split
  · rfl
  · split <;> rfl

/-- CPU `c` gets other tasks; no CPU moves to another thread or stack. -/
def Retasks (k k' : Kernel) (c : Nat) (tasks : List Task) : Prop :=
  ∀ d, (k'.cpu d).current = (k.cpu d).current ∧ (k'.cpu d).stack = (k.cpu d).stack ∧
    (k'.cpu d).work = if d = c then tasks else (k.cpu d).work

theorem retasks_setWork (hcpu : k'.cpu = (k.setWork c work).cpu) : Retasks k k' c work := by
  intro d
  rw [hcpu, setWork, cpu_setCpu]
  split <;> exact ⟨rfl, rfl, rfl⟩

/-- Run queues and idle threads may change meanwhile. -/
theorem retasks_of_runq (hcpu : ∀ d, ∃ runq idle, k'.cpu d =
    { k.cpu d with runq := runq, idle := idle }) : Retasks k (k'.setWork c work) c work := by
  intro d
  obtain ⟨runq, idle, heq⟩ := hcpu d
  rw [setWork, cpu_setCpu, heq]
  split <;> exact ⟨rfl, rfl, rfl⟩

/-- After its topmost task a CPU holds what it held before, and what the new tasks restore. -/
theorem holds_push (new : List Task) (hw : (k.cpu c).work = task :: rest)
    (hcpu : Retasks k k' c (new ++ rest)) (hd : k'.Holds d t) :
    k.Holds d t ∨ (d = c ∧ .restoreThread (some t) ∈ new) := by
  rcases hd with hd | hd
  · exact Or.inl (Or.inl ((hcpu d).1 ▸ hd))
  · rw [(hcpu d).2.2] at hd
    split at hd
    next hdc =>
      subst hdc
      rcases List.mem_append.mp hd with hd | hd
      · exact Or.inr ⟨rfl, hd⟩
      · exact Or.inl (Or.inr (mem_work_of_rest hw hd))
    next => exact Or.inl (Or.inr hd)

/-- Dropping the topmost task of a CPU. -/
theorem holds_pop (hw : (k.cpu c).work = task :: rest) (hcpu : Retasks k k' c rest)
    (hd : k'.Holds d t) : k.Holds d t :=
  (holds_push [] hw hcpu hd).resolve_right (by simp)

/-- What a task can move: it ends, and the tasks after it wake nobody. -/
theorem moves_push (new : List Task) (hw : (k.cpu c).work = task :: rest)
    (hcpu : Retasks k k' c (new ++ rest))
    (hidle : ∀ d t, (k'.cpu d).idle = some t → (k.cpu d).idle = some t)
    (hwait : k'.waiters = k.waiters) (hnew : ∀ task' ∈ new, task'.threads = [])
    (hchosen : ∀ t, .restoreThread (some t) ∈ new →
      (k.cpu c).idle = some t ∨ t ∈ (k.cpu c).runq)
    (hqueued : ∀ d t, t ∈ (k'.cpu d).runq → (∃ e, t ∈ (k.cpu e).runq) ∨ k.Waits t) :
    Moves k k' := by
  refine ⟨hidle, fun d u hd => ?_, hqueued, fun u hu => Or.inl ?_⟩
  · rcases holds_push new hw hcpu hd with hd | ⟨rfl, hu⟩
    · exact Or.inl hd
    · exact Or.inr (hchosen u hu)
  · rcases hu with ⟨q, hq⟩ | ⟨d, task', hd, hu⟩
    · exact Or.inl ⟨q, hwait ▸ hq⟩
    · rw [(hcpu d).2.2] at hd
      split at hd
      next hdc =>
        subst hdc
        rcases List.mem_append.mp hd with hd | hd
        · rw [hnew task' hd] at hu
          cases hu
        · exact Or.inr ⟨d, task', mem_work_of_rest hw hd, hu⟩
      next => exact Or.inr ⟨d, task', hd, hu⟩

theorem retasks_enqueue {target : Nat} :
    Retasks k ((k.enqueueThreadOnCpu t target).setWork c rest) c rest := by
  refine retasks_of_runq fun d => ?_
  rcases k.enqueueThreadOnCpu_cases t target with ⟨hcpu, -⟩ | ⟨-, hcpu, -⟩ <;> rw [hcpu]
  · exact ⟨_, _, rfl⟩
  · split <;> exact ⟨_, _, rfl⟩

theorem moves_enqueue {target : Nat} (hw : (k.cpu c).work = .enqueue t target :: rest) :
    Moves k ((k.enqueueThreadOnCpu t target).setWork c rest) := by
  have hcpu := k.enqueueThreadOnCpu_cases t target
  refine moves_push [] hw retasks_enqueue (fun d u hd => ?_)
    (waiters_enqueueThreadOnCpu k t target) (by simp) (by simp) (fun d u hd => ?_)
  · rw [idle_setWork] at hd
    rcases hcpu with ⟨hcpu, -⟩ | ⟨-, hcpu, -⟩ <;> rw [hcpu] at hd
    · exact hd
    · split at hd <;> exact hd
  · rw [runq_setWork] at hd
    rcases hcpu with ⟨hcpu, -⟩ | ⟨-, hcpu, -⟩
    · exact Or.inl ⟨d, hcpu ▸ hd⟩
    · rw [hcpu] at hd
      split at hd
      · rcases List.mem_append.mp hd with hd | hd
        · exact Or.inl ⟨d, hd⟩
        · exact Or.inr (waits_of_task hw hd)
      · exact Or.inl ⟨d, hd⟩

/-- The state after the head of the run queue has been taken. -/
def takeHead (k : Kernel) (c t : Nat) (runq : List Nat) : Kernel :=
  (k.setCpu c fun cpu => { cpu with runq := runq }).setThread t
    fun th => { th with runQueueCpu := none }

theorem pickNext_cases (k : Kernel) (c : Nat) (rest : List Task) :
    ((k.cpu c).runq = [] ∧ (k.cpu c).idle = none ∧
      k.pickNext c rest = k.setWork c (.restoreThread none :: rest)) ∨
    (∃ t, (k.cpu c).runq = [] ∧ (k.cpu c).idle = some t ∧ k.pickNext c rest =
      (k.setState t .running).setWork c (.restoreThread (some t) :: rest)) ∨
    ∃ t runq, (k.cpu c).runq = t :: runq ∧ k.pickNext c rest =
      ((k.takeHead c t runq).setState t .running).setWork c (.restoreThread (some t) :: rest) := by
  cases hq : (k.cpu c).runq with
  | nil =>
    have hpick : k.dequeueReadyThread c = (none, k) := by
      unfold dequeueReadyThread
      rw [hq]
    cases hidle : (k.cpu c).idle with
    | none =>
      refine Or.inl ⟨rfl, rfl, ?_⟩
      simp [pickNext, hpick, hidle]
    | some t =>
      refine Or.inr (Or.inl ⟨t, rfl, rfl, ?_⟩)
      simp [pickNext, hpick, hidle]
  | cons t runq =>
    have hpick : k.dequeueReadyThread c = (some t, k.takeHead c t runq) := by
      unfold dequeueReadyThread
      rw [hq]
      rfl
    refine Or.inr (Or.inr ⟨t, runq, rfl, ?_⟩)
    simp [pickNext, hpick]

theorem retasks_takeHead {runq : List Nat} {state : ThreadState} :
    Retasks k (((k.takeHead c t runq).setState t state).setWork c work) c work := by
  refine retasks_of_runq fun d => ?_
  simp only [cpu_setState, takeHead, cpu_setThread, cpu_setCpu]
  split <;> exact ⟨_, _, rfl⟩

section TakeHead

variable (k) (c d t u : Nat) (runq : List Nat)

@[simp] theorem idle_takeHead : ((k.takeHead c t runq).cpu d).idle = (k.cpu d).idle := by
  simp only [takeHead, cpu_setThread, cpu_setCpu]
  split <;> rfl

@[simp] theorem runq_takeHead :
    ((k.takeHead c t runq).cpu d).runq = if d = c then runq else (k.cpu d).runq := by
  simp only [takeHead, cpu_setThread, cpu_setCpu]
  split <;> rfl

@[simp] theorem waiters_takeHead : (k.takeHead c t runq).waiters = k.waiters := rfl

@[simp] theorem runQueueCpu_takeHead : ((k.takeHead c t runq).thread u).runQueueCpu =
    if u = t then none else (k.thread u).runQueueCpu := by
  simp only [takeHead, thread_setThread, thread_setCpu]
  split <;> rfl

end TakeHead

theorem moves_pickNext (hw : (k.cpu c).work = task :: rest) : Moves k (k.pickNext c rest) := by
  rcases k.pickNext_cases c rest with ⟨-, -, heq⟩ | ⟨t, -, hidle, heq⟩ | ⟨t, runq, hq, heq⟩ <;>
    rw [heq]
  · exact moves_push [.restoreThread none] hw (retasks_setWork rfl)
      (fun d u hd => by simpa using hd) rfl (by simp [Task.threads]) (by simp)
      (fun d u hd => Or.inl ⟨d, by simpa using hd⟩)
  · refine moves_push [.restoreThread (some t)] hw (retasks_setWork rfl)
      (fun d u hd => by simpa using hd) rfl (by simp [Task.threads]) (fun u hu => Or.inl ?_)
      (fun d u hd => Or.inl ⟨d, by simpa using hd⟩)
    simp only [List.mem_singleton, Task.restoreThread.injEq, Option.some.injEq] at hu
    rw [hidle, hu]
  · refine moves_push [.restoreThread (some t)] hw retasks_takeHead
      (fun d u hd => by simpa using hd) rfl (by simp [Task.threads]) (fun u hu => Or.inr ?_)
      (fun d u hd => Or.inl ⟨d, ?_⟩)
    · simp only [List.mem_singleton, Task.restoreThread.injEq, Option.some.injEq] at hu
      rw [hq, hu]
      exact List.mem_cons_self
    · simp only [runq_setWork, cpu_setState, runq_takeHead] at hd
      split at hd
      · rename_i hdc
        rw [hdc, hq]
        exact List.mem_cons_of_mem _ hd
      · exact hd

theorem holds_restoreThread (hw : (k.cpu c).work = .restoreThread (some t) :: rest)
    (hd : (k.restoreThread c (some t) rest).Holds d u) : k.Holds d u := by
  have hcpu : ∀ d, (k.restoreThread c (some t) rest).cpu d = if d = c then
      { k.cpu d with current := some t, work := [.restoreFrame, .leaveStack t] } else k.cpu d :=
    fun d => rfl
  rw [Holds, hcpu] at hd
  split at hd
  · rename_i hdc
    subst hdc
    rcases hd with hd | hd
    · rw [← Option.some.inj hd]
      exact Or.inr (by rw [hw]; exact List.mem_cons_self)
    · exact absurd hd (by simp)
  · exact hd

theorem moves_restoreThread (hw : (k.cpu c).work = .restoreThread (some t) :: rest) :
    Moves k (k.restoreThread c (some t) rest) := by
  have hcpu : ∀ d, (k.restoreThread c (some t) rest).cpu d = if d = c then
      { k.cpu d with current := some t, work := [.restoreFrame, .leaveStack t] } else k.cpu d :=
    fun d => rfl
  refine ⟨fun d u hd => ?_, fun d u hd => Or.inl (holds_restoreThread hw hd),
    fun d u hd => Or.inl ⟨d, ?_⟩, fun u hu => Or.inl ?_⟩
  · rw [hcpu] at hd
    split at hd <;> exact hd
  · rw [hcpu] at hd
    split at hd <;> exact hd
  · rcases hu with ⟨q, hq⟩ | ⟨d, task', hd, hm⟩
    · exact Or.inl ⟨q, hq⟩
    · rw [hcpu] at hd
      split at hd
      · rcases List.mem_cons.mp hd with rfl | hd
        · exact absurd hm (by simp [Task.threads])
        · rw [List.mem_singleton.mp hd] at hm
          exact absurd hm (by simp [Task.threads])
      · exact Or.inr ⟨d, task', hd, hm⟩

theorem foldl_last_mem {p : Nat → Bool} {l : List Nat} {a : Option Nat}
    (h : l.foldl (fun candidate t => if p t then some t else candidate) a = some t) :
    t ∈ l ∨ a = some t := by
  induction l generalizing a with
  | nil => exact Or.inr h
  | cons u l ih =>
    rcases ih h with ht | ht
    · exact Or.inl (List.mem_cons_of_mem _ ht)
    · dsimp only at ht
      split at ht
      · rw [← Option.some.inj ht]
        exact Or.inl List.mem_cons_self
      · exact Or.inr ht

theorem lastMigratable_mem {donor receiver : Nat} {now : BitVec 64}
    (h : k.lastMigratable donor receiver now = some t) : t ∈ (k.cpu donor).runq :=
  (foldl_last_mem h).resolve_right (by simp)

/-- Moving the thread `t` from the donor's run queue to the target's. -/
theorem migrate_cases (k : Kernel) (donor target targetDepth : Nat) (now : BitVec 64)
    (force : Bool) : k.migrate donor target targetDepth now force = k ∨
      ∃ t, k.lastMigratable donor target now = some t ∧
        (∀ d, (k.migrate donor target targetDepth now force).cpu d = { k.cpu d with
          runq := (if d = donor then (k.cpu d).runq.erase t else (k.cpu d).runq) ++
            if d = target then [t] else [] }) ∧
        (∀ u, ((k.migrate donor target targetDepth now force).thread u).runQueueCpu =
          if u = t then some target else (k.thread u).runQueueCpu) ∧
        (∀ u, ((k.migrate donor target targetDepth now force).thread u).state =
          (k.thread u).state) ∧
        (k.migrate donor target targetDepth now force).waiters = k.waiters := by
  unfold migrate
  split
  · cases ht : k.lastMigratable donor target now with
    | none => exact Or.inl rfl
    | some t =>
      refine Or.inr ⟨t, rfl, fun d => ?_, fun u => ?_, fun u => ?_, rfl⟩
      · simp only [cpu_setThread, cpu_setCpu]
        split <;> split <;> simp
      · simp only [thread_setThread, thread_setCpu]
        split <;> rfl
      · simp only [thread_setThread, thread_setCpu]
        split <;> rfl
  · exact Or.inl rfl

theorem retasks_migrate {donor target targetDepth : Nat} {now : BitVec 64} {force : Bool} :
    Retasks k ((k.migrate donor target targetDepth now force).setWork c rest) c rest := by
  refine retasks_of_runq fun d => ?_
  rcases k.migrate_cases donor target targetDepth now force with heq | ⟨t, -, hcpu, -⟩
  · exact ⟨_, _, by rw [heq]⟩
  · exact ⟨_, _, hcpu d⟩

theorem moves_migrate {donor target targetDepth : Nat} {now : BitVec 64} {force : Bool}
    (hw : (k.cpu c).work = .migrate donor target targetDepth now force :: rest) :
    Moves k ((k.migrate donor target targetDepth now force).setWork c rest) := by
  rcases k.migrate_cases donor target targetDepth now force with heq | ⟨t, ht, hcpu, -, -, hwait⟩
  · rw [heq]
    exact moves_push [] hw (retasks_setWork rfl) (fun d u hd => by simpa using hd) rfl (by simp)
      (by simp) (fun d u hd => Or.inl ⟨d, by simpa using hd⟩)
  · refine moves_push [] hw retasks_migrate (fun d u hd => ?_) hwait (by simp) (by simp)
      (fun d u hd => Or.inl ?_)
    · rw [idle_setWork, hcpu] at hd
      exact hd
    · rw [runq_setWork, hcpu] at hd
      rcases List.mem_append.mp hd with hd | hd
      · split at hd
        · exact ⟨d, List.mem_of_mem_erase hd⟩
        · exact ⟨d, hd⟩
      · split at hd
        · rw [List.mem_singleton.mp hd]
          exact ⟨donor, lastMigratable_mem ht⟩
        · cases hd

theorem retasks_clearThread :
    Retasks k ((k.clearThread t).setWork c work) c work :=
  retasks_of_runq fun _ => ⟨_, _, rfl⟩

theorem moves_clearThread (hw : (k.cpu c).work = .clearThread t :: rest) :
    Moves k ((k.clearThread t).setWork c (.reapOwner :: rest)) := by
  refine moves_push [.reapOwner] hw retasks_clearThread (fun d u hd => ?_) rfl
    (by simp [Task.threads]) (by simp) (fun d u hd => Or.inl ⟨d, ?_⟩)
  · rw [idle_setWork] at hd
    simp only [clearThread] at hd
    split at hd
    · cases hd
    · exact hd
  · simp only [runq_setWork, clearThread] at hd
    split at hd
    · exact List.mem_of_mem_erase hd
    · exact hd

/-! ## One CPU at a time -/

/-- Run queues agree with `run_queue_cpu`; a thread is held by one CPU at most, and a held thread
is on no other CPU's run queue. -/
structure Consistent (k : Kernel) : Prop where
  idle : IdleOwn k
  queued : ∀ t e, t ∈ (k.cpu e).runq ↔ (k.thread t).runQueueCpu = some e
  nodup : ∀ e, (k.cpu e).runq.Nodup
  single : ∀ t d e, k.Holds d t → k.Holds e t → d = e
  together : ∀ t d e, k.Holds d t → t ∈ (k.cpu e).runq → d = e

theorem Consistent.of_quiet (h : Consistent k) (hidle : IdleOwn k')
    (hrunq : ∀ e, (k'.cpu e).runq = (k.cpu e).runq)
    (hqueue : ∀ t, (k'.thread t).runQueueCpu = (k.thread t).runQueueCpu)
    (hheld : ∀ d t, k'.Holds d t → k.Holds d t) : Consistent k' := by
  refine ⟨hidle, fun t e => ?_, fun e => ?_, fun t d e hd he =>
    h.single t d e (hheld d t hd) (hheld e t he), fun t d e hd he => ?_⟩
  · rw [hrunq, hqueue]
    exact h.queued t e
  · rw [hrunq]
    exact h.nodup e
  · rw [hrunq] at he
    exact h.together t d e (hheld d t hd) he

/-- No thread is handed over while another CPU has it: a thread is put on a run queue only if no
other CPU holds it, and is migrated only if no CPU does. -/
def HandsOver (k : Kernel) : Action → Prop
  | .call _ _ => True
  | .advance c _ =>
    match (k.cpu c).work with
    | .enqueue t target :: _ => (k.thread t).runQueueCpu = none → ∀ d, k.Holds d t → d = target
    | .migrate donor target _ now _ :: _ =>
      ∀ t, k.lastMigratable donor target now = some t → ∀ d, ¬ k.Holds d t
    | _ => True

theorem Consistent.not_mem_of_none (h : Consistent k) (ht : (k.thread t).runQueueCpu = none) :
    t ∉ (k.cpu e).runq := fun hmem => by
  rw [(h.queued t e).mp hmem] at ht
  exact absurd ht (by simp)

/-- The thread `t` is taken off its run queue; the CPU that takes it to run it is the only one that
may have it already. -/
theorem Consistent.removed (h : Consistent k) (hidle : IdleOwn k')
    (hheld : ∀ d u, k'.Holds d u →
      k.Holds d u ∨ (d = c ∧ u = t ∧ ∀ e, k.Holds e t → e = c))
    (hrunq : ∀ u e, u ∈ (k'.cpu e).runq ↔ u ≠ t ∧ u ∈ (k.cpu e).runq)
    (hqueue : ∀ u, (k'.thread u).runQueueCpu = if u = t then none else (k.thread u).runQueueCpu)
    (hnodup : ∀ e, (k'.cpu e).runq.Nodup) : Consistent k' := by
  refine ⟨hidle, fun u e => ?_, hnodup, fun u d e hd he => ?_, fun u d e hd he => ?_⟩
  · rw [hrunq, hqueue, h.queued u e]
    by_cases hu : u = t <;> simp [hu]
  · rcases hheld d u hd with hd | ⟨rfl, rfl, hown⟩ <;>
      rcases hheld e u he with he | ⟨rfl, hu, hown'⟩
    · exact h.single u d e hd he
    · exact hown' d (hu ▸ hd)
    · exact (hown e he).symm
    · rfl
  · obtain ⟨hne, he⟩ := (hrunq u e).mp he
    rcases hheld d u hd with hd | ⟨-, hu, -⟩
    · exact h.together u d e hd he
    · exact absurd hu hne

/-- The thread `t` is put on the run queue of `target`, which alone may have it. -/
theorem Consistent.moved (h : Consistent k) (target : Nat) (hidle : IdleOwn k')
    (hheld : ∀ d u, k'.Holds d u → k.Holds d u) (hown : ∀ d, k.Holds d t → d = target)
    (hrunq : ∀ u e, u ∈ (k'.cpu e).runq ↔ if u = t then e = target else u ∈ (k.cpu e).runq)
    (hqueue : ∀ u, (k'.thread u).runQueueCpu =
      if u = t then some target else (k.thread u).runQueueCpu)
    (hnodup : ∀ e, (k'.cpu e).runq.Nodup) : Consistent k' := by
  refine ⟨hidle, fun u e => ?_, hnodup, fun u d e hd he =>
    h.single u d e (hheld d u hd) (hheld e u he), fun u d e hd he => ?_⟩
  · rw [hrunq, hqueue]
    by_cases hu : u = t
    · simp [hu, eq_comm]
    · simp [hu, h.queued u e]
  · rw [hrunq] at he
    split at he
    next hu => rw [he, hown d (hu ▸ hheld d u hd)]
    next => exact h.together u d e (hheld d u hd) he

/-- The run queues without the thread `t`, of which `runq` is that of its CPU. -/
theorem Consistent.mem_removed {runq : List Nat} (h : Consistent k) (ht : t ∈ (k.cpu c).runq)
    (hmem : ∀ u, u ∈ runq ↔ u ≠ t ∧ u ∈ (k.cpu c).runq) (u e : Nat) :
    u ∈ (if e = c then runq else (k.cpu e).runq) ↔ u ≠ t ∧ u ∈ (k.cpu e).runq := by
  split
  next he => rw [he, hmem]
  next he =>
    refine ⟨fun hu => ⟨?_, hu⟩, And.right⟩
    rintro rfl
    exact he (Option.some.inj (((h.queued u e).mp hu).symm.trans ((h.queued u c).mp ht)))

theorem Consistent.enqueue {target : Nat} (h : Consistent k)
    (hw : (k.cpu c).work = .enqueue t target :: rest)
    (hg : (k.thread t).runQueueCpu = none → ∀ d, k.Holds d t → d = target) :
    Consistent ((k.enqueueThreadOnCpu t target).setWork c rest) := by
  have hidle := h.idle.of_moves (moves_enqueue hw)
  have hheld : ∀ d u, ((k.enqueueThreadOnCpu t target).setWork c rest).Holds d u → k.Holds d u :=
    fun d u => holds_pop hw retasks_enqueue
  rcases k.enqueueThreadOnCpu_cases t target with ⟨hcpu, hown | hqueue⟩ | ⟨hnone, hcpu, hqueue⟩
  · exact (h.idle.notWaiting target t hown (waits_of_task hw (by simp [Task.threads]))).elim
  · exact h.of_quiet hidle (fun e => by rw [runq_setWork, hcpu]) hqueue hheld
  · have hrunq : ∀ e, (((k.enqueueThreadOnCpu t target).setWork c rest).cpu e).runq =
        (k.cpu e).runq ++ if e = target then [t] else [] := by
      intro e
      rw [runq_setWork, hcpu]
      split <;> simp
    have hout {e : Nat} : t ∉ (k.cpu e).runq := h.not_mem_of_none hnone
    refine h.moved target hidle hheld (hg hnone) (fun u e => ?_) hqueue (fun e => ?_)
    · rw [hrunq, List.mem_append]
      by_cases hu : u = t
      · by_cases he : e = target <;> simp [hu, he, hout]
      · by_cases he : e = target <;> simp [hu, he]
    · rw [hrunq]
      split
      · exact List.nodup_append.mpr ⟨h.nodup e, by simp, fun u hu v hv heq =>
          hout (List.mem_singleton.mp hv ▸ heq ▸ hu)⟩
      · rw [List.append_nil]
        exact h.nodup e

theorem Consistent.pickNext (h : Consistent k) (hw : (k.cpu c).work = task :: rest) :
    Consistent (k.pickNext c rest) := by
  have hidle := h.idle.of_moves (moves_pickNext hw)
  rcases k.pickNext_cases c rest with ⟨-, -, heq⟩ | ⟨t, -, hown, heq⟩ | ⟨t, runq, hq, heq⟩ <;>
    rw [heq] at hidle ⊢
  · refine h.of_quiet hidle (fun e => by simp) (fun u => by simp) (fun d u hd => ?_)
    exact (holds_push [.restoreThread none] hw (retasks_setWork rfl) hd).resolve_right (by simp)
  · have hout (e : Nat) : t ∉ (k.cpu e).runq := h.idle.unqueued e c t hown
    refine h.removed (c := c) (t := t) hidle (fun d u hd => ?_) (fun u e => ?_) (fun u => ?_)
      fun e => by simpa using h.nodup e
    · refine (holds_push [.restoreThread (some t)] hw (retasks_setWork rfl)
        hd).imp_right fun hu => ⟨hu.1, by simpa using hu.2, fun e he => ?_⟩
      exact h.idle.held e c t hown he
    · rw [runq_setWork]
      exact ⟨fun hu => ⟨fun heq => hout e (heq ▸ hu), hu⟩, And.right⟩
    · rw [thread_setWork, runQueueCpu_setState]
      split
      next hu =>
        cases hcpu : (k.thread u).runQueueCpu with
        | none => rfl
        | some e => exact absurd (hu ▸ (h.queued u e).mpr hcpu) (hout e)
      next => rfl
  · have htc : t ∈ (k.cpu c).runq := by
      rw [hq]
      exact List.mem_cons_self
    have hnd := h.nodup c
    rw [hq, List.nodup_cons] at hnd
    refine h.removed (c := c) (t := t) hidle (fun d u hd => ?_) (fun u e => ?_) (fun u => by simp)
      fun e => ?_
    · refine (holds_push [.restoreThread (some t)] hw retasks_takeHead
        hd).imp_right fun hu => ⟨hu.1, by simpa using hu.2, fun e he => ?_⟩
      exact h.together t e c he htc
    · simp only [runq_setWork, cpu_setState, runq_takeHead]
      refine h.mem_removed htc (fun u => ?_) u e
      rw [hq, List.mem_cons]
      exact ⟨fun hu => ⟨fun heq => hnd.1 (heq ▸ hu), Or.inr hu⟩, fun hu => hu.2.resolve_left hu.1⟩
    · simp only [runq_setWork, cpu_setState, runq_takeHead]
      split
      · exact hnd.2
      · exact h.nodup e

theorem Consistent.migrate {donor target targetDepth : Nat} {now : BitVec 64} {force : Bool}
    (h : Consistent k) (hw : (k.cpu c).work = .migrate donor target targetDepth now force :: rest)
    (hg : ∀ t, k.lastMigratable donor target now = some t → ∀ d, ¬ k.Holds d t) :
    Consistent ((k.migrate donor target targetDepth now force).setWork c rest) := by
  have hidle := h.idle.of_moves (moves_migrate hw)
  have hheld : ∀ d u, ((k.migrate donor target targetDepth now force).setWork c rest).Holds d u →
      k.Holds d u := fun d u => holds_pop hw retasks_migrate
  rcases k.migrate_cases donor target targetDepth now force with
    heq | ⟨t, ht, hcpu, hqueue, -, -⟩
  · rw [heq] at hidle hheld ⊢
    exact h.of_quiet hidle (fun e => by simp) (fun u => by simp) hheld
  · -- What is left of the run queues once the thread has been detached.
    have hleft (u e : Nat) : u ∈ (if e = donor then (k.cpu e).runq.erase t else (k.cpu e).runq) ↔
        u ≠ t ∧ u ∈ (k.cpu e).runq := by
      have hmem := h.mem_removed (lastMigratable_mem ht)
        (fun u => (h.nodup donor).mem_erase_iff) u e
      by_cases he : e = donor
      · simpa [he] using hmem
      · simpa [he] using hmem
    refine h.moved target (t := t) hidle hheld
      (fun d hd => absurd hd (hg t ht d)) (fun u e => ?_) hqueue (fun e => ?_)
    · rw [runq_setWork, hcpu, List.mem_append, hleft]
      by_cases hu : u = t
      · by_cases he : e = target <;> simp [hu, he]
      · by_cases he : e = target <;> simp [hu, he]
    · rw [runq_setWork, hcpu]
      refine List.nodup_append.mpr ⟨?_, ?_, fun u hu v hv heq => ?_⟩
      · split
        · exact (h.nodup e).erase t
        · exact h.nodup e
      · split <;> simp
      · split at hv
        · exact ((hleft u e).mp hu).1 (heq.trans (List.mem_singleton.mp hv))
        · cases hv

theorem Consistent.restoreThread (h : Consistent k)
    (hw : (k.cpu c).work = .restoreThread (some t) :: rest) :
    Consistent (k.restoreThread c (some t) rest) := by
  refine h.of_quiet (h.idle.of_moves (moves_restoreThread hw)) (fun e => ?_) (fun u => rfl)
    (fun d u => holds_restoreThread hw)
  simp only [Kernel.restoreThread, cpu_setCpu]
  split <;> rfl

theorem Consistent.clearThread (h : Consistent k)
    (hw : (k.cpu c).work = .clearThread t :: rest) :
    Consistent ((k.clearThread t).setWork c (.reapOwner :: rest)) := by
  refine h.removed (c := c) (t := t) (h.idle.of_moves (moves_clearThread hw)) (fun d u hd => ?_)
    (fun u e => ?_) (fun u => ?_) fun e => ?_
  · exact Or.inl ((holds_push [.reapOwner] hw retasks_clearThread hd).resolve_right (by simp))
  · rw [runq_setWork]
    simp only [Kernel.clearThread]
    split
    next => exact (h.nodup e).mem_erase_iff
    next hne =>
      refine ⟨fun hu => ⟨?_, hu⟩, And.right⟩
      rintro rfl
      exact hne ((h.queued u e).mp hu)
  · simp only [thread_setWork, Kernel.clearThread]
    split <;> rfl
  · rw [runq_setWork]
    simp only [Kernel.clearThread]
    split
    · exact (h.nodup e).erase t
    · exact h.nodup e

theorem Consistent.advance {choice : Choice} (h : Consistent k)
    (hw : (k.cpu c).work = task :: rest) (hg : HandsOver k (.advance c choice)) :
    Consistent (k.advance c choice rest task) := by
  by_cases hm : task.Moving = false
  · have hr : Rewrites k (k.advance c choice rest task) c := rewrites_advance hw hm
    exact h.of_quiet (h.idle.of_moves hr.moves) hr.runq hr.runQueueCpu (fun d t => hr.holds)
  · rw [HandsOver, hw] at hg
    cases task with
    | enqueue t target => exact h.enqueue hw hg
    | pickNext => exact h.pickNext hw
    | restoreThread next =>
      cases next with
      | none => exact (hm rfl).elim
      | some t => exact h.restoreThread hw
    | migrate donor target targetDepth now force => exact h.migrate hw hg
    | clearThread t => exact h.clearThread hw
    | _ => exact (hm rfl).elim

theorem Consistent.step {a : Action} (h : Consistent k) (hg : HandsOver k a) :
    Consistent (k.step a) := by
  cases a with
  | call c call =>
    rw [Kernel.step]
    split
    · rename_i hc
      have hr : Rewrites k ((k.enter c).begin c call) c := rewrites_call hc.2
      exact h.of_quiet (h.idle.of_moves hr.moves) hr.runq hr.runQueueCpu (fun d t => hr.holds)
    · exact h
  | advance c choice =>
    rw [Kernel.step]
    split
    · cases hw : (k.cpu c).work with
      | nil => exact h
      | cons task rest => exact h.advance hw hg
    · exact h

theorem moves_advance {choice : Choice} (hw : (k.cpu c).work = task :: rest) :
    Moves k (k.advance c choice rest task) := by
  cases task with
  | enqueue => exact moves_enqueue hw
  | pickNext => exact moves_pickNext hw
  | restoreThread next =>
    cases next with
    | none => exact (rewrites_advance hw rfl).moves
    | some => exact moves_restoreThread hw
  | migrate => exact moves_migrate hw
  | clearThread => exact moves_clearThread hw
  | _ => exact (rewrites_advance hw rfl).moves

theorem IdleOwn.step (h : IdleOwn k) (a : Action) : IdleOwn (k.step a) := by
  unfold Kernel.step
  split <;> split
  next hc => exact h.of_moves (rewrites_call hc.2).moves
  next => exact h
  next =>
    split
    next => exact h
    next hw => exact h.of_moves (moves_advance hw)
  next => exact h

/-! ## Runs -/

/-- The scheduler is running, and no CPU is inside it. -/
structure Started (k : Kernel) : Prop where
  work : ∀ c, (k.cpu c).work = []
  queued : ∀ t e, t ∈ (k.cpu e).runq ↔ (k.thread t).runQueueCpu = some e
  nodup : ∀ e, (k.cpu e).runq.Nodup
  single : ∀ t d e, (k.cpu d).current = some t → (k.cpu e).current = some t → d = e
  unqueued : ∀ t d e, (k.cpu d).current = some t → t ∉ (k.cpu e).runq
  idleHeld : ∀ t d e, (k.cpu e).idle = some t → (k.cpu d).current = some t → d = e
  idleUnqueued : ∀ t d e, (k.cpu e).idle = some t → t ∉ (k.cpu d).runq
  idleAwake : ∀ t e q, (k.cpu e).idle = some t → t ∉ k.waiters q
  idleDistinct : ∀ t d e, (k.cpu d).idle = some t → (k.cpu e).idle = some t → d = e

theorem Started.holds_iff (h : Started k) : k.Holds c t ↔ (k.cpu c).current = some t := by
  simp [Holds, h.work]

theorem Started.idleOwn (h : Started k) : IdleOwn k := by
  refine ⟨fun d e t he hd => h.idleHeld t d e he (h.holds_iff.mp hd),
    fun d e t he => h.idleUnqueued t d e he, fun e t he hw => ?_,
    fun d e t hd he => h.idleDistinct t d e hd he⟩
  rcases hw with ⟨q, hq⟩ | ⟨d, task, hd, -⟩
  · exact h.idleAwake t e q he hq
  · rw [h.work] at hd
    exact absurd hd (by simp)

/-- Two CPUs: the boot CPU runs thread 1 and has threads 2 and 3 queued, CPU 1 is idle. -/
def twoCpus : Kernel where
  boot := 0
  others := [1]
  cpu
    | 0 => { current := some 1, idle := some 10, runq := [2, 3], booted := true }
    | 1 => { current := some 11, idle := some 11, booted := true }
    | _ => {}
  thread
    | 1 => { state := .running, userMode := true, schedulerCpu := some 0, affinityMask := -1#64 }
    | 2 | 3 => { state := .ready, userMode := true, schedulerCpu := some 0, runQueueCpu := some 0,
                 affinityMask := -1#64 }
    | 10 => { state := .ready, schedulerCpu := some 0, affinityMask := -1#64 }
    | 11 => { state := .running, schedulerCpu := some 1, affinityMask := -1#64 }
    | _ => {}
  waiters _ := []
  registry := [10, 11, 1, 2, 3]
  freedPages _ := 0

theorem twoCpus_current (h : (twoCpus.cpu c).current = some t) :
    (c = 0 ∧ t = 1) ∨ (c = 1 ∧ t = 11) := by
  match c, h with
  | 0, h => exact Or.inl ⟨rfl, (Option.some.inj h).symm⟩
  | 1, h => exact Or.inr ⟨rfl, (Option.some.inj h).symm⟩

theorem twoCpus_idle (h : (twoCpus.cpu c).idle = some t) :
    (c = 0 ∧ t = 10) ∨ (c = 1 ∧ t = 11) := by
  match c, h with
  | 0, h => exact Or.inl ⟨rfl, (Option.some.inj h).symm⟩
  | 1, h => exact Or.inr ⟨rfl, (Option.some.inj h).symm⟩

theorem twoCpus_queued : t ∈ (twoCpus.cpu c).runq ↔ c = 0 ∧ (t = 2 ∨ t = 3) := by
  match c with
  | 0 => simp [twoCpus]
  | 1 => simp [twoCpus]
  | n + 2 => simp [twoCpus]

theorem twoCpus_started : Started twoCpus := by
  refine ⟨fun c => ?_, fun t e => ?_, fun e => ?_, fun t d e hd he => ?_, fun t d e hd he => ?_,
    fun t d e he hd => ?_, fun t d e he hd => ?_, fun t e q he => by simp [twoCpus],
    fun t d e hd he => ?_⟩
  · match c with
    | 0 | 1 | n + 2 => rfl
  · rw [twoCpus_queued]
    simp only [twoCpus]
    split <;> grind
  · match e with
    | 0 => decide
    | 1 | n + 2 => exact List.nodup_nil
  · have := twoCpus_current hd
    have := twoCpus_current he
    omega
  · have := twoCpus_current hd
    have := twoCpus_queued.mp he
    omega
  · have := twoCpus_idle he
    have := twoCpus_current hd
    omega
  · have := twoCpus_idle he
    have := twoCpus_queued.mp hd
    omega
  · have := twoCpus_idle hd
    have := twoCpus_idle he
    omega

/-- However the CPUs interleave, idle threads stay with their CPU. -/
theorem idle_threads_stay (k : Kernel) (h : Started k) (actions : List Action) :
    IdleOwn (k.run actions) :=
  List.foldlRecOn actions step h.idleOwn fun _ hk a _ => hk.step a

theorem idle_threads_stay_two_cpus : IdleOwn (twoCpus.run [.call 0 (.scheduleNext false)]) :=
  idle_threads_stay twoCpus twoCpus_started _

end Kernel
end Os1.Sched
