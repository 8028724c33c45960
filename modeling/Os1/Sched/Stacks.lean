import Os1.Sched.Current

/-! Kernel stacks of dead threads and the CPUs that may still be on them. -/
namespace Os1.Sched.Kernel

variable {k k' : Kernel} {c d e t u q : Nat} {task task' : Task} {work rest : List Task}

/-- The CPU has published its next thread and is not yet off the stack of the one before. -/
def Leaving (k : Kernel) (c : Nat) : Prop := ∃ t, .leaveStack t ∈ (k.cpu c).work

/-- The reaper has taken the thread. -/
def Doomed (k : Kernel) (t : Nat) : Prop :=
  0 < k.freedPages t ∨
    ∃ d, (∃ page, .reapFree t page ∈ (k.cpu d).work) ∨ .clearThread t ∈ (k.cpu d).work

/-- A CPU is on the stack of its current thread unless it is leaving one, and no CPU has a thread
that the reaper has taken. -/
structure StackSafe (k : Kernel) : Prop where
  idle : IdleOwn k
  idleAlive : ∀ e t, (k.cpu e).idle = some t → ¬ k.Dead t
  listed : ∀ d, d ∉ k.cpus → (k.cpu d).current = none
  onStack : ∀ d t, (k.cpu d).stack = some t → (k.cpu d).current = some t ∨ k.Leaving d
  leaving : ∀ d t, .leaveStack t ∈ (k.cpu d).work → (k.cpu d).current = some t
  doomed : ∀ t, k.Doomed t → k.Dead t ∧ ∀ d, ¬ k.Holds d t ∧ (k.cpu d).stack ≠ some t

/-- What a step may do to threads, as far as their life is concerned. -/
structure Lives (k k' : Kernel) : Prop where
  idle : IdleOwn k'
  dead : ∀ t, k.Dead t → (∀ d, ¬ k.Holds d t) → k'.Dead t
  alive : ∀ e t, (k'.cpu e).idle = some t → ¬ k'.Dead t
  held : ∀ d t, k'.Holds d t → k.Holds d t ∨ ¬ k.Dead t
  doomed : ∀ t, k'.Doomed t → k.Doomed t ∨
    (k.Dead t ∧ ∀ d, ¬ k.Holds d t ∧ (k.cpu d).stack ≠ some t)

/-- A step that moves no CPU to another thread or stack. -/
structure Stays (k k' : Kernel) : Prop where
  cpus : k'.cpus = k.cpus
  current : ∀ d, (k'.cpu d).current = (k.cpu d).current
  stack : ∀ d, (k'.cpu d).stack = (k.cpu d).stack
  leaving : ∀ d t, .leaveStack t ∈ (k'.cpu d).work ↔ .leaveStack t ∈ (k.cpu d).work

/-- A thread that the reaper has taken stays dead and away from every CPU. -/
theorem Lives.doomed_apart (h : StackSafe k) (hl : Lives k k')
    (hstack : ∀ d t, (k'.cpu d).stack = some t → (k.cpu d).stack = some t ∨ k.Holds d t)
    (ht : k'.Doomed t) : k'.Dead t ∧ ∀ d, ¬ k'.Holds d t ∧ (k'.cpu d).stack ≠ some t := by
  obtain ⟨hdead, hapart⟩ : k.Dead t ∧ ∀ d, ¬ k.Holds d t ∧ (k.cpu d).stack ≠ some t := by
    rcases hl.doomed t ht with ht | ht
    · exact h.doomed t ht
    · exact ht
  refine ⟨hl.dead t hdead (fun d => (hapart d).1), fun d => ⟨fun hd => ?_, fun hd => ?_⟩⟩
  · rcases hl.held d t hd with hd | hd
    · exact (hapart d).1 hd
    · exact hd hdead
  · rcases hstack d t hd with hd | hd
    · exact (hapart d).2 hd
    · exact (hapart d).1 hd

theorem StackSafe.of_stays (h : StackSafe k) (hs : Stays k k') (hl : Lives k k') :
    StackSafe k' := by
  refine ⟨hl.idle, hl.alive, fun d hd => ?_, fun d t hd => ?_, fun d t hd => ?_, fun t =>
    hl.doomed_apart h (fun d _ hd => Or.inl (hs.stack d ▸ hd))⟩
  · rw [hs.current]
    exact h.listed d (hs.cpus ▸ hd)
  · rw [hs.stack] at hd
    rw [hs.current]
    exact (h.onStack d t hd).imp_right (fun ⟨u, hu⟩ => ⟨u, (hs.leaving d u).mpr hu⟩)
  · rw [hs.current]
    exact h.leaving d t ((hs.leaving d t).mp hd)

/-- A step that changes neither run queues nor the state of a dead or idle thread. -/
theorem Rewrites.lives (h : StackSafe k) (hr : Rewrites k k' c)
    (hdead : ∀ t, k.Dead t → (∀ d, ¬ k.Holds d t) → k'.Dead t)
    (halive : ∀ e t, (k.cpu e).idle = some t → ¬ k'.Dead t)
    (hdoomed : ∀ t, k'.Doomed t → k.Doomed t ∨
      (k.Dead t ∧ ∀ d, ¬ k.Holds d t ∧ (k.cpu d).stack ≠ some t)) : Lives k k' :=
  ⟨h.idle.of_moves hr.moves, hdead, fun e t he => halive e t (hr.idle e ▸ he),
    fun _ _ hd => Or.inl (hr.holds hd), hdoomed⟩

section Tasks

variable (tasks : List Task)
  (hcpu : Retasks k k' c (tasks ++ rest)) (hcpus : k'.cpus = k.cpus)
  (hrest : ∀ task' ∈ rest, task' ∈ (k.cpu c).work)
  (hkept : ∀ t, .leaveStack t ∈ (k.cpu c).work → .leaveStack t ∈ rest)
include hcpu hrest

theorem mem_work_of_tasks (htasks : task' ∉ tasks) (hm : task' ∈ (k'.cpu d).work) :
    task' ∈ (k.cpu d).work := by
  rw [(hcpu d).2.2] at hm
  split at hm
  · rename_i hd
    rw [hd]
    exact hrest task' ((List.mem_append.mp hm).resolve_left htasks)
  · exact hm

include hcpus hkept in
theorem stays_of_tasks (htasks : ∀ t, .leaveStack t ∉ tasks) : Stays k k' := by
  refine ⟨hcpus, fun d => (hcpu d).1, fun d => (hcpu d).2.1,
    fun d t => ⟨fun ht => mem_work_of_tasks tasks hcpu hrest (htasks t) ht, fun ht => ?_⟩⟩
  rw [(hcpu d).2.2]
  split
  · rename_i hd
    exact List.mem_append_right _ (hkept t (hd ▸ ht))
  · exact ht

theorem doomed_of_tasks (hfreed : k'.freedPages = k.freedPages)
    (htasks : ∀ task' ∈ tasks, marks task' = false) (ht : k'.Doomed t) : k.Doomed t := by
  have hnot : ∀ task', marks task' = true → task' ∉ tasks := fun task' hm ht => by
    rw [htasks task' ht] at hm
    exact absurd hm (by simp)
  rcases ht with ht | ⟨d, ⟨page, ht⟩ | ht⟩
  · exact Or.inl (hfreed ▸ ht)
  · exact Or.inr ⟨d, Or.inl ⟨page, mem_work_of_tasks tasks hcpu hrest (hnot _ rfl) ht⟩⟩
  · exact Or.inr ⟨d, Or.inr (mem_work_of_tasks tasks hcpu hrest (hnot _ rfl) ht)⟩

end Tasks

/-- A plain step. -/
theorem StackSafe.of_plain {tasks : List Task} (h : StackSafe k) (hp : Plain k k' c tasks rest)
    (hrest : ∀ task' ∈ rest, task' ∈ (k.cpu c).work)
    (hkept : ∀ t, .leaveStack t ∈ (k.cpu c).work → .leaveStack t ∈ rest) : StackSafe k' := by
  have hcpu : Retasks k k' c (tasks ++ rest) := retasks_setWork hp.cpu
  have hmarks : ∀ task' ∈ tasks, marks task' = false := fun task' ht => (hp.harmless task' ht).1
  refine h.of_stays (stays_of_tasks tasks hcpu hp.cpus hrest hkept (fun t ht => ?_))
    ((hp.rewrites hrest).lives h hp.dead (fun e t he ht => ?_) (fun t ht => Or.inl ?_))
  · exact absurd (hmarks _ ht) (by simp [marks])
  · rcases hp.died t ht with ht | ⟨hcur, hne⟩
    · exact h.idleAlive e t he ht
    · -- An idle thread is current only on its own CPU, where it does not exit.
      obtain rfl := h.idle.held c e t he (Or.inl hcur)
      exact hne he
  · exact doomed_of_tasks tasks hcpu hrest hp.freedPages hmarks ht

/-- Giving a thread a live state. -/
theorem dead_setState {state : ThreadState} (hlive : state ≠ .dying ∧ state ≠ .free) :
    (k.setState t state).Dead u ↔ u ≠ t ∧ k.Dead u := by
  rw [Dead, state_setState]
  by_cases hu : u = t
  · simp [hu, hlive]
  · simp [hu, Dead]

/-! ## Switching -/

theorem StackSafe.leaveStack (h : StackSafe k) (hw : (k.cpu c).work = .leaveStack t :: rest)
    (hr : Rewrites k ((k.setStack c (k.stackOf t)).setWork c rest) c) :
    StackSafe ((k.setStack c (k.stackOf t)).setWork c rest) := by
  have hcur : (k.cpu c).current = some t := h.leaving c t (by rw [hw]; exact List.mem_cons_self)
  have hstack : ∀ d u, (((k.setStack c (k.stackOf t)).setWork c rest).cpu d).stack = some u →
      (d = c ∧ u = t) ∨ (d ≠ c ∧ (k.cpu d).stack = some u) := by
    intro d u hd
    simp only [setWork, setStack, cpu_setCpu] at hd
    by_cases hdc : d = c
    · simp only [if_pos hdc, stackOf] at hd
      split at hd
      · exact absurd hd (by simp)
      · exact Or.inl ⟨hdc, (Option.some.inj hd).symm⟩
    · simp only [if_neg hdc] at hd
      exact Or.inr ⟨hdc, hd⟩
  have hmem : ∀ d (task' : Task),
      task' ∈ (((k.setStack c (k.stackOf t)).setWork c rest).cpu d).work →
      task' ∈ (k.cpu d).work := by
    intro d task' hm
    rw [work_setWork, work_setStack] at hm
    split at hm
    · rename_i hd
      rw [hd, hw]
      exact List.mem_cons_of_mem _ hm
    · exact hm
  have hl : Lives k ((k.setStack c (k.stackOf t)).setWork c rest) := by
    refine hr.lives h (fun u hu _ => hu) (fun e u he => h.idleAlive e u he) (fun u hu => Or.inl ?_)
    rcases hu with hu | ⟨d, ⟨page, hu⟩ | hu⟩
    · exact Or.inl hu
    · exact Or.inr ⟨d, Or.inl ⟨page, hmem d _ hu⟩⟩
    · exact Or.inr ⟨d, Or.inr (hmem d _ hu)⟩
  refine ⟨hl.idle, hl.alive, fun d hd => ?_, fun d u hd => ?_, fun d u hd => ?_, fun u =>
    hl.doomed_apart h (fun d u hd => ?_)⟩
  · rw [hr.current]
    exact h.listed d hd
  · rw [hr.current]
    rcases hstack d u hd with ⟨rfl, rfl⟩ | ⟨hdc, hd⟩
    · exact Or.inl hcur
    · refine (h.onStack d u hd).imp_right (Exists.imp fun v hv => ?_)
      rwa [hr.work d hdc]
  · rw [hr.current]
    exact h.leaving d u (hmem d _ hd)
  · rcases hstack d u hd with ⟨rfl, rfl⟩ | ⟨-, hd⟩
    · exact Or.inr (Or.inl hcur)
    · exact Or.inl hd

theorem StackSafe.restoreThread (h : StackSafe k) (hc : c ∈ k.cpus)
    (hw : (k.cpu c).work = .restoreThread (some t) :: rest) :
    StackSafe (k.restoreThread c (some t) rest) := by
  have hcpu : ∀ d, (k.restoreThread c (some t) rest).cpu d = if d = c then
      { k.cpu d with current := some t, work := [.restoreFrame, .leaveStack t] } else k.cpu d :=
    fun d => rfl
  have hstack : ∀ d, ((k.restoreThread c (some t) rest).cpu d).stack = (k.cpu d).stack := by
    intro d
    rw [hcpu]
    split <;> rfl
  have hmoves := moves_restoreThread hw
  have hl : Lives k (k.restoreThread c (some t) rest) := by
    refine ⟨h.idle.of_moves hmoves, fun u hu _ => hu, fun e u he =>
      h.idleAlive e u (hmoves.idle e u he), fun d u hd => Or.inl (holds_restoreThread hw hd),
      fun u hu => Or.inl ?_⟩
    rcases hu with hu | ⟨d, hu⟩
    · exact Or.inl hu
    · rw [hcpu] at hu
      split at hu
      · simp at hu
      · exact Or.inr ⟨d, hu⟩
  refine ⟨hl.idle, hl.alive, fun d hd => ?_, fun d u hd => ?_, fun d u hd => ?_, fun u =>
    hl.doomed_apart h (fun d _ hd => Or.inl (hstack d ▸ hd))⟩
  · rw [hcpu, if_neg (fun heq : d = c => hd (heq ▸ hc))]
    exact h.listed d hd
  · rw [hstack] at hd
    by_cases hdc : d = c
    · refine Or.inr ⟨t, ?_⟩
      rw [hcpu, if_pos hdc]
      simp
    · simp only [Leaving, hcpu, if_neg hdc]
      exact h.onStack d u hd
  · rw [hcpu] at hd ⊢
    split
    · rename_i hdc
      rw [if_pos hdc] at hd
      simp at hd
      rw [hd]
    · rename_i hdc
      rw [if_neg hdc] at hd
      exact h.leaving d u hd

/-! ## Run queues -/

theorem not_leaveStack_of_head (hw : (k.cpu c).work = task :: rest)
    (hne : ∀ t, .leaveStack t ≠ task) (ht : .leaveStack t ∈ (k.cpu c).work) :
    .leaveStack t ∈ rest := by
  rw [hw] at ht
  exact (List.mem_cons.mp ht).resolve_left (hne t)

/-- Threads only change run queues. -/
theorem StackSafe.of_runq (h : StackSafe k) (hw : (k.cpu c).work = task :: rest)
    (hne : ∀ t, .leaveStack t ≠ task) (hm : Moves k k') (hcpu : Retasks k k' c rest)
    (hstate : ∀ t, (k'.thread t).state = (k.thread t).state) (hcpus : k'.cpus = k.cpus)
    (hfreed : k'.freedPages = k.freedPages) : StackSafe k' := by
  have hrest : ∀ task' ∈ rest, task' ∈ (k.cpu c).work := fun task' => mem_work_of_rest hw
  refine h.of_stays (stays_of_tasks [] hcpu hcpus hrest
    (fun t => not_leaveStack_of_head hw hne) (by simp)) ⟨h.idle.of_moves hm, fun t ht _ => ?_,
    fun e t he ht => h.idleAlive e t (hm.idle e t he) ?_,
    fun d t hd => Or.inl (holds_pop hw hcpu hd),
    fun t ht => Or.inl (doomed_of_tasks [] hcpu hrest hfreed (by simp) ht)⟩
  · rwa [Dead, hstate]
  · rwa [Dead, hstate] at ht

theorem enqueueThreadOnCpu_keeps (k : Kernel) (t target : Nat) :
    (∀ u, ((k.enqueueThreadOnCpu t target).thread u).state = (k.thread u).state) ∧
      (k.enqueueThreadOnCpu t target).cpus = k.cpus ∧
      (k.enqueueThreadOnCpu t target).freedPages = k.freedPages := by
  simp only [enqueueThreadOnCpu]
  split
  · refine ⟨fun u => ?_, rfl, rfl⟩
    simp only [thread_setThread]
    split <;> rfl
  · split
    · refine ⟨fun u => ?_, rfl, rfl⟩
      simp only [thread_setThread]
      split <;> rfl
    · refine ⟨fun u => ?_, rfl, rfl⟩
      simp only [thread_setThread, thread_setCpu]
      split <;> rfl

theorem StackSafe.enqueue {target : Nat} (h : StackSafe k)
    (hw : (k.cpu c).work = .enqueue t target :: rest) :
    StackSafe ((k.enqueueThreadOnCpu t target).setWork c rest) := by
  obtain ⟨hstate, hcpus, hfreed⟩ := k.enqueueThreadOnCpu_keeps t target
  exact h.of_runq hw (by simp) (moves_enqueue hw) retasks_enqueue hstate hcpus
    hfreed

theorem migrate_keeps (k : Kernel) (donor target targetDepth : Nat) (now : BitVec 64)
    (force : Bool) : (k.migrate donor target targetDepth now force).cpus = k.cpus ∧
      (k.migrate donor target targetDepth now force).freedPages = k.freedPages := by
  unfold migrate
  split
  · split <;> exact ⟨rfl, rfl⟩
  · exact ⟨rfl, rfl⟩

theorem StackSafe.migrate {donor target targetDepth : Nat} {now : BitVec 64} {force : Bool}
    (h : StackSafe k) (hw : (k.cpu c).work = .migrate donor target targetDepth now force :: rest) :
    StackSafe ((k.migrate donor target targetDepth now force).setWork c rest) := by
  obtain ⟨hcpus, hfreed⟩ := k.migrate_keeps donor target targetDepth now force
  refine h.of_runq hw (by simp) (moves_migrate hw) retasks_migrate (fun u => ?_) hcpus hfreed
  rcases k.migrate_cases donor target targetDepth now force with heq | ⟨t, -, -, -, hstate, -⟩
  · rw [heq]
    rfl
  · exact hstate u

/-- A live thread is chosen. -/
theorem StackSafe.of_chosen (h : StackSafe k) (hw : (k.cpu c).work = .pickNext :: rest)
    (hm : Moves k k') (hcpu : Retasks k k' c ([.restoreThread (some t)] ++ rest))
    (halive : ¬ k.Dead t) (hdead : ∀ u, k'.Dead u ↔ u ≠ t ∧ k.Dead u) (hcpus : k'.cpus = k.cpus)
    (hfreed : k'.freedPages = k.freedPages) : StackSafe k' := by
  have hrest : ∀ task' ∈ rest, task' ∈ (k.cpu c).work := fun task' => mem_work_of_rest hw
  have hkept : ∀ t, .leaveStack t ∈ (k.cpu c).work → .leaveStack t ∈ rest :=
    fun t => not_leaveStack_of_head hw (by simp)
  refine h.of_stays (stays_of_tasks _ hcpu hcpus hrest hkept (by simp))
    ⟨h.idle.of_moves hm, fun u hu _ => (hdead u).mpr ⟨fun heq => halive (heq ▸ hu), hu⟩,
      fun e u he hu => h.idleAlive e u (hm.idle e u he) ((hdead u).mp hu).2,
      fun d u hd => ?_, fun u hu => Or.inl ?_⟩
  · refine (holds_push _ hw hcpu hd).imp_right ?_
    rintro ⟨-, hm⟩
    cases List.mem_singleton.mp hm
    exact halive
  · exact doomed_of_tasks _ hcpu hrest hfreed (by simp [marks]) hu

theorem StackSafe.pickNext (h : StackSafe k) (hw : (k.cpu c).work = .pickNext :: rest)
    (hhead : ∀ t, (k.cpu c).runq.head? = some t → ¬ k.Dead t) :
    StackSafe (k.pickNext c rest) := by
  have hm := moves_pickNext hw
  rcases k.pickNext_cases c rest with ⟨-, -, heq⟩ | ⟨t, -, hidle, heq⟩ | ⟨t, runq, hq, heq⟩ <;>
    rw [heq] at hm ⊢
  · have hcpu : Retasks k (k.setWork c (.restoreThread none :: rest)) c
        ([.restoreThread none] ++ rest) := retasks_setWork rfl
    have hrest : ∀ task' ∈ rest, task' ∈ (k.cpu c).work := fun task' => mem_work_of_rest hw
    refine h.of_stays (stays_of_tasks _ hcpu rfl hrest
      (fun t => not_leaveStack_of_head hw (by simp)) (by simp))
      ⟨h.idle.of_moves hm, fun u hu _ => hu, fun e u he => h.idleAlive e u (hm.idle e u he),
        fun d u hd => Or.inl ?_, fun u hu => Or.inl ?_⟩
    · exact (holds_push _ hw hcpu hd).resolve_right
        (by simp)
    · exact doomed_of_tasks _ hcpu hrest rfl (by simp [marks]) hu
  · exact h.of_chosen hw hm (retasks_setWork rfl) (h.idleAlive c t hidle)
      (fun u => dead_setState (by simp)) rfl rfl
  · refine h.of_chosen hw hm retasks_takeHead (hhead t (by rw [hq]; rfl)) (fun u => ?_) rfl rfl
    refine (dead_setState (by simp)).trans (and_congr_right (fun hu => ?_))
    simp only [Dead, takeHead, thread_setThread, thread_setCpu, if_neg hu]

/-! ## Reaping -/

theorem deadThread_spec (h : k.deadThread = some t) :
    (k.thread t).state = .dying ∧ ∀ d ∈ k.cpus, (k.cpu d).current ≠ some t := by
  have := List.find?_some h
  simpa [threadIsCurrentOnAnyCpu] using this

theorem StackSafe.reapScan (h : StackSafe k) (hw : (k.cpu c).work = .reapScan :: rest)
    (ht : k.deadThread = some t)
    (hcareful : ∀ d, (k.Leaving d → (k.cpu d).stack ≠ some t) ∧
      .restoreThread (some t) ∉ (k.cpu d).work)
    (hr : Rewrites k (k.setWork c (.reapFree t 0 :: rest)) c) :
    StackSafe (k.setWork c (.reapFree t 0 :: rest)) := by
  obtain ⟨hdying, hcur⟩ := deadThread_spec ht
  have hcur : ∀ d, (k.cpu d).current ≠ some t := by
    intro d
    by_cases hd : d ∈ k.cpus
    · exact hcur d hd
    · rw [h.listed d hd]
      simp
  have hcpu : Retasks k (k.setWork c (.reapFree t 0 :: rest)) c ([.reapFree t 0] ++ rest) :=
    retasks_setWork rfl
  have hrest : ∀ task' ∈ rest, task' ∈ (k.cpu c).work := fun task' => mem_work_of_rest hw
  refine h.of_stays (stays_of_tasks _ hcpu rfl hrest
    (fun t => not_leaveStack_of_head hw (by simp)) (by simp))
    (hr.lives h (fun u hu _ => hu) (fun e u he => h.idleAlive e u he) (fun u hu => ?_))
  by_cases hut : u = t
  · subst hut
    refine Or.inr ⟨Or.inl hdying, fun d => ⟨fun hd => ?_, fun hd => ?_⟩⟩
    · exact hd.elim (hcur d) (hcareful d).2
    · rcases h.onStack d u hd with hd' | hd'
      · exact hcur d hd'
      · exact (hcareful d).1 hd' hd
  · refine Or.inl ?_
    rcases hu with hu | ⟨d, ⟨page, hu⟩ | hu⟩
    · exact Or.inl hu
    · refine Or.inr ⟨d, Or.inl ⟨page, mem_work_of_tasks _ hcpu hrest ?_ hu⟩⟩
      simp [hut]
    · exact Or.inr ⟨d, Or.inr (mem_work_of_tasks _ hcpu hrest (by simp) hu)⟩

theorem StackSafe.reapFree {page : Nat} (h : StackSafe k)
    (hw : (k.cpu c).work = .reapFree t page :: rest)
    (htask : task' = .clearThread t ∨ ∃ page, task' = .reapFree t page)
    (hcpu : Retasks k k' c ([task'] ++ rest)) (hr : Rewrites k k' c) (hcpus : k'.cpus = k.cpus)
    (hthread : k'.thread = k.thread)
    (hfreed : ∀ u, u ≠ t → k'.freedPages u = k.freedPages u) : StackSafe k' := by
  have hrest : ∀ task'' ∈ rest, task'' ∈ (k.cpu c).work := fun task' => mem_work_of_rest hw
  have hdead : ∀ u, k'.Dead u ↔ k.Dead u := fun u => by rw [Dead, hthread, Dead]
  refine h.of_stays (stays_of_tasks _ hcpu hcpus hrest
    (fun t => not_leaveStack_of_head hw (by simp)) ?_)
    (hr.lives h (fun u hu _ => (hdead u).mpr hu)
      (fun e u he hu => h.idleAlive e u he ((hdead u).mp hu)) (fun u hu => Or.inl ?_))
  · rcases htask with rfl | ⟨page, rfl⟩ <;> simp
  · by_cases hut : u = t
    · exact Or.inr ⟨c, Or.inl ⟨page, by rw [hw, hut]; exact List.mem_cons_self⟩⟩
    · have hnot : ∀ page, .reapFree u page ∉ [task'] := by
        rcases htask with rfl | ⟨page, rfl⟩ <;> simp [hut]
      have hnot' : .clearThread u ∉ [task'] := by
        rcases htask with rfl | ⟨page, rfl⟩ <;> simp [hut]
      rcases hu with hu | ⟨d, ⟨page, hu⟩ | hu⟩
      · exact Or.inl (hfreed u hut ▸ hu)
      · exact Or.inr ⟨d, Or.inl ⟨page, mem_work_of_tasks _ hcpu hrest (hnot page) hu⟩⟩
      · exact Or.inr ⟨d, Or.inr (mem_work_of_tasks _ hcpu hrest hnot' hu)⟩

theorem StackSafe.clearThread (h : StackSafe k)
    (hw : (k.cpu c).work = .clearThread t :: rest) :
    StackSafe ((k.clearThread t).setWork c (.reapOwner :: rest)) := by
  have hm := moves_clearThread hw
  have hcpu : Retasks k ((k.clearThread t).setWork c (.reapOwner :: rest)) c
      ([.reapOwner] ++ rest) := retasks_clearThread
  have hrest : ∀ task' ∈ rest, task' ∈ (k.cpu c).work := fun task' => mem_work_of_rest hw
  have hdead : ∀ u, ((k.clearThread t).setWork c (.reapOwner :: rest)).Dead u ↔
      u = t ∨ k.Dead u := by
    intro u
    simp only [Dead, thread_setWork, Kernel.clearThread]
    by_cases hu : u = t
    · simp [hu]
    · simp [hu]
  refine h.of_stays (stays_of_tasks _ hcpu rfl hrest
    (fun t => not_leaveStack_of_head hw (by simp)) (by simp))
    ⟨h.idle.of_moves hm, fun u hu _ => (hdead u).mpr (Or.inr hu), fun e u he hu => ?_,
      fun d u hd => Or.inl ((holds_push _ hw hcpu hd).resolve_right (by simp)), fun u hu =>
        Or.inl (doomed_of_tasks _ hcpu hrest rfl (by simp [marks]) hu)⟩
  · rcases (hdead u).mp hu with rfl | hu
    · rw [idle_setWork] at he
      simp only [Kernel.clearThread] at he
      split at he
      · exact absurd he (by simp)
      · rename_i hne
        exact hne he
    · exact h.idleAlive e u (hm.idle e u he) hu

/-- The reaper takes no thread whose stack a CPU is still leaving or that a CPU has chosen, and no
CPU chooses a dead thread from its run queue. -/
def Careful (k : Kernel) : Action → Prop
  | .call _ _ => True
  | .advance c _ =>
    match (k.cpu c).work with
    | .pickNext :: _ => ∀ t, (k.cpu c).runq.head? = some t → ¬ k.Dead t
    | .reapScan :: _ => ∀ t, k.deadThread = some t → ∀ d,
        (k.Leaving d → (k.cpu d).stack ≠ some t) ∧ .restoreThread (some t) ∉ (k.cpu d).work
    | _ => True

theorem StackSafe.advance {choice : Choice} (h : StackSafe k) (hc : c ∈ k.cpus)
    (hw : (k.cpu c).work = task :: rest) (hg : Careful k (.advance c choice)) :
    StackSafe (k.advance c choice rest task) := by
  rw [Careful, hw] at hg
  by_cases hm : task.Moving = false
  · have hr : Rewrites k (k.advance c choice rest task) c := rewrites_advance hw hm
    by_cases hleave : ∃ t, task = .leaveStack t
    · obtain ⟨t, rfl⟩ := hleave
      exact h.leaveStack hw hr
    rcases advance_cases choice hw hm with ⟨tasks, hp⟩ | ht | ⟨t, rfl, ht⟩ |
      ⟨t, page, rfl⟩
    · exact h.of_plain hp (fun task' => mem_work_of_rest hw)
        (fun t => not_leaveStack_of_head hw fun t ht => hleave ⟨t, ht.symm⟩)
    · exact (hleave ht).elim
    · rw [Kernel.advance, ht] at hr ⊢
      exact h.reapScan hw ht (hg t ht) hr
    · rw [Kernel.advance] at hr ⊢
      refine h.reapFree hw ?_ (retasks_setWork rfl) hr rfl rfl (fun u hu => if_neg hu)
      split
      · exact Or.inr ⟨page + 1, rfl⟩
      · exact Or.inl rfl
  · cases task with
    | enqueue t target => exact h.enqueue hw
    | pickNext => exact h.pickNext hw hg
    | restoreThread next =>
      cases next with
      | none => exact (hm rfl).elim
      | some t => exact h.restoreThread hc hw
    | migrate donor target targetDepth now force => exact h.migrate hw
    | clearThread t => exact h.clearThread hw
    | _ => exact (hm rfl).elim

/-! ## Calls -/

/-- A CPU goes onto the stack of its current thread, or off all kernel stacks. -/
theorem StackSafe.setStack {stack : Option Nat} (h : StackSafe k)
    (hstack : ∀ t, stack = some t → (k.cpu c).current = some t) :
    StackSafe (k.setStack c stack) := by
  have hfield : ∀ d t, ((k.setStack c stack).cpu d).stack = some t →
      (k.cpu d).stack = some t ∨ (k.cpu d).current = some t := by
    intro d t hd
    rw [Kernel.setStack, cpu_setCpu] at hd
    split at hd
    · rename_i hdc
      rw [hdc]
      exact Or.inr (hstack t hd)
    · exact Or.inl hd
  refine ⟨h.idle.of_moves (Rewrites.of_setStack stack (Rewrites.refl _ c)).moves,
    fun e t he => h.idleAlive e t (by simpa using he), fun d hd => ?_, fun d t hd => ?_,
    fun d t hd => ?_, fun t ht => ?_⟩
  · rw [current_setStack]
    exact h.listed d hd
  · rw [current_setStack, Leaving, work_setStack]
    rcases hfield d t hd with hd | hd
    · exact h.onStack d t hd
    · exact Or.inl hd
  · rw [current_setStack]
    exact h.leaving d t (by simpa using hd)
  · obtain ⟨hdead, hapart⟩ := h.doomed t (ht.imp_right (Exists.imp fun d hd => by simpa using hd))
    refine ⟨hdead, fun d => ⟨by simpa using (hapart d).1, fun hd => ?_⟩⟩
    rcases hfield d t hd with hd | hd
    · exact (hapart d).2 hd
    · exact (hapart d).1 (Or.inl hd)

theorem StackSafe.begin (h : StackSafe k) (hw : (k.cpu c).work = []) (call : Call) :
    StackSafe (k.begin c call) := by
  by_cases hcall : call = .resume
  · subst hcall
    refine h.setStack (fun t ht => ?_)
    obtain ⟨u, hu, hst⟩ := Option.bind_eq_some_iff.mp ht
    unfold stackOf at hst
    split at hst
    · exact absurd hst (by simp)
    · rw [hu, Option.some.inj hst]
  · obtain ⟨tasks, hp⟩ := begin_plain hw hcall
    exact h.of_plain hp (by simp) (by simp [hw])

theorem StackSafe.step {a : Action} (h : StackSafe k) (hg : Careful k a) :
    StackSafe (k.step a) := by
  cases a with
  | call c call =>
    rw [Kernel.step]
    split
    · rename_i hc
      refine (h.setStack (c := c) (fun t ht => ht)).begin ?_ call
      rw [work_setStack]
      exact hc.2
    · exact h
  | advance c choice =>
    rw [Kernel.step]
    split
    · rename_i hc
      cases hw : (k.cpu c).work with
      | nil => exact h
      | cons task rest => exact h.advance hc hw hg
    · exact h

/-! ## Runs -/

/-- The scheduler is running with live idle threads, each CPU is on the stack of its current thread
or in user mode, and nothing has been reaped yet. -/
structure Settled (k : Kernel) : Prop extends Started k where
  idleAlive : ∀ e t, (k.cpu e).idle = some t → ¬ k.Dead t
  listed : ∀ d, d ∉ k.cpus → (k.cpu d).current = none
  onStack : ∀ d t, (k.cpu d).stack = some t → (k.cpu d).current = some t
  unreaped : ∀ t, k.freedPages t = 0

theorem Settled.stackSafe (h : Settled k) : StackSafe k := by
  refine ⟨h.toStarted.idleOwn, h.idleAlive, h.listed, fun d t hd => Or.inl (h.onStack d t hd),
    fun d t hd => ?_, fun t ht => ?_⟩
  · rw [h.work] at hd
    exact absurd hd (by simp)
  · simp [Doomed, h.unreaped, h.work] at ht

/-- No page of a kernel stack has gone back to the frame allocator while a CPU is on that stack. -/
def StacksKept (k : Kernel) : Prop := ∀ t d, 0 < k.freedPages t → (k.cpu d).stack ≠ some t

/-- In every state of a run in which the reaper and the scheduler are careful, the stack that a CPU
is on has not been given back. -/
theorem run_stacksKept (k : Kernel) (h : Settled k) (actions : List Action)
    (hg : Along step Careful k actions) (n : Nat) : StacksKept (k.run (actions.take n)) := by
  have hs : StackSafe (k.run (actions.take n)) :=
    hg.invariant StackSafe (fun _ _ hk => hk.step) h.stackSafe n
  exact fun t d ht => ((hs.doomed t (Or.inl ht)).2 d).2

/-- The boot CPU is idle, CPU 1 runs the user thread 1. -/
def userOnCpu1 : Kernel where
  boot := 0
  others := [1]
  cpu
    | 0 => { current := some 10, idle := some 10, stack := some 10, booted := true }
    | 1 => { current := some 1, idle := some 11, booted := true }
    | _ => {}
  thread
    | 1 => { state := .running, userMode := true, schedulerCpu := some 1, affinityMask := -1#64 }
    | 10 => { state := .running, schedulerCpu := some 0, affinityMask := -1#64 }
    | 11 => { state := .blocked, schedulerCpu := some 1, affinityMask := -1#64 }
    | _ => {}
  waiters _ := []
  registry := [10, 11, 1]
  freedPages _ := 0

theorem userOnCpu1_cpu : (∀ c t, (userOnCpu1.cpu c).current = some t →
      (c = 0 ∧ t = 10) ∨ (c = 1 ∧ t = 1)) ∧
    (∀ c t, (userOnCpu1.cpu c).idle = some t → (c = 0 ∧ t = 10) ∨ (c = 1 ∧ t = 11)) ∧
    (∀ c t, (userOnCpu1.cpu c).stack = some t → c = 0 ∧ t = 10) ∧
    (∀ c, (userOnCpu1.cpu c).runq = []) ∧ ∀ c, (userOnCpu1.cpu c).work = [] := by
  refine ⟨fun c t h => ?_, fun c t h => ?_, fun c t h => ?_, fun c => ?_, fun c => ?_⟩
  · match c, h with
    | 0, h => exact Or.inl ⟨rfl, (Option.some.inj h).symm⟩
    | 1, h => exact Or.inr ⟨rfl, (Option.some.inj h).symm⟩
  · match c, h with
    | 0, h => exact Or.inl ⟨rfl, (Option.some.inj h).symm⟩
    | 1, h => exact Or.inr ⟨rfl, (Option.some.inj h).symm⟩
  · match c, h with
    | 0, h => exact ⟨rfl, (Option.some.inj h).symm⟩
    | 1, h | n + 2, h => cases h
  · match c with
    | 0 | 1 | n + 2 => rfl
  · match c with
    | 0 | 1 | n + 2 => rfl

theorem userOnCpu1_settled : Settled userOnCpu1 := by
  obtain ⟨hcurrent, hidle, hstack, hrunq, hwork⟩ := userOnCpu1_cpu
  have hqueue : ∀ t, (userOnCpu1.thread t).runQueueCpu = none := by
    intro t
    simp only [userOnCpu1]
    split <;> rfl
  refine ⟨⟨hwork, fun t e => by simp [hrunq, hqueue], fun e => by simp [hrunq],
    fun t d e hd he => ?_, fun t d e _ => by simp [hrunq], fun t d e he hd => ?_,
    fun t d e _ => by simp [hrunq], fun t e q _ => by simp [userOnCpu1], fun t d e hd he => ?_⟩,
    fun e t he => ?_, fun d hd => ?_, fun d t hd => ?_, fun t => rfl⟩
  · have := hcurrent d t hd
    have := hcurrent e t he
    omega
  · have := hidle e t he
    have := hcurrent d t hd
    omega
  · have := hidle d t hd
    have := hidle e t he
    omega
  · rcases hidle e t he with ⟨-, rfl⟩ | ⟨-, rfl⟩ <;> simp [Dead, userOnCpu1]
  · have hd : ¬ (d = 0 ∨ d = 1) := by simpa [cpus, userOnCpu1] using hd
    have hnone := fun t ht => hd ((hcurrent d t ht).imp And.left And.left)
    exact Option.eq_none_iff_forall_not_mem.mpr hnone
  · obtain ⟨rfl, rfl⟩ := hstack d t hd
    rfl

/-- Thread 1 exits and CPU 1 publishes its idle thread. -/
def exitAndPublish : List Action :=
  [.call 1 .exit, .call 1 (.scheduleNext false), .advance 1 {}, .advance 1 {}, .advance 1 {}]

/-- CPU 1 leaves the stack of thread 1. -/
def leave : List Action := [.advance 1 {}, .advance 1 {}]

/-- The boot CPU reaps and gives back the four pages of one stack. -/
def reapOne : List Action :=
  [.call 0 .reap, .advance 0 {}, .advance 0 {}, .advance 0 {}, .advance 0 {}, .advance 0 {}]

theorem leave_careful : Along step Careful userOnCpu1 (exitAndPublish ++ leave ++ reapOne) := by
  refine ⟨trivial, trivial, trivial, fun t ht => (by cases ht), trivial, trivial, trivial, trivial,
    fun t _ d => ?_, trivial, trivial, trivial, trivial, trivial⟩
  -- The boot CPU is about to scan, no other CPU is inside the kernel.
  have hwork : ∀ d, ((userOnCpu1.run (exitAndPublish ++ leave ++ [.call 0 .reap])).cpu d).work =
      if d = 0 then [.reapScan] else [] := fun d => by
    match d with
    | 0 | 1 | n + 2 => rfl
  have hnot : ∀ task, task ≠ .reapScan →
      task ∉ ((userOnCpu1.run (exitAndPublish ++ leave ++ [.call 0 .reap])).cpu d).work := by
    intro task hne hm
    rw [hwork] at hm
    split at hm
    · exact hne (List.mem_singleton.mp hm)
    · exact absurd hm (by simp)
  exact ⟨fun ⟨u, hu⟩ => absurd hu (hnot _ (by simp)), hnot _ (by simp)⟩

/-- Reaping after CPU 1 has left the stack is fine. -/
theorem run_stacksKept_left :
    (userOnCpu1.run (exitAndPublish ++ leave ++ reapOne)).freedPages 1 = 4 ∧
      StacksKept (userOnCpu1.run ((exitAndPublish ++ leave ++ reapOne).take 13)) :=
  ⟨by decide, run_stacksKept userOnCpu1 userOnCpu1_settled _ leave_careful 13⟩

/-- Reaping before that gives back a stack that CPU 1 is still on. -/
theorem reaped_stack_in_use :
    Settled userOnCpu1 ∧ ¬ StacksKept (userOnCpu1.run (exitAndPublish ++ reapOne)) := by
  refine ⟨userOnCpu1_settled, fun h => ?_⟩
  have hfreed : (userOnCpu1.run (exitAndPublish ++ reapOne)).freedPages 1 = 4 := by decide
  exact h 1 1 (by rw [hfreed]; decide) (by decide)

end Os1.Sched.Kernel
