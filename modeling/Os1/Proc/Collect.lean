import Mathlib.Data.List.Nodup
import Os1.Lib.Along
import Os1.Proc.WaitDecision

/-! Finished processes are collected, as long as no process is removed before its zombies. -/
namespace Os1.Proc.ProcessTable

open Sched

variable {s s' : ProcessTable} {p q t u : Nat} {parent : Option Nat} {cr3 : BitVec 64}
  {startReady : Bool} {exitStatus : BitVec 32} {a : TableAction}

theorem processHasThreads_iff : s.processHasThreads p = true ↔
    ∃ t ∈ s.threads, (s.thread t).process = some p ∧ (s.thread t).state ≠ .free := by
  simp [processHasThreads, List.any_eq_true]

/-! ## Registries -/

/-- The state of a process whose thread has not exited. -/
def Living (state : ProcessState) : Prop := state ≠ .zombie ∧ state ≠ .dying

/-- Records are listed once, and a thread in use is the only one of a registered process, which
does not end before it. -/
structure Registered (s : ProcessTable) : Prop where
  processesNodup : s.processes.Nodup
  threadsNodup : s.threads.Nodup
  owned : ∀ t ∈ s.threads, ∃ p ∈ s.processes, (s.thread t).process = some p
  used : ∀ t, t ∈ s.threads ↔ (s.thread t).state ≠ .free
  single : ∀ t ∈ s.threads, ∀ u ∈ s.threads, (s.thread t).process = (s.thread u).process → t = u
  living : ∀ t ∈ s.threads, ∀ p, (s.thread t).process = some p → (s.thread t).state ≠ .dying →
    Living (s.process p).state

/-- A step that leaves the registries and the owners of the threads as they are. -/
structure SameOwners (s s' : ProcessTable) : Prop where
  processes : s'.processes = s.processes
  threads : s'.threads = s.threads
  owner : ∀ t, (s'.thread t).process = (s.thread t).process
  used : ∀ t, (s'.thread t).state = .free ↔ (s.thread t).state = .free

theorem SameOwners.hasThreads (h : SameOwners s s') (hp : s.processHasThreads p = true) :
    s'.processHasThreads p = true := by
  obtain ⟨t, ht, hto, hts⟩ := processHasThreads_iff.mp hp
  exact processHasThreads_iff.mpr ⟨t, h.threads ▸ ht, (h.owner t).trans hto, mt (h.used t).mp hts⟩

namespace Registered

theorem of_same (h : Registered s) (hsame : SameOwners s s')
    (hliving : ∀ t ∈ s.threads, ∀ p, (s.thread t).process = some p →
      (s'.thread t).state ≠ .dying → Living (s'.process p).state) : Registered s' := by
  refine ⟨hsame.processes ▸ h.processesNodup, hsame.threads ▸ h.threadsNodup, ?_, ?_, ?_,
    fun t ht p htp => hliving t (hsame.threads ▸ ht) p ((hsame.owner t).symm.trans htp)⟩
  · intro t ht
    obtain ⟨p, hp, hto⟩ := h.owned t (hsame.threads ▸ ht)
    exact ⟨p, hsame.processes ▸ hp, (hsame.owner t).trans hto⟩
  · intro t
    rw [hsame.threads, h.used t]
    exact not_congr (hsame.used t).symm
  · intro t ht u hu heq
    rw [hsame.owner, hsame.owner] at heq
    exact h.single t (hsame.threads ▸ ht) u (hsame.threads ▸ hu) heq

theorem owner_mem (h : Registered s) (ht : t ∈ s.threads) (htp : (s.thread t).process = some p) :
    p ∈ s.processes := by
  obtain ⟨q, hq, htq⟩ := h.owned t ht
  exact Option.some.inj (htq.symm.trans htp) ▸ hq

end Registered

theorem reapProcess_refused (hp : s.processHasThreads p = true) : (s.reapProcess p).2 = s := by
  rw [ProcessTable.reapProcess, if_pos hp]

/-- Removing a process without threads clears its record and leaves its children without parent. -/
theorem reapProcess_eq (hp : s.processHasThreads p = false) : (s.reapProcess p).2 = { s with
    processes := s.processes.erase p
    process := fun q => if q = p then {} else { s.process q with
      parent := if q ∈ s.processes ∧ (s.process q).parent = some p then none
        else (s.process q).parent } } := by
  rw [ProcessTable.reapProcess, hp]
  refine congrArg (fun f => { s with processes := s.processes.erase p, process := f }) ?_
  funext q
  dsimp only [orphanChildren]
  split
  · rfl
  · split <;> rfl

theorem Registered.reapProcess (h : Registered s) (p : Nat) : Registered (s.reapProcess p).2 := by
  cases hp : s.processHasThreads p with
  | true => rwa [reapProcess_refused hp]
  | false =>
    have howner : ∀ t ∈ s.threads, ∀ q, (s.thread t).process = some q → q ≠ p := by
      rintro t ht q htq rfl
      rw [processHasThreads_iff.mpr ⟨t, ht, htq, (h.used t).mp ht⟩] at hp
      cases hp
    rw [reapProcess_eq hp]
    refine ⟨h.processesNodup.erase p, h.threadsNodup, fun t (ht : t ∈ s.threads) => ?_, h.used,
      h.single, fun t ht q htq hd => ?_⟩
    · obtain ⟨q, hq, htq⟩ := h.owned t ht
      exact ⟨q, (h.processesNodup.mem_erase_iff).mpr ⟨howner t ht q htq, hq⟩, htq⟩
    · dsimp only
      rw [if_neg (howner t ht q htq)]
      exact h.living t ht q htq hd

theorem mem_create_processes :
    q ∈ (s.create p t parent cr3 startReady).processes ↔ q ∈ s.processes ∨ q = p := by
  simp [ProcessTable.create]

theorem mem_create_threads :
    u ∈ (s.create p t parent cr3 startReady).threads ↔ u ∈ s.threads ∨ u = t := by
  simp [ProcessTable.create]

theorem create_process (hp : p ∉ s.processes) (hq : q ∈ s.processes) :
    (s.create p t parent cr3 startReady).process q = s.process q :=
  if_neg (ne_of_mem_of_not_mem hq hp)

theorem create_thread (ht : t ∉ s.threads) (hu : u ∈ s.threads) :
    (s.create p t parent cr3 startReady).thread u = s.thread u :=
  if_neg (ne_of_mem_of_not_mem hu ht)

theorem create_new : ((s.create p t parent cr3 startReady).thread t).process = some p ∧
    ((s.create p t parent cr3 startReady).thread t).state ≠ .free := by
  cases startReady <;> simp [ProcessTable.create]

theorem create_new_process : (s.create p t parent cr3 startReady).process p =
    { pid := s.nextPid, state := .ready, cr3 := cr3, parent := parent } := if_pos rfl

theorem Registered.create (h : Registered s) (hp : p ∉ s.processes) (ht : t ∉ s.threads) :
    Registered (s.create p t parent cr3 startReady) := by
  have howner {u : Nat} (hu : u ∈ s.threads) : (s.thread u).process ≠ some p := fun hup =>
    hp (h.owner_mem hu hup)
  refine ⟨?_, ?_, fun u hu => ?_, fun u => ?_, fun u hu v hv heq => ?_, fun u hu q huq hd => ?_⟩
  · exact List.Nodup.append h.processesNodup (List.nodup_singleton p)
      (List.disjoint_singleton.mpr hp)
  · exact List.Nodup.append h.threadsNodup (List.nodup_singleton t) (List.disjoint_singleton.mpr ht)
  · rcases mem_create_threads.mp hu with hu | rfl
    · obtain ⟨q, hq, huq⟩ := h.owned u hu
      exact ⟨q, mem_create_processes.mpr (Or.inl hq), by rw [create_thread ht hu]; exact huq⟩
    · exact ⟨p, mem_create_processes.mpr (Or.inr rfl), create_new.1⟩
  · rw [mem_create_threads]
    by_cases hut : u = t
    · subst hut
      exact iff_of_true (Or.inr rfl) create_new.2
    · have hsame : (s.create p t parent cr3 startReady).thread u = s.thread u := if_neg hut
      rw [hsame, ← h.used u, or_iff_left hut]
  · rcases mem_create_threads.mp hu with hu' | rfl <;>
      rcases mem_create_threads.mp hv with hv' | rfl
    · rw [create_thread ht hu', create_thread ht hv'] at heq
      exact h.single u hu' v hv' heq
    · rw [create_thread ht hu', create_new.1] at heq
      exact absurd heq (howner hu')
    · rw [create_thread ht hv', create_new.1] at heq
      exact absurd heq.symm (howner hv')
    · rfl
  · rcases mem_create_threads.mp hu with hu | rfl
    · rw [create_thread ht hu] at huq hd
      rw [create_process hp (h.owner_mem hu huq)]
      exact h.living u hu q huq hd
    · rw [create_new.1] at huq
      cases huq
      rw [create_new_process]
      simp [Living]

theorem markThreadDying_process (htp : (s.thread t).process = some p) (q : Nat) :
    (s.markThreadDying t exitStatus).process q = if q = p then
      { s.process p with
        exitStatus := exitStatus
        state := if (s.process p).parent.isSome then .zombie else .dying }
      else s.process q := by
  by_cases hq : q = p <;> simp [ProcessTable.markThreadDying, htp, setProcess, setThread, hq]

theorem markThreadDying_state (u : Nat) : ((s.markThreadDying t exitStatus).thread u).state =
    if u = t then .dying else (s.thread u).state := by
  unfold ProcessTable.markThreadDying
  split <;> by_cases hu : u = t <;> simp [setProcess, setThread, hu]

theorem markThreadDying_nextPid : (s.markThreadDying t exitStatus).nextPid = s.nextPid := by
  unfold ProcessTable.markThreadDying
  split <;> rfl

theorem markThreadDying_work : (s.markThreadDying t exitStatus).work = s.work := by
  unfold ProcessTable.markThreadDying
  split <;> rfl

theorem Registered.same_markThreadDying (h : Registered s) (ht : t ∈ s.threads) :
    SameOwners s (s.markThreadDying t exitStatus) := by
  refine ⟨?_, ?_, fun u => ?_, fun u => ?_⟩
  · unfold ProcessTable.markThreadDying
    split <;> rfl
  · unfold ProcessTable.markThreadDying
    split <;> rfl
  · unfold ProcessTable.markThreadDying
    split <;> by_cases hu : u = t <;> simp [setProcess, setThread, hu]
  · rw [markThreadDying_state]
    split
    next hu =>
      subst hu
      exact iff_of_false (by simp) ((h.used u).mp ht)
    next => rfl

theorem Registered.markThreadDying (h : Registered s) (ht : t ∈ s.threads) :
    Registered (s.markThreadDying t exitStatus) := by
  obtain ⟨p, hp, htp⟩ := h.owned t ht
  refine h.of_same (h.same_markThreadDying ht) fun u hu q huq hd => ?_
  rw [markThreadDying_state] at hd
  split at hd
  · exact absurd rfl hd
  next hut =>
    have hqp : q ≠ p := by
      rintro rfl
      exact hut (h.single u hu t ht (huq.trans htp.symm))
    rw [markThreadDying_process htp, if_neg hqp]
    exact h.living u hu q huq hd

theorem Registered.mem_erase_threads (h : Registered s) :
    u ∈ (s.clearThread t).threads ↔ u ≠ t ∧ u ∈ s.threads := h.threadsNodup.mem_erase_iff

theorem clearThread_thread (hu : u ≠ t) : (s.clearThread t).thread u = s.thread u := if_neg hu

theorem Registered.clearThread (h : Registered s) (work : List ReapTask) :
    Registered { s.clearThread t with work := work } := by
  refine ⟨h.processesNodup, h.threadsNodup.erase t, fun u hu => ?_, fun u => ?_,
    fun u hu v hv heq => ?_, fun u hu => ?_⟩
  · obtain ⟨hut, hu⟩ := h.mem_erase_threads.mp hu
    dsimp only
    rw [clearThread_thread hut]
    exact h.owned u hu
  · refine h.mem_erase_threads.trans ?_
    by_cases hut : u = t
    · simp [ProcessTable.clearThread, ProcessTable.setThread, hut]
    · dsimp only
      rw [clearThread_thread hut, ← h.used u, and_iff_right hut]
  · obtain ⟨hut, hu⟩ := h.mem_erase_threads.mp hu
    obtain ⟨hvt, hv⟩ := h.mem_erase_threads.mp hv
    dsimp only at heq
    rw [clearThread_thread hut, clearThread_thread hvt] at heq
    exact h.single u hu v hv heq
  · obtain ⟨hut, hu⟩ := h.mem_erase_threads.mp hu
    dsimp only
    rw [clearThread_thread hut]
    exact h.living u hu

/-! ## Records that change in place -/

/-- A process keeps its number, parent and status, and its state too unless it is alive. -/
structure SameProcess (old new : Process) : Prop where
  pid : new.pid = old.pid
  parent : new.parent = old.parent
  exitStatus : new.exitStatus = old.exitStatus
  state : new.state = old.state ∨ Living old.state ∧ Living new.state

/-- A thread keeps its owner and is neither released nor revived. -/
structure SameThread (old new : ProcessThread) : Prop where
  owner : new.process = old.process
  used : new.state = .free ↔ old.state = .free
  dying : old.state = .dying → new.state = .dying

theorem SameProcess.trans {x y z : Process} (h : SameProcess x y) (h' : SameProcess y z) :
    SameProcess x z := by
  refine ⟨h'.pid.trans h.pid, h'.parent.trans h.parent, h'.exitStatus.trans h.exitStatus, ?_⟩
  rcases h.state with heq | ⟨hx, hy⟩ <;> rcases h'.state with heq' | ⟨hy', hz⟩
  · exact Or.inl (heq'.trans heq)
  · exact Or.inr ⟨heq ▸ hy', hz⟩
  · exact Or.inr ⟨hx, heq' ▸ hy⟩
  · exact Or.inr ⟨hx, hz⟩

/-- A change under which no process begins or ends and no thread exits. -/
structure Calm (s s' : ProcessTable) : Prop where
  processes : s'.processes = s.processes
  threads : s'.threads = s.threads
  nextPid : s'.nextPid = s.nextPid
  process : ∀ p, SameProcess (s.process p) (s'.process p)
  thread : ∀ t, SameThread (s.thread t) (s'.thread t)

namespace Calm

theorem refl (s : ProcessTable) : Calm s s :=
  ⟨rfl, rfl, rfl, fun _ => ⟨rfl, rfl, rfl, Or.inl rfl⟩, fun _ => ⟨rfl, Iff.rfl, id⟩⟩

theorem trans {s'' : ProcessTable} (h : Calm s s') (h' : Calm s' s'') : Calm s s'' where
  processes := h'.processes.trans h.processes
  threads := h'.threads.trans h.threads
  nextPid := h'.nextPid.trans h.nextPid
  process := fun p => (h.process p).trans (h'.process p)
  thread := fun t => ⟨(h'.thread t).owner.trans (h.thread t).owner,
    (h'.thread t).used.trans (h.thread t).used, (h'.thread t).dying ∘ (h.thread t).dying⟩

theorem setWork (h : Calm s s') (work : List ReapTask) : Calm s { s' with work := work } :=
  ⟨h.processes, h.threads, h.nextPid, h.process, h.thread⟩

theorem same (h : Calm s s') : SameOwners s s' :=
  ⟨h.processes, h.threads, fun t => (h.thread t).owner, fun t => (h.thread t).used⟩

theorem registered (h : Calm s s') (hs : Registered s) : Registered s' := by
  refine hs.of_same h.same fun t ht p htp hd => ?_
  have hliving := hs.living t ht p htp (mt (h.thread t).dying hd)
  rcases (h.process p).state with heq | ⟨-, hnew⟩
  · rwa [heq]
  · exact hnew

theorem setThread {f : ProcessThread → ProcessThread}
    (hf : SameThread (s.thread t) (f (s.thread t))) : Calm s (s.setThread t f) := by
  refine ⟨rfl, rfl, rfl, (refl s).process, fun u => ?_⟩
  by_cases hu : u = t
  · simpa [ProcessTable.setThread, hu] using hf
  · simpa [ProcessTable.setThread, hu] using (refl s).thread u

theorem setProcess {f : Process → Process}
    (hf : SameProcess (s.process p) (f (s.process p))) : Calm s (s.setProcess p f) := by
  refine ⟨rfl, rfl, rfl, fun q => ?_, (refl s).thread⟩
  by_cases hq : q = p
  · simpa [ProcessTable.setProcess, hq] using hf
  · simpa [ProcessTable.setProcess, hq] using (refl s).process q

/-- A thread that becomes ready or running, and its process with it. -/
theorem activate {f : ProcessThread → ProcessThread} {state : ProcessState} (h : Registered s)
    (hf : SameThread (s.thread t) (f (s.thread t))) (hfree : (f (s.thread t)).state ≠ .free)
    (hdying : (f (s.thread t)).state ≠ .dying) (hstate : Living state) :
    Calm s ((s.setThread t f).setProcessState t state) := by
  have hset : Calm s (s.setThread t f) := setThread hf
  have hthread : (s.setThread t f).thread t = f (s.thread t) := if_pos rfl
  rw [← hthread] at hfree hdying
  have hs := hset.registered h
  refine hset.trans ?_
  unfold ProcessTable.setProcessState
  split
  · exact refl _
  · rename_i p htp
    split
    · exact refl _
    · exact setProcess ⟨rfl, rfl, rfl,
        Or.inr ⟨hs.living t ((hs.used t).mpr hfree) p htp hdying, hstate⟩⟩

theorem wakeThread (h : Registered s) (t : Nat) (result : Int) :
    Calm s (s.wakeThread t result) := by
  have hrax : Calm s (s.setThread t fun thread =>
      { thread with rax := result, wait := ⟨0#64, 0#64⟩ }) := setThread ⟨rfl, Iff.rfl, id⟩
  unfold ProcessTable.wakeThread
  dsimp only
  split
  · exact hrax
  · rename_i hstate
    rw [not_or] at hstate
    exact hrax.trans (activate (hrax.registered h)
      ⟨rfl, by simp [hstate.2], fun hd => absurd hd hstate.1⟩ (by simp) (by simp)
      (by simp [Living]))

theorem blockWait {args : WaitArgs} (h : Registered s) (ht : t ∈ s.threads)
    (hrun : (s.thread t).state = .running) (htp : (s.thread t).process = some p) :
    Calm s (s.blockWait t p args) := by
  have hliving := h.living t ht p htp (by simp [hrun])
  have hblocked : Calm s (s.setThread t fun thread =>
      { thread with wait := args, state := .blocked }) :=
    setThread ⟨rfl, by simp [hrun], by simp [hrun]⟩
  refine hblocked.trans (setProcess ⟨rfl, rfl, rfl, Or.inr ⟨hliving, ?_⟩⟩)
  have hstate : ((s.setThread t fun thread =>
      { thread with wait := args, state := .blocked }).process p).state ≠ .dying := hliving.2
  simp [hstate, Living]

end Calm

/-! ## Steps -/

/-- The record in which a step creates a process. -/
def creates (s : ProcessTable) : TableAction → Option Nat
  | .create p t parent _ _ =>
    if s.work = [] ∧ p ∉ s.processes ∧ t ∉ s.threads ∧ (∀ q, parent = some q →
        ∃ u ∈ s.threads, (s.thread u).process = some q ∧ (s.thread u).state = .running) then some p
    else none
  | _ => none

/-- The process whose thread exits in a step, and the status. -/
def exits (s : ProcessTable) : TableAction → Option (Nat × BitVec 32)
  | .exit t exitStatus =>
    if s.work = [] ∧ t ∈ s.threads ∧ (s.thread t).state = .running then
      (s.thread t).process.map fun p => (p, exitStatus)
    else none
  | _ => none

/-- The waiting thread to which a step returns a child, and the child. -/
def returns (s : ProcessTable) (a : TableAction) : Option (Nat × Nat) :=
  match s.work, a with
  | [], .wait t args copied =>
    if t ∈ s.threads ∧ (s.thread t).state = .running then
      (s.waitReaps t args copied).map fun child => (t, child)
    else none
  | .wake _ (t :: _) _ :: _, .advance copied =>
    (s.waitReaps t (s.thread t).wait copied).map fun child => (t, child)
  | _, _ => none

/-- The process is not removed before its zombies. -/
def Childless (s : ProcessTable) (p : Nat) : Prop :=
  ∀ q ∈ s.processes, (s.process q).parent = some p → (s.process q).state ≠ .zombie

/-- The process that a step removes from the registry. -/
def reaps (s : ProcessTable) (a : TableAction) : Option Nat :=
  match s.work, a with
  | [], .wait t args copied =>
    if t ∈ s.threads ∧ (s.thread t).state = .running then s.waitReaps t args copied else none
  | .owner p :: _, .advance _ => if (s.process p).state = .zombie then none else some p
  | .wake _ (t :: _) _ :: _, .advance copied => s.waitReaps t (s.thread t).wait copied
  | _, _ => none

/-- No process is removed while a child of it is a zombie. -/
def Attended (s : ProcessTable) (a : TableAction) : Prop :=
  ∀ p, s.reaps a = some p → Childless s p

/-- A process that the reaper has to look at is left to it, unless it has a thread or is a
zombie. -/
def Owed (s s' : ProcessTable) : Prop := ∀ p ∈ s.processes, .owner p ∈ s.work →
  .owner p ∈ s'.work ∨ s.processHasThreads p = true ∨ (s.process p).state = .zombie

theorem Owed.of_subset (h : ∀ p, .owner p ∈ s.work → .owner p ∈ s'.work) : Owed s s' :=
  fun p _ hp => Or.inl (h p hp)

/-- What begins or ends in a step, and the table then. -/
inductive Event (s : ProcessTable) (a : TableAction) : ProcessTable → Prop where
  | none (hc : s.creates a = none) (he : s.exits a = none) (hr : s.returns a = none) : Event s a s
  | create {p t : Nat} {parent : Option Nat} {cr3 : BitVec 64} {startReady : Bool}
    (hp : p ∉ s.processes) (ht : t ∉ s.threads) (hparent : ∀ q, parent = some q → q ∈ s.processes)
    (hc : s.creates a = some p) (he : s.exits a = none) (hr : s.returns a = none) :
    Event s a (s.create p t parent cr3 startReady)
  | exit {t p : Nat} {status : BitVec 32} (ht : t ∈ s.threads)
    (hrun : (s.thread t).state = .running) (htp : (s.thread t).process = some p)
    (hc : s.creates a = none) (he : s.exits a = some (p, status)) (hr : s.returns a = none) :
    Event s a (s.markThreadDying t status)
  | clear {t p : Nat} (htp : (s.thread t).process = some p) (hc : s.creates a = none)
    (he : s.exits a = none) (hr : s.returns a = none) :
    Event s a { s.clearThread t with work := .owner p :: s.work }
  | reap {p : Nat} (hreaps : s.reaps a = some p) (hc : s.creates a = none) (he : s.exits a = none)
    (hr : s.returns a = none) : Event s a (s.reapProcess p).2
  | collect {t p : Nat} (hreaps : s.reaps a = some p) (hp : p ∈ s.processes)
    (hzombie : (s.process p).state = .zombie) (hthreads : s.processHasThreads p = false)
    (hc : s.creates a = none) (he : s.exits a = none) (hr : s.returns a = some (t, p))
    (hrax : ((s.step a).thread t).rax = (s.process p).pid.toNat) : Event s a (s.reapProcess p).2

/-- A step is an event and a calm change after it. -/
def Eventful (s : ProcessTable) (a : TableAction) : Prop :=
  ∃ x, Event s a x ∧ Calm x (s.step a) ∧ Owed x (s.step a)

theorem Eventful.idle (h : Registered s) (hw : s.work = []) (a : TableAction) :
    Eventful s a := by
  have howed : Owed s (s.step a) := .of_subset (by simp [hw])
  have hreturns : (∀ t args copied, a ≠ .wait t args copied) → s.returns a = none := by
    intro hne
    cases a with
    | wait t args copied => exact absurd rfl (hne t args copied)
    | _ => simp only [returns, hw]
  cases a with
  | create p t parent cr3 startReady =>
    have hr := hreturns (by simp)
    by_cases hok : p ∉ s.processes ∧ t ∉ s.threads ∧ (∀ q, parent = some q →
        ∃ u ∈ s.threads, (s.thread u).process = some q ∧ (s.thread u).state = .running)
    · refine ⟨s.create p t parent cr3 startReady, .create hok.1 hok.2.1 (fun q hq => ?_)
        (if_pos ⟨hw, hok⟩) rfl hr, ?_, .of_subset (by simp [ProcessTable.create, hw])⟩
      · obtain ⟨u, hu, huq, -⟩ := hok.2.2 q hq
        exact h.owner_mem hu huq
      · simp only [step, hw, if_pos hok]
        exact .refl _
    · refine ⟨s, .none (if_neg fun hall => hok hall.2) rfl hr, ?_, howed⟩
      simp only [step, hw, if_neg hok]
      exact .refl s
  | switchTo t =>
    refine ⟨s, .none rfl rfl (hreturns (by simp)), ?_, howed⟩
    simp only [step, hw]
    split
    · rename_i hok
      exact .activate h ⟨rfl, by simp [hok.2], by simp [hok.2]⟩ (by simp) (by simp)
        (by simp [Living])
    · exact .refl s
  | switchFrom t =>
    refine ⟨s, .none rfl rfl (hreturns (by simp)), ?_, howed⟩
    simp only [step, hw]
    have hoff : Calm s (s.setThread t fun thread => { thread with onCpu := false }) :=
      .setThread ⟨rfl, Iff.rfl, id⟩
    split
    · split
      · rename_i hrunning
        have hthread : ((s.setThread t fun thread => { thread with onCpu := false }).thread t).state
            = .running := by simpa [setThread] using hrunning
        exact hoff.trans (.activate (hoff.registered h)
          ⟨rfl, by simp [hthread], by simp [hthread]⟩ (by simp) (by simp) (by simp [Living]))
      · exact hoff
    · exact .refl s
  | exit t exitStatus =>
    have hr := hreturns (by simp)
    by_cases hok : t ∈ s.threads ∧ (s.thread t).state = .running
    · obtain ⟨p, hp, htp⟩ := h.owned t hok.1
      have hexits : s.exits (.exit t exitStatus) = some (p, exitStatus) := by
        simp only [exits, if_pos (And.intro hw hok), htp, Option.map_some]
      refine ⟨_, .exit hok.1 hok.2 htp rfl hexits hr, ?_, .of_subset ?_⟩
      · simp only [step, hw, if_pos hok]
        exact .refl _
      · simp only [step, hw, if_pos hok, imp_self, implies_true]
    · refine ⟨s, .none rfl (if_neg fun hall => hok hall.2) hr, ?_, howed⟩
      simp only [step, hw, if_neg hok]
      exact .refl s
  | wait t args copied =>
    by_cases hok : t ∈ s.threads ∧ (s.thread t).state = .running
    · obtain ⟨p, hp, htp⟩ := h.owned t hok.1
      have hstep : s.step (.wait t args copied) = s.waitPid t args copied := by
        simp only [step, hw, if_pos hok]
      have hreaps : s.reaps (.wait t args copied) = s.waitReaps t args copied := by
        simp only [reaps, hw, if_pos hok]
      have hr : s.returns (.wait t args copied) =
          (s.waitReaps t args copied).map fun child => (t, child) := by
        simp only [returns, hw, if_pos hok]
      have hdecides := waitReaps_decision args copied htp
      have hpid := waitPid_eq args copied htp
      cases hdecision : s.waitDecision p args copied with
      | blocks =>
        rw [hdecision] at hdecides hpid
        refine ⟨s, .none rfl rfl (by rw [hr, hdecides]; rfl), ?_, howed⟩
        rw [hstep, hpid]
        exact .blockWait h hok.1 hok.2 htp
      | fails =>
        rw [hdecision] at hdecides hpid
        refine ⟨s, .none rfl rfl (by rw [hr, hdecides]; rfl), ?_, howed⟩
        rw [hstep, hpid]
        exact .setThread ⟨rfl, Iff.rfl, id⟩
      | collects child =>
        rw [hdecision] at hdecides hpid
        obtain ⟨hmatch, hzombie, hthreads⟩ := waitDecision_collects hdecision
        refine ⟨_, .collect (hreaps.trans hdecides) hmatch.1 hzombie hthreads rfl rfl
          (by rw [hr, hdecides]; rfl) ?_, ?_, .of_subset ?_⟩
        · rw [hstep, hpid]
          simp [WaitDecision.result, setThread]
        · rw [hstep, hpid]
          exact .setThread ⟨rfl, Iff.rfl, id⟩
        · simp [reapProcess_eq hthreads, hw]
    · refine ⟨s, .none rfl rfl (by simp only [returns, hw, if_neg hok]), ?_, howed⟩
      simp only [step, hw, if_neg hok]
      exact .refl s
  | reap =>
    refine ⟨s, .none rfl rfl (hreturns (by simp)), ?_, howed⟩
    simp only [step, hw]
    exact (Calm.refl s).setWork _
  | advance copied =>
    refine ⟨s, .none rfl rfl (hreturns (by simp)), ?_, howed⟩
    simp only [step, hw]
    exact .refl s

theorem Eventful.scan {rest : List ReapTask} (h : Registered s) (hw : s.work = .scan :: rest)
    (copied : Bool) : Eventful s (.advance copied) := by
  have hr : s.returns (.advance copied) = none := by simp only [returns, hw]
  cases hdead : s.deadThread with
  | none =>
    refine ⟨s, .none rfl rfl hr, ?_, .of_subset ?_⟩ <;> simp only [step, hw, advance, hdead]
    · exact (Calm.refl s).setWork _
    · simp
  | some t =>
    obtain ⟨p, hp, htp⟩ := h.owned t (List.mem_of_find?_eq_some hdead)
    refine ⟨_, .clear htp rfl rfl hr, ?_, ?_⟩ <;>
      simp only [step, hw, advance, hdead, htp] <;> split
    · exact ⟨rfl, rfl, rfl, (Calm.refl _).process, (Calm.refl _).thread⟩
    · exact ⟨rfl, rfl, rfl, (Calm.refl _).process, (Calm.refl _).thread⟩
    · rename_i hhas
      intro q _ hq
      rcases List.mem_cons.mp hq with hqp | hq
      · cases hqp
        exact Or.inr (Or.inl hhas)
      · exact Or.inl hq
    · exact .of_subset fun _ => id

theorem Eventful.owner {rest : List ReapTask} (h : Registered s)
    (hw : s.work = .owner p :: rest) (copied : Bool) : Eventful s (.advance copied) := by
  have hr : s.returns (.advance copied) = none := by simp only [returns, hw]
  by_cases hzombie : (s.process p).state = .zombie
  · refine ⟨s, .none rfl rfl hr, ?_, fun q _ hq => ?_⟩
    · simp only [step, hw, advance, if_pos hzombie]
      split
      · exact (Calm.refl s).setWork _
      · exact (Calm.setProcess ⟨rfl, rfl, rfl, Or.inl rfl⟩).setWork _
    · rw [hw] at hq
      rcases List.mem_cons.mp hq with hqp | hq
      · cases hqp
        exact Or.inr (Or.inr hzombie)
      · simp only [step, hw, advance, if_pos hzombie]
        split
        · exact Or.inl hq
        · exact Or.inl (List.mem_cons_of_mem _ hq)
  · have hreaps : s.reaps (.advance copied) = some p := by simp only [reaps, hw, if_neg hzombie]
    refine ⟨_, .reap hreaps rfl rfl hr, ?_, fun q hmem hq => ?_⟩ <;>
      simp only [step, hw, advance, if_neg hzombie]
    · exact (Calm.refl _).setWork _
    · cases hp : s.processHasThreads p with
      | true =>
        rw [reapProcess_refused hp] at hq ⊢
        rw [hw] at hq
        rcases List.mem_cons.mp hq with hqp | hq
        · cases hqp
          exact Or.inr (Or.inl hp)
        · exact Or.inl hq
      | false =>
        rw [reapProcess_eq hp] at hmem hq
        dsimp only at hmem hq
        rw [hw] at hq
        rcases List.mem_cons.mp hq with hqp | hq
        · cases hqp
          exact absurd rfl ((h.processesNodup.mem_erase_iff).mp hmem).1
        · exact Or.inl hq

theorem wakeThread_rax (s : ProcessTable) (t : Nat) (result : Int) :
    ((s.wakeThread t result).thread t).rax = result := by
  unfold ProcessTable.wakeThread ProcessTable.setProcessState
  dsimp only
  split
  · simp [ProcessTable.setThread]
  · split
    · simp [ProcessTable.setThread]
    · split <;> simp [ProcessTable.setThread, ProcessTable.setProcess]

theorem Eventful.wake {pending stillWaiting : List Nat} {rest : List ReapTask} (h : Registered s)
    (hw : s.work = .wake q (t :: pending) stillWaiting :: rest) (copied : Bool) :
    Eventful s (.advance copied) := by
  have hreaps : s.reaps (.advance copied) = s.waitReaps t (s.thread t).wait copied := by
    simp only [reaps, hw]
  have hr : s.returns (.advance copied) =
      (s.waitReaps t (s.thread t).wait copied).map fun child => (t, child) := by
    simp only [returns, hw]
  cases htp : (s.thread t).process with
  | none =>
    have hnone : s.waitReaps t (s.thread t).wait copied = none := by simp only [waitReaps, htp]
    refine ⟨s, .none rfl rfl (by rw [hr, hnone]; rfl), ?_, .of_subset ?_⟩ <;>
      simp only [step, hw, advance, tryCompleteWaitPid, htp]
    · exact (Calm.wakeThread h t (-1)).setWork _
    · simp
  | some p =>
    have hdecides := waitReaps_decision (s.thread t).wait copied htp
    have htry := tryCompleteWaitPid_eq (s.thread t).wait copied htp
    cases hdecision : s.waitDecision p (s.thread t).wait copied with
    | blocks =>
      rw [hdecision] at hdecides htry
      refine ⟨s, .none rfl rfl (by rw [hr, hdecides]; rfl), ?_, .of_subset ?_⟩ <;>
        simp only [step, hw, advance, htry, WaitDecision.result, WaitDecision.table]
      · exact (Calm.refl s).setWork _
      · simp
    | fails =>
      rw [hdecision] at hdecides htry
      refine ⟨s, .none rfl rfl (by rw [hr, hdecides]; rfl), ?_, .of_subset ?_⟩ <;>
        simp only [step, hw, advance, htry, WaitDecision.result, WaitDecision.table]
      · exact (Calm.wakeThread h t (-1)).setWork _
      · simp
    | collects child =>
      rw [hdecision] at hdecides htry
      obtain ⟨hmatch, hzombie, hthreads⟩ := waitDecision_collects hdecision
      have hstep : s.step (.advance copied) =
          { (s.reapProcess child).2.wakeThread t (s.process child).pid.toNat with
            work := .wake q pending stillWaiting :: rest } := by
        simp only [step, hw, advance, htry]
        rfl
      refine ⟨_, .collect (hreaps.trans hdecides) hmatch.1 hzombie hthreads rfl rfl
        (by rw [hr, hdecides]; rfl) ?_, ?_, .of_subset ?_⟩ <;> rw [hstep]
      · exact wakeThread_rax _ _ _
      · exact (Calm.wakeThread (h.reapProcess child) t _).setWork _
      · simp [reapProcess_eq hthreads, hw]

theorem Registered.eventful (h : Registered s) (a : TableAction) : Eventful s a := by
  cases hw : s.work with
  | nil => exact .idle h hw a
  | cons task rest =>
    cases a with
    | advance copied =>
      cases task with
      | scan => exact .scan h hw copied
      | owner p => exact .owner h hw copied
      | wake q pending stillWaiting =>
        cases pending with
        | cons t pending => exact .wake h hw copied
        | nil =>
          refine ⟨s, .none rfl rfl (by simp only [returns, hw]), ?_, .of_subset ?_⟩ <;>
            simp only [step, hw, advance]
          · exact (Calm.setProcess ⟨rfl, rfl, rfl, Or.inl rfl⟩).setWork _
          · simp
    | _ =>
      -- No other call is taken while the reaper is at work.
      refine ⟨s, .none (by simp [creates, hw]) (by simp [exits, hw]) (by simp [returns, hw]), ?_⟩
      simp only [step, hw]
      exact ⟨.refl s, .of_subset fun _ => id⟩

/-! ## Parents and children -/

/-- Parents are registered, a zombie has a parent, and a process without threads is a zombie or one
that the reaper is about to look at. -/
structure Lineage (s : ProcessTable) : Prop extends Registered s where
  parentListed : ∀ p ∈ s.processes, ∀ q, (s.process p).parent = some q → q ∈ s.processes
  zombieParent : ∀ p ∈ s.processes, (s.process p).state = .zombie → (s.process p).parent ≠ none
  collected : ∀ p ∈ s.processes,
    s.processHasThreads p = true ∨ (s.process p).state = .zombie ∨ .owner p ∈ s.work

theorem Lineage.of_calm (h : Lineage s) (hcalm : Calm s s') (howed : Owed s s') : Lineage s' := by
  have hzombie (p : Nat) : (s'.process p).state = .zombie ↔ (s.process p).state = .zombie := by
    rcases (hcalm.process p).state with heq | ⟨hold, hnew⟩
    · rw [heq]
    · exact iff_of_false hnew.1 hold.1
  refine ⟨hcalm.registered h.toRegistered, fun p hp q hq => ?_, fun p hp hz => ?_,
    fun p hp => ?_⟩ <;> rw [hcalm.processes] at hp
  · rw [hcalm.processes]
    exact h.parentListed p hp q ((hcalm.process p).parent.symm.trans hq)
  · rw [(hcalm.process p).parent]
    exact h.zombieParent p hp ((hzombie p).mp hz)
  · rw [hzombie]
    rcases h.collected p hp with hthread | hz | hwork
    · exact Or.inl (hcalm.same.hasThreads hthread)
    · exact Or.inr (Or.inl hz)
    · rcases howed p hp hwork with hwork | hthread | hz
      · exact Or.inr (Or.inr hwork)
      · exact Or.inl (hcalm.same.hasThreads hthread)
      · exact Or.inr (Or.inl hz)

/-- Removing a process without zombie children. -/
theorem Lineage.reapProcess (h : Lineage s) (hz : Childless s p) :
    Lineage (s.reapProcess p).2 := by
  have hregistered := h.toRegistered.reapProcess p
  cases hp : s.processHasThreads p with
  | true => rwa [reapProcess_refused hp]
  | false =>
    have hne {q : Nat} (hq : q ∈ s.processes.erase p) : q ≠ p ∧ q ∈ s.processes :=
      (h.processesNodup.mem_erase_iff).mp hq
    rw [reapProcess_eq hp] at hregistered ⊢
    refine ⟨hregistered, fun q hq r hr => ?_, fun q hq hzombie => ?_, fun q hq => ?_⟩ <;>
      obtain ⟨hqp, hmem⟩ := hne hq
    · dsimp only at hr
      rw [if_neg hqp] at hr
      split at hr
      next => cases hr
      next hrp =>
        refine (h.processesNodup.mem_erase_iff).mpr ⟨?_, h.parentListed q hmem r hr⟩
        rintro rfl
        exact hrp ⟨hmem, hr⟩
    · dsimp only at hzombie ⊢
      rw [if_neg hqp] at hzombie ⊢
      rw [if_neg fun hqparent => hz q hmem hqparent.2 hzombie]
      exact h.zombieParent q hmem hzombie
    · dsimp only
      rw [if_neg hqp]
      exact h.collected q hmem

theorem Lineage.create (h : Lineage s) (hp : p ∉ s.processes) (ht : t ∉ s.threads)
    (hparent : ∀ q, parent = some q → q ∈ s.processes) :
    Lineage (s.create p t parent cr3 startReady) := by
  refine ⟨h.toRegistered.create hp ht, fun q hq r hr => ?_, fun q hq hz => ?_, fun q hq => ?_⟩
  · refine mem_create_processes.mpr (Or.inl ?_)
    rcases mem_create_processes.mp hq with hq | rfl
    · rw [create_process hp hq] at hr
      exact h.parentListed q hq r hr
    · rw [create_new_process] at hr
      exact hparent r hr
  · rcases mem_create_processes.mp hq with hq | rfl
    · rw [create_process hp hq] at hz ⊢
      exact h.zombieParent q hq hz
    · rw [create_new_process] at hz
      cases hz
  · rcases mem_create_processes.mp hq with hq | rfl
    · rw [create_process hp hq]
      refine (h.collected q hq).imp_left fun hthreads => ?_
      obtain ⟨u, hu, huq, hus⟩ := processHasThreads_iff.mp hthreads
      exact processHasThreads_iff.mpr ⟨u, mem_create_threads.mpr (Or.inl hu),
        by rw [create_thread ht hu]; exact ⟨huq, hus⟩⟩
    · exact Or.inl (processHasThreads_iff.mpr ⟨t, mem_create_threads.mpr (Or.inr rfl), create_new⟩)

/-- An exit makes the process a zombie exactly when it has a parent. -/
theorem Lineage.markThreadDying (h : Lineage s) (ht : t ∈ s.threads) :
    Lineage (s.markThreadDying t exitStatus) := by
  obtain ⟨p, hp, htp⟩ := h.owned t ht
  have hsame : SameOwners s (s.markThreadDying t exitStatus) :=
    h.toRegistered.same_markThreadDying ht
  refine ⟨h.toRegistered.markThreadDying ht, fun q hq r hr => ?_, fun q hq hz => ?_,
    fun q hq => ?_⟩ <;> rw [hsame.processes] at hq <;> by_cases hqp : q = p
  · subst hqp
    rw [markThreadDying_process htp, if_pos rfl] at hr
    exact hsame.processes ▸ h.parentListed q hq r hr
  · rw [markThreadDying_process htp, if_neg hqp] at hr
    exact hsame.processes ▸ h.parentListed q hq r hr
  · subst hqp
    rw [markThreadDying_process htp, if_pos rfl] at hz ⊢
    dsimp only at hz
    split at hz
    next hsome => exact Option.isSome_iff_ne_none.mp hsome
    next => cases hz
  · rw [markThreadDying_process htp, if_neg hqp] at hz ⊢
    exact h.zombieParent q hq hz
  · subst hqp
    exact Or.inl (hsame.hasThreads (processHasThreads_iff.mpr ⟨t, ht, htp, (h.used t).mp ht⟩))
  · rw [markThreadDying_process htp, if_neg hqp, markThreadDying_work]
    exact (h.collected q hq).imp_left hsame.hasThreads

/-- The owner of a cleared thread is the only process that may have lost its last thread. -/
theorem Lineage.clearThread (h : Lineage s) (htp : (s.thread t).process = some p) :
    Lineage { s.clearThread t with work := .owner p :: s.work } := by
  refine ⟨h.toRegistered.clearThread _, h.parentListed, h.zombieParent, fun q hq => ?_⟩
  by_cases hqp : q = p
  · subst hqp
    exact Or.inr (Or.inr List.mem_cons_self)
  · rcases h.collected q hq with hhas | hzombie | hwork
    · obtain ⟨u, hu, huq, hus⟩ := processHasThreads_iff.mp hhas
      have hut : u ≠ t := by
        rintro rfl
        exact hqp (Option.some.inj (huq.symm.trans htp))
      refine Or.inl (processHasThreads_iff.mpr ⟨u, h.mem_erase_threads.mpr ⟨hut, hu⟩, ?_⟩)
      dsimp only
      rw [clearThread_thread hut]
      exact ⟨huq, hus⟩
    · exact Or.inr (Or.inl hzombie)
    · exact Or.inr (Or.inr (List.mem_cons_of_mem _ hwork))

theorem Lineage.step (h : Lineage s) (ha : Attended s a) : Lineage (s.step a) := by
  obtain ⟨x, hevent, hcalm, howed⟩ := h.toRegistered.eventful a
  refine Lineage.of_calm ?_ hcalm howed
  cases hevent with
  | none => exact h
  | create hp ht hparent => exact h.create hp ht hparent
  | exit ht => exact h.markThreadDying ht
  | clear htp => exact h.clearThread htp
  | reap hreaps => exact h.reapProcess (ha _ hreaps)
  | collect hreaps => exact h.reapProcess (ha _ hreaps)

/-! ## Runs -/

/-- Every registered process has a thread or a registered parent. -/
def Collectable (s : ProcessTable) : Prop :=
  ∀ p ∈ s.processes, s.processHasThreads p = true ∨
    ∃ q ∈ s.processes, (s.process p).parent = some q

theorem Lineage.collectable (h : Lineage s) (hw : s.work = []) : Collectable s := by
  intro p hp
  rcases h.collected p hp with hhas | hzombie | hnone
  · exact Or.inl hhas
  · obtain ⟨q, hq⟩ := Option.ne_none_iff_exists'.mp (h.zombieParent p hp hzombie)
    exact Or.inr ⟨q, h.parentListed p hp q hq, hq⟩
  · rw [hw] at hnone
    cases hnone

theorem registered_empty : Registered {} := by
  constructor <;> simp

theorem lineage_empty : Lineage {} := by
  refine ⟨registered_empty, ?_, ?_, ?_⟩ <;> simp

/-- After every finished call of a run in which no process is removed while a child of it is a
zombie, no zombie is left behind. -/
theorem run_collectable (actions : List TableAction) (ha : Along step Attended {} actions) (n : Nat)
    (hw : (run {} (actions.take n)).work = []) : Collectable (run {} (actions.take n)) := by
  have hlineage : Lineage (run {} (actions.take n)) :=
    ha.invariant Lineage (fun _ _ h => h.step) lineage_empty n
  exact hlineage.collectable hw

/-- Process 10 creates process 11, which exits and whose thread is reaped. -/
def childExits : List TableAction :=
  [.create 10 20 none 1#64 true, .switchTo 20, .create 11 21 (some 10) 2#64 true, .switchTo 21,
    .exit 21 0#32, .switchFrom 21, .reap, .advance true, .advance true, .advance true,
    .advance true]

/-- Process 10 exits and its thread is reaped. -/
def parentExits : List TableAction :=
  [.exit 20 0#32, .switchFrom 20, .reap, .advance true, .advance true, .advance true]

/-- Process 10 collects its child before it exits. -/
def collected : List TableAction := childExits ++ .wait 20 ⟨0#64, 0#64⟩ true :: parentExits

theorem collected_attended : Along step Attended {} collected := by
  refine ⟨?_, ?_, ?_, ?_, ?_, ?_, ?_, ?_, ?_, ?_, ?_, fun p hp => ?_, ?_, ?_, ?_, ?_,
    fun p hp => ?_, ?_, trivial⟩
  case refine_12 =>
    cases hp
    unfold Childless
    decide
  case refine_17 =>
    cases hp
    unfold Childless
    decide
  all_goals exact fun p hp => by cases hp

theorem run_collectable_waited :
    (run {} (collected.take 10)).processes = [10, 11] ∧ (run {} collected).processes = [] ∧
      Collectable (run {} (collected.take 18)) :=
  ⟨by decide, by decide, run_collectable collected collected_attended 18 (by decide)⟩

/-- Process 10 exits without waiting: its zombie child stays, without a parent. -/
theorem orphaned_zombie_stays :
    (run {} (childExits ++ parentExits)).work = [] ∧
      ¬ Collectable (run {} (childExits ++ parentExits)) := by
  refine ⟨by decide, fun h => ?_⟩
  rcases h 11 (by decide) with hhas | ⟨q, -, hq⟩
  · exact absurd hhas (by decide)
  · exact absurd hq (by
      have hnone : ((run {} (childExits ++ parentExits)).process 11).parent = none := by decide
      simp [hnone])

end Os1.Proc.ProcessTable
