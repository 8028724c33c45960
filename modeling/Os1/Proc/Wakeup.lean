import Os1.Lib.Along
import Os1.Proc.WaitPid

/-! A waiting parent is woken, as long as its queue is not emptied between check and enqueue. -/
namespace Os1.Proc

variable {s : WaitSystem} {args : WaitArgs} {copied : Bool} {stage : ReapStage}

/-- The sections of `reap_process` between its lock and its unlock. -/
@[grind] def ReapStage.Locked : ReapStage → Prop
  | .check | .unlink => True
  | .lock | .release => False

@[grind] def ParentPc.Locked : ParentPc → Prop
  | .check _ _ | .enqueue _ => True
  | .reap stage => stage.Locked
  | .outside _ | .find _ | .copy _ | .blocked => False

/-- The parent has found a zombie without threads. -/
@[grind] def ParentPc.Completing : ParentPc → Prop
  | .copy _ | .reap _ => True
  | .outside _ | .find _ | .check _ _ | .enqueue _ | .blocked => False

@[grind] def ReaperPc.Locked : ReaperPc → Prop
  | .check _ _ => True
  | .complete stage | .reapOwner stage => stage.Locked
  | .idle | .scan | .unlink | .hasThreads | .readState | .dequeue | .find _ | .copy _ | .findAny _
  | .wake _ | .requeue _ => False

/-- The reaper has removed the child's thread and will still look at the parent's queue. -/
@[grind] def ReaperPc.BeforeDequeue : ReaperPc → Prop
  | .hasThreads | .readState | .dequeue => True
  | .idle | .scan | .unlink | .find _ | .check _ _ | .copy _ | .complete _ | .findAny _ | .wake _
  | .requeue _ | .reapOwner _ => False

/-- The reaper has taken the parent from its queue. -/
@[grind] def ReaperPc.HasParent : ReaperPc → Prop
  | .find _ | .check _ _ | .copy _ | .complete _ | .findAny _ | .wake _ => True
  | .idle | .scan | .unlink | .hasThreads | .readState | .dequeue | .requeue _ | .reapOwner _ =>
    False

namespace WaitSystem

/-- The parent is on its queue, or will be as soon as it gets the queue's lock. -/
@[grind] def Waiting (s : WaitSystem) : Prop := s.queue ≠ none ∨ ∃ args, s.parent = .enqueue args

/-- Who is in a section of the process-table lock holds it. -/
structure Guarded (s : WaitSystem) : Prop where
  parent : s.parent.Locked → s.lock = some .parent
  reaper : s.reaper.Locked → s.lock = some .reaper

/-- The child's process and its thread end in order. -/
structure ChildLife (s : WaitSystem) : Prop where
  listed : s.threadListed = false → s.childThread = .left
  alive : s.childThread = .running → s.childState ≠ .zombie ∧ s.childState ≠ .free
  exited : s.childThread ≠ .running → s.childState = .zombie ∨ s.childState = .free
  freed : s.childState = .free → s.childFreed = true
  scanned : s.reaper = .unlink → s.childThread = .left

/-- What the parent has found out while it holds the lock, and where it is when it waits. -/
structure ParentKnows (s : WaitSystem) : Prop where
  found : ∀ args found, s.parent = .check args found → found = s.findChild args.pid true
  completing : s.parent.Completing → s.threadListed = false
  queued : s.queue ≠ none → s.parent = .blocked

/-- What the reaper has found out; it never puts the parent back on its queue. -/
structure ReaperKnows (s : WaitSystem) : Prop where
  unlisted : s.reaper.BeforeDequeue ∨ s.reaper.HasParent → s.threadListed = false
  taken : s.reaper.HasParent → s.parent = .blocked ∧ s.queue = none
  owner : ∀ stage, s.reaper = .reapOwner stage → s.childState = .free
  found : ∀ args found, s.reaper = .check args found → found = s.findChild args.pid true
  missing : ∀ args, s.reaper = .findAny args → s.findChild args.pid true = false
  notRequeued : ∀ args, s.reaper ≠ .requeue args

/-- A waiting parent has a child whose thread is still listed, or the reaper is on its way to the
parent's queue. -/
structure Watched (s : WaitSystem) : Prop where
  guarded : Guarded s
  childLife : ChildLife s
  parentKnows : ParentKnows s
  reaperKnows : ReaperKnows s
  watched : s.Waiting → (s.threadListed = true ∨ s.reaper.BeforeDequeue) ∧ s.childState ≠ .free

/-! ## The lock -/

theorem Guarded.childStep (h : Guarded s) : Guarded s.childStep := by
  obtain ⟨hp, hr⟩ := h
  unfold WaitSystem.childStep
  split <;> (try split) <;> exact ⟨hp, hr⟩

theorem Guarded.parentStep (h : Guarded s) (copied : Bool) : Guarded (s.parentStep copied) := by
  obtain ⟨hp, hr⟩ := h
  unfold WaitSystem.parentStep
  split
  case h_7 stage _ => cases stage <;> grind -linarith -order [reapProcess, Guarded]
  all_goals grind -linarith -order [Guarded]

theorem Guarded.reaperStep (h : Guarded s) (copied : Bool) : Guarded (s.reaperStep copied) := by
  obtain ⟨hp, hr⟩ := h
  unfold WaitSystem.reaperStep
  split
  case h_10 stage _ => cases stage <;> grind -linarith -order [reapProcess, Guarded]
  case h_14 stage _ => cases stage <;> grind -linarith -order [reapProcess, Guarded]
  all_goals grind -linarith -order [Guarded]

/-! ## The child -/

theorem ChildLife.childStep (h : ChildLife s) : ChildLife s.childStep := by
  obtain ⟨hlisted, halive, hexited, hfreed, hscanned⟩ := h
  unfold WaitSystem.childStep
  split <;> grind -linarith -order [ChildLife]

theorem ChildLife.parentStep (h : ChildLife s) (hp : ParentKnows s) (copied : Bool) :
    ChildLife (s.parentStep copied) := by
  obtain ⟨hlisted, halive, hexited, hfreed, hscanned⟩ := h
  have hcompleting := hp.completing
  unfold WaitSystem.parentStep
  split
  case h_7 stage _ => cases stage <;> grind -linarith -order [reapProcess, ChildLife]
  all_goals grind -linarith -order [ChildLife]

theorem ChildLife.reaperStep (h : ChildLife s) (hr : ReaperKnows s) (copied : Bool) :
    ChildLife (s.reaperStep copied) := by
  obtain ⟨hlisted, halive, hexited, hfreed, hscanned⟩ := h
  have hunlisted := hr.unlisted
  have howner := hr.owner
  unfold WaitSystem.reaperStep
  split
  case h_10 stage _ => cases stage <;> grind -linarith -order [reapProcess, ChildLife]
  case h_14 stage _ => cases stage <;> grind -linarith -order [reapProcess, ChildLife]
  all_goals grind -linarith -order [ChildLife]

/-! ## What the parent knows -/

theorem ParentKnows.childStep (h : ParentKnows s) (hg : Guarded s) : ParentKnows s.childStep := by
  obtain ⟨hfound, hcompleting, hqueued⟩ := h
  have hlock := hg.parent
  unfold WaitSystem.childStep
  split <;> grind -linarith -order [ParentKnows, findChild]

theorem ParentKnows.parentStep (h : ParentKnows s) (copied : Bool) :
    ParentKnows (s.parentStep copied) := by
  obtain ⟨hfound, hcompleting, hqueued⟩ := h
  unfold WaitSystem.parentStep
  split
  case h_7 stage _ => cases stage <;> grind -linarith -order [reapProcess, ParentKnows, findChild]
  all_goals grind -linarith -order [ParentKnows, findChild]

theorem ParentKnows.reaperStep (h : ParentKnows s) (hg : Guarded s) (hr : ReaperKnows s)
    (copied : Bool) : ParentKnows (s.reaperStep copied) := by
  obtain ⟨hfound, hcompleting, hqueued⟩ := h
  have hlock := hg.parent
  have hlock' := hg.reaper
  have htaken := hr.taken
  have howner := hr.owner
  have hnot := hr.notRequeued
  unfold WaitSystem.reaperStep
  split
  case h_10 stage _ => cases stage <;> grind -linarith -order [reapProcess, ParentKnows, findChild]
  case h_14 stage _ => cases stage <;> grind -linarith -order [reapProcess, ParentKnows, findChild]
  all_goals grind -linarith -order [ParentKnows, findChild]

/-! ## What the reaper knows -/

theorem ReaperKnows.childStep (h : ReaperKnows s) (hg : Guarded s) (hl : ChildLife s) :
    ReaperKnows s.childStep := by
  obtain ⟨hunlisted, htaken, howner, hfound, hmissing, hnot⟩ := h
  have hlock := hg.reaper
  have hlisted := hl.listed
  have halive := hl.alive
  unfold WaitSystem.childStep
  split <;> grind -linarith -order [ReaperKnows, findChild]

theorem ReaperKnows.parentStep (h : ReaperKnows s) (hg : Guarded s) (copied : Bool) :
    ReaperKnows (s.parentStep copied) := by
  obtain ⟨hunlisted, htaken, howner, hfound, hmissing, hnot⟩ := h
  have hlock := hg.parent
  have hlock' := hg.reaper
  unfold WaitSystem.parentStep
  split
  case h_7 stage _ => cases stage <;> grind -linarith -order [reapProcess, ReaperKnows, findChild]
  all_goals grind -linarith -order [ReaperKnows, findChild]

theorem ReaperKnows.reaperStep (h : ReaperKnows s) (hg : Guarded s) (hl : ChildLife s)
    (hp : ParentKnows s) (copied : Bool) : ReaperKnows (s.reaperStep copied) := by
  obtain ⟨hunlisted, htaken, howner, hfound, hmissing, hnot⟩ := h
  have hlock := hg.reaper
  obtain ⟨hlisted, halive, hexited, hfreed, hscanned⟩ := hl
  have hqueued := hp.queued
  unfold WaitSystem.reaperStep
  split
  case h_3 | h_12 => constructor <;> grind -linarith -order
  case h_10 stage _ => cases stage <;> grind -linarith -order [reapProcess, ReaperKnows, findChild]
  case h_14 stage _ => cases stage <;> grind -linarith -order [reapProcess, ReaperKnows, findChild]
  all_goals grind -linarith -order [ReaperKnows, findChild]

/-! ## The wakeup -/

/-- The child can become a zombie only while nobody holds the process-table lock. -/
theorem Watched.childStep (h : Watched s) : Watched s.childStep := by
  refine ⟨h.guarded.childStep, h.childLife.childStep, h.parentKnows.childStep h.guarded,
    h.reaperKnows.childStep h.guarded h.childLife, ?_⟩
  have hw := h.watched
  unfold WaitSystem.childStep
  split <;> grind -linarith -order

/-- The parent begins to wait only for a child whose thread is listed: a zombie without threads
completes the call, and a child that is no zombie still runs. -/
theorem Watched.parentStep (h : Watched s) (copied : Bool) : Watched (s.parentStep copied) := by
  refine ⟨h.guarded.parentStep copied, h.childLife.parentStep h.parentKnows copied,
    h.parentKnows.parentStep copied, h.reaperKnows.parentStep h.guarded copied, ?_⟩
  have hw := h.watched
  obtain ⟨hlisted, halive, hexited, hfreed, hscanned⟩ := h.childLife
  obtain ⟨hfound, hcompleting, hqueued⟩ := h.parentKnows
  unfold WaitSystem.parentStep
  split
  case h_7 stage _ => cases stage <;> grind -linarith -order [reapProcess]
  all_goals grind -linarith -order [findChild]

/-- The reaper unlists the thread before it empties the queue; emptying it is harmless as long as
the parent is not about to enqueue itself. -/
theorem Watched.reaperStep (h : Watched s) (copied : Bool)
    (hg : s.reaper = .dequeue → ∀ args, s.parent ≠ .enqueue args) :
    Watched (s.reaperStep copied) := by
  refine ⟨h.guarded.reaperStep copied, h.childLife.reaperStep h.reaperKnows copied,
    h.parentKnows.reaperStep h.guarded h.reaperKnows copied,
    h.reaperKnows.reaperStep h.guarded h.childLife h.parentKnows copied, ?_⟩
  have hw := h.watched
  obtain ⟨hlisted, halive, hexited, hfreed, hscanned⟩ := h.childLife
  obtain ⟨hunlisted, htaken, howner, hfound, hmissing, hnot⟩ := h.reaperKnows
  unfold WaitSystem.reaperStep
  split
  case h_10 stage _ => cases stage <;> grind -linarith -order [reapProcess]
  case h_14 stage _ => cases stage <;> grind -linarith -order [reapProcess]
  all_goals grind -linarith -order

/-- The queue is not emptied between the parent's look at the thread registry and its enqueue. -/
def Patient (s : WaitSystem) : Action → Prop
  | .reaper _ => s.reaper = .dequeue → ∀ args, s.parent ≠ .enqueue args
  | _ => True

/-- Entering a call only moves the caller's program counter. -/
theorem Watched.of_call {parent : ParentPc} {reaper : ReaperPc} (h : Watched s)
    (hp : parent = s.parent ∨ (∃ result, s.parent = .outside result) ∧
      ((∃ result, parent = .outside result) ∨ ∃ args, parent = .find args))
    (hr : reaper = s.reaper ∨ s.reaper = .idle ∧ reaper = .scan) :
    Watched { s with parent := parent, reaper := reaper } := by
  obtain ⟨⟨hlock, hlock'⟩, ⟨hlisted, halive, hexited, hfreed, hscanned⟩,
    ⟨hfound, hcompleting, hqueued⟩, ⟨hunlisted, htaken, howner, hfound', hmissing, hnot⟩, hw⟩ := h
  refine ⟨⟨?_, ?_⟩, ⟨hlisted, halive, hexited, hfreed, ?_⟩, ⟨?_, ?_, ?_⟩, ⟨?_, ?_, ?_, ?_, ?_, ?_⟩,
    ?_⟩ <;> grind -linarith -order [findChild]

theorem Watched.step {a : Action} (h : Watched s) (hg : Patient s a) : Watched (s.step a) := by
  unfold WaitSystem.step
  split
  · exact h
  cases a with
  | callWait args =>
    dsimp only
    split
    case h_1 result hp =>
      split
      · exact h.of_call (Or.inr ⟨⟨_, hp⟩, Or.inl ⟨_, rfl⟩⟩) (Or.inl rfl)
      · exact h.of_call (Or.inr ⟨⟨_, hp⟩, Or.inr ⟨_, rfl⟩⟩) (Or.inl rfl)
    case h_2 => exact h
  | parent copied => exact h.parentStep copied
  | child => exact h.childStep
  | callReap =>
    dsimp only
    split
    case isTrue hidle => exact h.of_call (Or.inl rfl) (Or.inr ⟨hidle, rfl⟩)
    case isFalse => exact h
  | reaper copied => exact h.reaperStep copied hg

/-! ## Runs -/

/-- The child runs, the parent and the reaper are outside their calls. -/
structure Begun (s : WaitSystem) : Prop where
  lock : s.lock = none
  childState : s.childState = .ready ∨ s.childState = .running
  childThread : s.childThread = .running
  threadListed : s.threadListed = true
  queue : s.queue = none
  parent : ∃ result, s.parent = .outside result
  reaper : s.reaper = .idle

theorem Begun.watched (h : Begun s) : Watched s := by
  obtain ⟨hlock, hstate, hthread, hlisted, hqueue, ⟨result, hparent⟩, hreaper⟩ := h
  refine ⟨?_, ?_, ?_, ?_, ?_⟩ <;>
    grind -linarith -order [Guarded, ChildLife, ParentKnows, ReaperKnows]

/-- Both are outside their calls, and the parent is blocked on its queue although the child is a
zombie without threads. -/
def Lost (s : WaitSystem) : Prop :=
  s.parent = .blocked ∧ s.reaper = .idle ∧ s.queue ≠ none ∧ s.childState = .zombie ∧
    s.threadListed = false

/-- No wakeup is lost in a run in which the queue is never emptied between the parent's check and
its enqueue. -/
theorem run_not_lost (s : WaitSystem) (h : Begun s) (actions : List Action)
    (hg : Along step Patient s actions) (n : Nat) : ¬ Lost (s.run (actions.take n)) := by
  have hw : Watched (s.run (actions.take n)) :=
    hg.invariant Watched (fun _ _ hs => hs.step) h.watched n
  rintro ⟨-, hidle, hqueue, -, hlisted⟩
  rcases (hw.watched (Or.inl hqueue)).1 with hl | hbefore
  · rw [hlisted] at hl
    exact absurd hl (by simp)
  · rw [hidle] at hbefore
    exact hbefore

/-- A child with pid 2. -/
def onePair : WaitSystem := { childPid := 2#64, childState := .running }

theorem onePair_begun : Begun onePair :=
  ⟨rfl, Or.inr rfl, rfl, rfl, rfl, ⟨none, rfl⟩, rfl⟩

/-- The child exits and leaves its CPU, and the parent finds that its thread is still listed. -/
def exitAndCheck : List Action :=
  [.child, .child, .child, .callWait ⟨2#64, 0#64⟩, .parent true, .parent true]

/-- The reaper removes the child's thread and is about to empty the parent's queue. -/
def reapThread : List Action :=
  [.callReap, .reaper true, .reaper true, .reaper true, .reaper true]

/-- The parent enqueues itself before the reaper empties the queue and completes the call. -/
def enqueueFirst : List Action :=
  exitAndCheck ++ reapThread ++
    [.parent true, .reaper true, .reaper true, .reaper true, .reaper true, .reaper true,
      .reaper true, .reaper true, .reaper true, .reaper true]

theorem enqueueFirst_patient : Along step Patient onePair enqueueFirst := by
  refine ⟨trivial, trivial, trivial, trivial, trivial, trivial, trivial, ?_, ?_, ?_, ?_, trivial,
    (fun _ _ h => by cases h), ?_, ?_, ?_, ?_, ?_, ?_, ?_, ?_, trivial⟩ <;>
    exact fun h => by cases h

theorem run_not_lost_enqueued :
    (onePair.run enqueueFirst).parent = .outside (some 2) ∧
      ¬ Lost (onePair.run (enqueueFirst.take 21)) :=
  ⟨by decide, run_not_lost onePair onePair_begun enqueueFirst enqueueFirst_patient 21⟩

/-- The reaper empties the queue first; the parent then sleeps beside its zombie. -/
theorem wakeup_lost :
    Begun onePair ∧ Lost (onePair.run
      (exitAndCheck ++ reapThread ++ [.reaper true, .reaper true, .parent true])) := by
  refine ⟨onePair_begun, ?_⟩
  unfold Lost
  decide

end WaitSystem
end Os1.Proc
