import Os1.Proc.ProcessTable

/-! What `waitpid` decides from the registries, in the call and for a blocked caller. -/
namespace Os1.Proc.ProcessTable

open Sched

variable {s : ProcessTable} {p q t : Nat} {pid : BitVec 64} {args : WaitArgs} {copied : Bool}

/-- A live or zombie child of `p` that a wait for `pid` is about. -/
def Matching (s : ProcessTable) (p : Nat) (pid : BitVec 64) (q : Nat) : Prop :=
  q ∈ s.processes ∧ (s.process q).parent = some p ∧ (s.process q).state ≠ .free ∧
    (s.process q).state ≠ .dying ∧ (pid = 0#64 ∨ (s.process q).pid = pid)

/-- A matching child that is a zombie without threads. -/
def Finished (s : ProcessTable) (p : Nat) (pid : BitVec 64) (q : Nat) : Prop :=
  Matching s p pid q ∧ (s.process q).state = .zombie ∧ s.processHasThreads q = false

theorem matching_of_find {zombieOnly : Bool}
    (h : s.findChildProcess p pid zombieOnly = some q) : Matching s p pid q := by
  have hq := List.find?_some h
  simp only [Bool.and_eq_true, Bool.or_eq_true, decide_eq_true_eq] at hq
  exact ⟨List.mem_of_find?_eq_some h, hq.1.1.1.1, hq.1.1.1.2, hq.1.1.2, hq.2⟩

theorem zombie_of_find (h : s.findChildProcess p pid true = some q) :
    (s.process q).state = .zombie := by
  have hq := List.find?_some h
  simp only [Bool.and_eq_true, Bool.or_eq_true, decide_eq_true_eq] at hq
  simpa using hq.1.2

theorem not_matching_of_find (h : s.findChildProcess p pid false = none) (q : Nat) :
    ¬ Matching s p pid q := by
  rintro ⟨hq, hparent, hfree, hdying, hpid⟩
  have hnot := List.find?_eq_none.mp h q hq
  simp only [Bool.and_eq_true, Bool.or_eq_true, decide_eq_true_eq] at hnot
  exact hnot ⟨⟨⟨⟨hparent, hfree⟩, hdying⟩, Or.inl rfl⟩, hpid⟩

/-- What becomes of a wait. -/
inductive WaitDecision where
  | blocks
  | fails
  | collects (child : Nat)
  deriving DecidableEq, Repr

/-- The decision that both implementations of the wait make. -/
def waitDecision (s : ProcessTable) (p : Nat) (args : WaitArgs) (copied : Bool) : WaitDecision :=
  if args.pid >>> 63 ≠ 0#64 then .fails
  else
    match (s.findChildProcess p args.pid true).filter fun child => !s.processHasThreads child with
    | some child =>
      if args.userStatusPointer ≠ 0#64 ∧ !copied then .fails else .collects child
    | none => if (s.findChildProcess p args.pid false).isSome then .blocks else .fails

/-- The result that a decision gives the caller; a blocked one has none yet. -/
def WaitDecision.result (s : ProcessTable) : WaitDecision → Option Int
  | .blocks => none
  | .fails => some (-1)
  | .collects child => some (s.process child).pid.toNat

/-- The registries after a decision, the blocked caller apart. -/
def WaitDecision.table (s : ProcessTable) : WaitDecision → ProcessTable
  | .blocks | .fails => s
  | .collects child => (s.reapProcess child).2

theorem waitDecision_collects (h : s.waitDecision p args copied = .collects q) :
    Finished s p args.pid q := by
  unfold waitDecision at h
  split at h
  · exact absurd h (by simp)
  · split at h
    · rename_i child hchild
      split at h
      · exact absurd h (by simp)
      · obtain rfl : child = q := by simpa using h
        obtain ⟨hfind, hthreads⟩ := Option.filter_eq_some_iff.mp hchild
        exact ⟨matching_of_find hfind, zombie_of_find hfind, by simpa using hthreads⟩
    · split at h <;> exact absurd h (by simp)

theorem completeWait_eq (hq : s.processHasThreads q = false) :
    s.completeWait q args copied =
      if args.userStatusPointer ≠ 0#64 ∧ !copied then ((-1 : Int), s)
      else (((s.process q).pid.toNat : Int), (s.reapProcess q).2) := by
  unfold completeWait
  split
  · rfl
  · simp [reapProcess, hq]

theorem isSome_find_of_find (h : s.findChildProcess p pid true = some q) :
    (s.findChildProcess p pid false).isSome = true := by
  cases hfind : s.findChildProcess p pid false with
  | none => exact absurd (matching_of_find h) (not_matching_of_find hfind q)
  | some child => rfl

theorem filter_finished (hq : s.processHasThreads q = false) :
    ((some q).filter fun child => !s.processHasThreads child) = some q := by
  simp [Option.filter, hq]

/-- The decision for a blocked caller. -/
theorem tryCompleteWaitPid_eq (args : WaitArgs) (copied : Bool)
    (htp : (s.thread t).process = some p) :
    s.tryCompleteWaitPid t args copied =
      ((s.waitDecision p args copied).result s, (s.waitDecision p args copied).table s) := by
  unfold tryCompleteWaitPid waitDecision
  rw [htp]
  dsimp only
  split
  · rfl
  · cases hchild : s.findChildProcess p args.pid true with
    | none =>
      dsimp only [Option.filter_none]
      cases s.findChildProcess p args.pid false <;> rfl
    | some child =>
      dsimp only
      cases hthreads : s.processHasThreads child with
      | true => simp [Option.filter, hthreads, isSome_find_of_find hchild, WaitDecision.result,
          WaitDecision.table]
      | false =>
        rw [completeWait_eq hthreads, filter_finished hthreads]
        dsimp only [Bool.false_eq_true]
        rw [if_neg (by simp)]
        split <;> rfl

/-- The process that a wait for these arguments removes. -/
def waitReaps (s : ProcessTable) (t : Nat) (args : WaitArgs) (copied : Bool) : Option Nat :=
  match (s.thread t).process with
  | none => none
  | some p =>
    if args.pid >>> 63 ≠ 0#64 ∨ args.userStatusPointer ≠ 0#64 ∧ !copied then none
    else (s.findChildProcess p args.pid true).filter fun child => !s.processHasThreads child

theorem waitReaps_decision (args : WaitArgs) (copied : Bool)
    (htp : (s.thread t).process = some p) :
    s.waitReaps t args copied = match s.waitDecision p args copied with
      | .collects child => some child
      | _ => none := by
  unfold waitReaps waitDecision
  rw [htp]
  dsimp only
  by_cases hpid : args.pid >>> 63 ≠ 0#64
  · rw [if_pos (Or.inl hpid), if_pos hpid]
  · rw [if_neg hpid]
    cases (s.findChildProcess p args.pid true).filter fun child =>
        !s.processHasThreads child with
    | some child =>
      by_cases hcopy : args.userStatusPointer ≠ 0#64 ∧ !copied
      · simp only [if_pos (Or.inr hcopy), if_pos hcopy]
      · simp only [if_neg (not_or.mpr ⟨hpid, hcopy⟩), if_neg hcopy]
    | none => cases s.findChildProcess p args.pid false <;> simp

/-- The caller after its wait was put off. -/
def blockWait (s : ProcessTable) (t p : Nat) (args : WaitArgs) : ProcessTable :=
  (s.setThread t fun thread => { thread with wait := args, state := .blocked }).setProcess p
    fun process =>
      { process with
        state := if process.state = .dying then .dying else .ready
        childExitWaiters := Kernel.waitQueueEnqueue process.childExitWaiters t }

/-- The decision in the call. -/
theorem waitPid_eq (args : WaitArgs) (copied : Bool)
    (htp : (s.thread t).process = some p) :
    s.waitPid t args copied = match (s.waitDecision p args copied).result s with
      | none => s.blockWait t p args
      | some result => ((s.waitDecision p args copied).table s).setThread t fun thread =>
          { thread with rax := result } := by
  unfold waitPid waitDecision
  rw [htp]
  dsimp only
  split
  · rfl
  · cases hchild : s.findChildProcess p args.pid true with
    | none =>
      dsimp only [Option.filter_none]
      cases s.findChildProcess p args.pid false <;> rfl
    | some child =>
      dsimp only
      cases hthreads : s.processHasThreads child with
      | true =>
        obtain ⟨other, hother⟩ := Option.isSome_iff_exists.mp (isSome_find_of_find hchild)
        simp [Option.filter, hthreads, hother, WaitDecision.result, blockWait]
      | false =>
        rw [completeWait_eq hthreads, filter_finished hthreads]
        dsimp only [Bool.false_eq_true]
        rw [if_neg (by simp)]
        split <;> rfl

/-! ## What the decision should be -/

/-- Pids are handed out from 1 upwards and have not reached the sign bit. -/
def SmallPids (s : ProcessTable) : Prop := ∀ q ∈ s.processes, (s.process q).pid >>> 63 = 0#64

theorem SmallPids.wait (hsmall : SmallPids s) (hq : Matching s p pid q) : pid >>> 63 = 0#64 := by
  rcases hq.2.2.2.2 with rfl | rfl
  · decide
  · exact hsmall q hq.1

end Os1.Proc.ProcessTable
