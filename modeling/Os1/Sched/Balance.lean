import Os1.Lib.Potential
import Os1.Sched.QueueOrder

/-! What one call of the balancer moves, and how many calls in a row can move something. -/
namespace Os1.Sched.RunQueues

/-- `scheduler_balance_cpu` with the value that it returns. -/
def balanceCpu (s : RunQueues) (target : Nat) (now : BitVec 64) (force : Bool) :
    Bool × RunQueues :=
  if !s.smpBalancerEnabled || !s.cpuIsSchedulable target || s.schedulableCpuCount < 2 then
    (false, s)
  else
    let depths := s.cpus.foldl (s.readDepth target) {}
    let targetDepth := (depths.total + s.schedulableCpuCount - 1) / s.schedulableCpuCount
    match depths.donor with
    | none => (false, s)
    | some donor =>
      if Kernel.worthMoving depths.own depths.donorDepth targetDepth force ∧
          Kernel.worthMoving (s.cpu target).runq.length (s.cpu donor).runq.length targetDepth force
      then ((s.detachLastMigratableThreadLocked donor target now).1.isSome,
        s.migrate donor target now)
      else (false, s)

variable {s s' : RunQueues} {queue : Nat → List Nat} {donor target t u : Nat} {now : BitVec 64}
  {force : Bool} {l l₁ l₂ : List Nat} {depths : Depths}

/-- The state is the one that `schedulerBalanceCpu` computes. -/
theorem balanceCpu_snd : (s.balanceCpu target now force).2 =
    s.schedulerBalanceCpu target now force := by
  unfold balanceCpu schedulerBalanceCpu
  split
  · rfl
  · cases hdonor : (s.cpus.foldl (s.readDepth target) {}).donor with
    | none => simp only [hdonor]
    | some donor =>
      simp only [hdonor]
      split <;> rfl

/-! ## The donor -/

/-- What is known of the donor once the depths of some CPUs have been read. -/
structure Surveyed (s : RunQueues) (target : Nat) (seen : List Nat) (depths : Depths) : Prop where
  longest : ∀ c ∈ seen, s.cpuIsSchedulable c = true → c ≠ target →
    (s.cpu c).runq.length ≤ depths.donorDepth
  donor : ∀ c ∈ depths.donor, c ∈ seen ∧ s.cpuIsSchedulable c = true ∧ c ≠ target ∧
    (s.cpu c).runq.length = depths.donorDepth

/-- A CPU that is not deeper than the donor leaves the donor as it is. -/
theorem Surveyed.keep {seen : List Nat} {owner : Nat} {depths' : Depths}
    (h : Surveyed s target seen depths) (hdonor : depths'.donor = depths.donor)
    (hdepth : depths'.donorDepth = depths.donorDepth)
    (hnew : s.cpuIsSchedulable owner = true → owner ≠ target →
      (s.cpu owner).runq.length ≤ depths.donorDepth) :
    Surveyed s target (seen ++ [owner]) depths' := by
  constructor
  · intro c hc hsched hne
    rw [hdepth]
    rcases List.mem_append.mp hc with hc | hc
    · exact h.longest c hc hsched hne
    · obtain rfl := List.mem_singleton.mp hc
      exact hnew hsched hne
  · intro c hc
    rw [hdonor] at hc
    rw [hdepth]
    obtain ⟨hmem, hrest⟩ := h.donor c hc
    exact ⟨List.mem_append_left _ hmem, hrest⟩

theorem Surveyed.read {seen : List Nat} (h : Surveyed s target seen depths) (owner : Nat) :
    Surveyed s target (seen ++ [owner]) (s.readDepth target depths owner) := by
  unfold readDepth
  split
  next hsched =>
    dsimp only
    split
    next heq => exact h.keep rfl rfl fun _ hne => absurd heq hne
    next hne =>
      split
      next hdeeper =>
        constructor
        · intro c hc hcs hcne
          rcases List.mem_append.mp hc with hc | hc
          · exact (h.longest c hc hcs hcne).trans hdeeper.le
          · rw [List.mem_singleton.mp hc]
        · intro c hc
          cases hc
          exact ⟨by simp, hsched, hne, rfl⟩
      next hnot => exact h.keep rfl rfl fun _ _ => not_lt.mp hnot
  next hsched => exact h.keep rfl rfl fun hs => absurd hs hsched

theorem Surveyed.foldl {seen : List Nat} (h : Surveyed s target seen depths) (l : List Nat) :
    Surveyed s target (seen ++ l) (l.foldl (s.readDepth target) depths) := by
  induction l generalizing seen depths with
  | nil => simpa using h
  | cons owner l ih => simpa using ih (h.read owner)

/-- The donor is the schedulable CPU with the longest queue beside the target. -/
structure Donates (s : RunQueues) (queue : Nat → List Nat) (target donor : Nat) : Prop where
  listed : donor ∈ s.cpus
  schedulable : s.cpuIsSchedulable donor = true
  other : donor ≠ target
  longest : ∀ c ∈ s.cpus, s.cpuIsSchedulable c = true → c ≠ target →
    (queue c).length ≤ (queue donor).length
  deeper : (queue target).length + 2 ≤ (queue donor).length

/-- Either a check fails, or the donor is asked for a thread. -/
theorem balanceCpu_cases (h : Linked s queue) (target : Nat) (now : BitVec 64) (force : Bool) :
    s.balanceCpu target now force = (false, s) ∨
      ∃ donor, Donates s queue target donor ∧ s.balanceCpu target now force =
        ((s.detachLastMigratableThreadLocked donor target now).1.isSome,
          s.migrate donor target now) := by
  unfold balanceCpu
  split
  · exact Or.inl rfl
  have hsurvey : Surveyed s target s.cpus (s.cpus.foldl (s.readDepth target) {}) := by
    have hstart : Surveyed s target [] {} := ⟨by simp, by simp⟩
    simpa using hstart.foldl s.cpus
  cases hdonor : (s.cpus.foldl (s.readDepth target) {}).donor with
  | none => exact Or.inl (by simp only [hdonor])
  | some donor =>
    simp only [hdonor]
    split
    next hworth =>
      obtain ⟨hmem, hsched, hne, hdepth⟩ := hsurvey.donor donor hdonor
      refine Or.inr ⟨donor, ⟨hmem, hsched, hne, fun c hc hcs hcne => ?_, ?_⟩, rfl⟩
      · rw [← h.length, ← h.length, hdepth]
        exact hsurvey.longest c hc hcs hcne
      · have hdeeper := hworth.2
        simp only [Kernel.worthMoving, Bool.and_eq_true, decide_eq_true_eq, h.length] at hdeeper
        omega
    next => exact Or.inl rfl

/-! ## The move -/

/-- The thread `t` has left its place in the donor's queue and is the last of the target's. Its own
record says so; of the other records only links have changed. -/
structure Moves (s s' : RunQueues) (queue : Nat → List Nat) (donor target t : Nat)
    (l₁ l₂ : List Nat) (now : BitVec 64) : Prop where
  taken : queue donor = l₁ ++ t :: l₂
  migratable : Kernel.threadIsMigratable (s.thread t).toThread target now = true
  last : ∀ u ∈ l₂, ¬ Kernel.threadIsMigratable (s.thread u).toThread target now = true
  queued : WellQueued s' fun c =>
    if c = target then queue target ++ [t] else if c = donor then l₁ ++ l₂ else queue c
  moved : (s'.thread t).toThread = { (s.thread t).toThread with
    runQueueCpu := some target, schedulerCpu := some target, lastMigrationTick := now }
  others : ∀ u ≠ t, (s'.thread u).toThread = (s.thread u).toThread
  cpus : ∀ c, { s'.cpu c with runq := {} } = { s.cpu c with runq := {} }
  registry : s'.registry = s.registry
  listed : s'.cpus = s.cpus

theorem unlink_toThread (previous : Option Nat) (u : Nat) :
    ((s.unlinkThread donor t previous).thread u).toThread =
      if u = t then { (s.thread u).toThread with runQueueCpu := none }
      else (s.thread u).toThread := by
  cases previous <;>
    simp only [unlinkThread, setNext, setThread, setQueue, setRunQueueCpu] <;>
    grind -linarith -order

theorem append_toThread (u : Nat) :
    ((s.appendReadyThreadLocked target t).thread u).toThread =
      if u = t then { (s.thread u).toThread with runQueueCpu := some target }
      else (s.thread u).toThread := by
  cases hlast : (s.cpu target).runq.tail <;>
    simp only [appendReadyThreadLocked, setNext, setThread, setQueue, setRunQueueCpu, hlast] <;>
    grind -linarith -order

theorem unlink_cpu (previous : Option Nat) (c : Nat) :
    { (s.unlinkThread donor t previous).cpu c with runq := {} } =
      { s.cpu c with runq := {} } := by
  cases previous <;>
    simp only [unlinkThread, setNext, setThread, setQueue, setRunQueueCpu] <;>
    grind -linarith -order

theorem append_cpu (c : Nat) :
    { (s.appendReadyThreadLocked target t).cpu c with runq := {} } =
      { s.cpu c with runq := {} } := by
  cases hlast : (s.cpu target).runq.tail <;>
    simp only [appendReadyThreadLocked, setNext, setThread, setQueue, setRunQueueCpu, hlast] <;>
    grind -linarith -order

/-- The record of a moved thread, put at the end of the target's queue. -/
theorem Linked.move (h : Linked s queue) (hne : donor ≠ target) (hq : queue donor = l₁ ++ t :: l₂) :
    Linked ((s.unlinkThread donor t l₁.getLast?).appendReadyThreadLocked target t) fun c =>
      if c = target then queue target ++ [t] else if c = donor then l₁ ++ l₂ else queue c := by
  have howner : ((s.unlinkThread donor t l₁.getLast?).thread t).runQueueCpu = none := by
    rw [unlink_owner, if_pos rfl]
  have hlinked : Linked ((s.unlinkThread donor t l₁.getLast?).appendReadyThreadLocked target t) _ :=
    (h.unlink hq).append howner
  have heq : (fun c => if c = target then
        (if target = donor then l₁ ++ l₂ else queue target) ++ [t]
      else if c = donor then l₁ ++ l₂ else queue c) = fun c =>
      if c = target then queue target ++ [t] else if c = donor then l₁ ++ l₂ else queue c := by
    rw [if_neg hne.symm]
  exact heq ▸ hlinked

theorem WellQueued.length_le (h : WellQueued s queue) (c : Nat) :
    (queue c).length ≤ s.registry.length :=
  (List.subperm_of_subset (h.linked.nodup c) fun _ ht => h.inUse ht).length_le

/-- The donor has no migratable thread, or its last one moves. -/
theorem WellQueued.migrate (h : WellQueued s queue) (hne : donor ≠ target) (now : BitVec 64) :
    (s.detachLastMigratableThreadLocked donor target now).1 = none ∧
        s.migrate donor target now = s ∨
      ∃ t l₁ l₂, (s.detachLastMigratableThreadLocked donor target now).1 = some t ∧
        Moves s (s.migrate donor target now) queue donor target t l₁ l₂ now := by
  obtain hnone | ⟨l₁, t, l₂, hq, ht, hlast, hfound, heq⟩ :=
    h.linked.detach target now (h.length_le donor)
  · exact Or.inl hnone
  refine Or.inr ⟨t, l₁, l₂, hfound, hq, ht, hlast, ?_, ?_, ?_, ?_, ?_, ?_⟩ <;> rw [heq]
  · have hlinked := h.linked.move hne hq
    have hold : ∀ c u, u ∈ (if c = target then queue target ++ [t]
        else if c = donor then l₁ ++ l₂ else queue c) → ∃ d, u ∈ queue d := by
      intro c u hu
      have htaken : ∀ v, v = t ∨ v ∈ l₁ ++ l₂ → v ∈ queue donor := fun v hv => by
        rw [hq]
        simp only [List.mem_append, List.mem_cons] at hv ⊢
        tauto
      split at hu
      · rcases List.mem_append.mp hu with hu | hu
        · exact ⟨target, hu⟩
        · exact ⟨donor, htaken u (Or.inl (List.mem_singleton.mp hu))⟩
      · split at hu
        · exact ⟨donor, htaken u (Or.inr hu)⟩
        · exact ⟨c, hu⟩
    have hsame : SameRecords s
        ((s.unlinkThread donor t l₁.getLast?).appendReadyThreadLocked target t) :=
      unlink_same.trans append_same
    have hset : Linked (((s.unlinkThread donor t
        l₁.getLast?).appendReadyThreadLocked target t).setThread t fun thread =>
          { thread with schedulerCpu := some target, lastMigrationTick := now }) _ :=
      hlinked.congr (fun _ => rfl) (fun u => by simp only [setThread]; split <;> rfl)
        (fun u => by simp only [setThread]; split <;> rfl)
    refine ⟨hset, hset.owner_unique, fun {c d u} hi hu => ?_, fun {c u} hu => ?_⟩
    · obtain ⟨e, he⟩ := hold c u hu
      exact h.idle ((hsame.idle d).symm.trans hi) he
    · obtain ⟨e, he⟩ := hold c u hu
      exact hsame.registry ▸ h.inUse he
  · simp [setThread, append_toThread, unlink_toThread]
  · intro u hu
    simp [setThread, append_toThread, unlink_toThread, hu]
  · exact fun c => (append_cpu c).trans (unlink_cpu _ c)
  · exact append_same.registry.trans unlink_same.registry
  · exact append_same.cpus.trans unlink_same.cpus

/-- A call of the balancer returns false and changes nothing, or it returns true and has moved one
thread: the last migratable one of the longest queue. -/
theorem balance_moves_one (h : WellQueued s queue) (target : Nat) (now : BitVec 64)
    (force : Bool) : s.balanceCpu target now force = (false, s) ∨
      ∃ s' donor t l₁ l₂, s.balanceCpu target now force = (true, s') ∧
        Donates s queue target donor ∧ Moves s s' queue donor target t l₁ l₂ now := by
  obtain hfalse | ⟨donor, hdonor, heq⟩ := balanceCpu_cases h.linked target now force
  · exact Or.inl hfalse
  obtain ⟨hnone, hsame⟩ | ⟨t, l₁, l₂, hsome, hmoves⟩ := h.migrate hdonor.other now
  · exact Or.inl (by rw [heq, hnone, hsame]; rfl)
  · exact Or.inr ⟨_, donor, t, l₁, l₂, by rw [heq, hsome]; rfl, hdonor, hmoves⟩

/-- The user threads 3, 4 and 5 wait on CPU 0 and none on CPU 1. -/
def crowded : RunQueues where
  boot := 0
  others := [1]
  cpu c := if c = 0 then { idle := some 1, runq := ⟨some 3, some 5, 3⟩ }
    else { idle := if c = 1 then some 2 else none, booted := c = 1 }
  thread t := if 3 ≤ t ∧ t ≤ 5 then
      { newThread .ready true with
        runQueueCpu := some 0, next := if t = 5 then none else some (t + 1) }
    else {}
  registry := [1, 2, 3, 4, 5]
  lastKernelThreadCpu := 0
  lastUserThreadCpu := 0

def crowdedQueue (c : Nat) : List Nat := if c = 0 then [3, 4, 5] else []

theorem mem_crowdedQueue {c : Nat} : t ∈ crowdedQueue c ↔ c = 0 ∧ 3 ≤ t ∧ t ≤ 5 := by
  unfold crowdedQueue
  split
  · simp_all
    omega
  · simp_all

theorem crowded_wellQueued : WellQueued crowded crowdedQueue := by
  have hlinked : Linked crowded crowdedQueue := by
    constructor
    case chain =>
      intro c
      by_cases hc : c = 0 <;> simp [crowded, crowdedQueue, hc, Seg]
    case nodup =>
      intro c
      by_cases hc : c = 0 <;> simp [crowdedQueue, hc]
    case tail =>
      intro c
      by_cases hc : c = 0 <;> simp [crowded, crowdedQueue, hc]
    case length =>
      intro c
      by_cases hc : c = 0 <;> simp [crowded, crowdedQueue, hc]
    case mem_iff =>
      intro c t
      rw [mem_crowdedQueue]
      by_cases ht : 3 ≤ t ∧ t ≤ 5 <;> simp [crowded, ht, eq_comm]
  refine ⟨hlinked, hlinked.owner_unique, fun {c d t} hi hmem => ?_, fun {c t} hmem => ?_⟩
  · have ht := (mem_crowdedQueue.mp hmem).2
    simp only [crowded] at hi
    split at hi
    · cases hi
      omega
    · split at hi
      · cases hi
        omega
      · cases hi
  · have ht := (mem_crowdedQueue.mp hmem).2
    simp only [crowded, List.mem_cons]
    omega

/-- CPU 1 takes a thread of CPU 0. -/
theorem balance_moves_one_crowded :
    ∃ s' donor t l₁ l₂, crowded.balanceCpu 1 1#64 true = (true, s') ∧
      Donates crowded crowdedQueue 1 donor ∧
      Moves crowded s' crowdedQueue donor 1 t l₁ l₂ 1#64 :=
  (balance_moves_one crowded_wellQueued 1 1#64 true).resolve_left fun hfalse =>
    absurd (congrArg Prod.fst hfalse) (by decide +kernel)

/-! ## Calls in a row -/

structure BalanceCall where
  target : Nat
  now : BitVec 64
  force : Bool
  deriving DecidableEq, Repr

/-- What a call returns and leaves. -/
def balance (s : RunQueues) (call : BalanceCall) : Bool × RunQueues :=
  s.balanceCpu call.target call.now call.force

/-- The state after the first `n` calls of a sequence. -/
def afterBalancing (s : RunQueues) (calls : ℕ → BalanceCall) : ℕ → RunQueues
  | 0 => s
  | n + 1 => ((s.afterBalancing calls n).balance (calls n)).2

/-- The calls of the sequence that return true. -/
def movingCalls (s : RunQueues) (calls : ℕ → BalanceCall) : Set ℕ :=
  {n | ((s.afterBalancing calls n).balance (calls n)).1 = true}

def sumOfSquares (s : RunQueues) : ℕ := ∑ c ∈ s.cpus.toFinset, (s.cpu c).runq.length ^ 2

theorem Moves.sumOfSquares (h : Linked s queue) (hdonor : Donates s queue target donor)
    (hmoves : Moves s s' queue donor target t l₁ l₂ now) :
    s'.sumOfSquares + 2 ≤ s.sumOfSquares := by
  have hlength (c : Nat) := hmoves.queued.linked.length c
  unfold RunQueues.sumOfSquares
  rw [hmoves.listed]
  refine Potential.sum_sq_move (List.mem_toFinset.mpr hdonor.listed) hdonor.other ?_ ?_ ?_ ?_
  · rw [h.length, h.length]
    exact hdonor.deeper
  · rw [hlength, if_neg hdonor.other, if_pos rfl, h.length, hmoves.taken]
    simp
  · rw [hlength, if_pos rfl, h.length]
    simp
  · intro c hdonor htarget
    rw [hlength, if_neg htarget, if_neg hdonor, h.length]

/-- A call keeps the queues in order, and one that returns true lowers the sum of squares. -/
theorem WellQueued.balance (h : WellQueued s queue) (call : BalanceCall) :
    (∃ queue', WellQueued (s.balance call).2 queue') ∧
      (s.balance call).2.sumOfSquares + (if (s.balance call).1 = true then 2 else 0) ≤
        s.sumOfSquares := by
  obtain hfalse | ⟨donor, hdonor, heq⟩ :=
    balanceCpu_cases h.linked call.target call.now call.force
  · rw [RunQueues.balance, hfalse]
    exact ⟨⟨queue, h⟩, by simp⟩
  rw [RunQueues.balance, heq]
  obtain ⟨hnone, hsame⟩ | ⟨t, l₁, l₂, hsome, hmoves⟩ := h.migrate hdonor.other call.now
  · rw [hnone, hsame]
    exact ⟨⟨queue, h⟩, by simp⟩
  · rw [hsome]
    exact ⟨⟨_, hmoves.queued⟩, hmoves.sumOfSquares h.linked hdonor⟩

theorem afterBalancing_wellQueued (h : WellQueued s queue) (calls : ℕ → BalanceCall) (n : ℕ) :
    ∃ queue', WellQueued (s.afterBalancing calls n) queue' := by
  induction n with
  | zero => exact ⟨queue, h⟩
  | succ n ih =>
    obtain ⟨queue', hn⟩ := ih
    exact (hn.balance (calls n)).1

/-- Of any sequence of calls only finitely many return true, at most half as many as the sum of the
squares of the queue lengths at the start. -/
theorem balancing_comes_to_rest (h : WellQueued s queue) (calls : ℕ → BalanceCall) :
    (s.movingCalls calls).Finite ∧
      2 * (s.movingCalls calls).ncard ≤ ∑ c ∈ s.cpus.toFinset, (queue c).length ^ 2 := by
  have hstep (n : ℕ) : (s.afterBalancing calls (n + 1)).sumOfSquares +
      (if ((s.afterBalancing calls n).balance (calls n)).1 = true then 2 else 0) ≤
        (s.afterBalancing calls n).sumOfSquares := by
    obtain ⟨queue', hn⟩ := afterBalancing_wellQueued h calls n
    exact (hn.balance (calls n)).2
  have hstart : (s.afterBalancing calls 0).sumOfSquares =
      ∑ c ∈ s.cpus.toFinset, (queue c).length ^ 2 :=
    Finset.sum_congr rfl fun c _ => by rw [← h.linked.length]; rfl
  rw [← hstart]
  refine Potential.finite_marked (fun n => (s.afterBalancing calls n).sumOfSquares)
    (by decide) (fun n hn => ?_) fun n _ => le_of_add_le_left (hstep n)
  have hmoving : ((s.afterBalancing calls n).balance (calls n)).1 = true := hn
  simpa only [hmoving, if_true] using hstep n

/-- CPU 1 asks again and again: the sum is 9, so at most four calls return true. -/
theorem balancing_comes_to_rest_crowded :
    0 ∈ crowded.movingCalls (fun _ => ⟨1, 1#64, true⟩) ∧
      (crowded.movingCalls fun _ => ⟨1, 1#64, true⟩).ncard ≤ 4 := by
  have hsum : ∑ c ∈ crowded.cpus.toFinset, (crowdedQueue c).length ^ 2 = 9 := by decide +kernel
  have hbound := (balancing_comes_to_rest crowded_wellQueued fun _ => ⟨1, 1#64, true⟩).2
  rw [hsum] at hbound
  refine ⟨?_, by omega⟩
  change (crowded.balance ⟨1, 1#64, true⟩).1 = true
  decide +kernel

end Os1.Sched.RunQueues
