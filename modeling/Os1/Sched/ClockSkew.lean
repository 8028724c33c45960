import Os1.Sched.Cooldown

/-! Runs in which a thread is migrated twice, for every reading of the two clocks. -/
namespace Os1.Sched.Clocked

open RunQueues (Linked WellQueued Moves Ordered twoCpus ThreadAction)

variable {k k' : Clocked} {s s' : RunQueues} {c t : Nat} {now : BitVec 64}
  {stamp first second : Nat}

/-! ## Two migrations in a row -/

/-- Both CPUs are in their idle threads, and thread 3 waits for CPU 1. -/
def toFirstBusy : List ThreadAction :=
  [.call (.createKernelThread 0 1), .call (.createIdleThreadForCpu 0 1 2),
    .call (.createUserThread 0 3 false), .call (.createUserThread 0 4 false),
    .call (.setCurrentThread 0 (some 1)), .call (.setCurrentThread 1 (some 2)),
    .wakeBlockedThread 0 3 (some 1)]

/-- CPU 0 takes thread 3. -/
def toBootBusy : List ThreadAction := [.call (.setCurrentThread 0 (some 3))]

/-- Thread 3 blocks. -/
def toBothIdle : List ThreadAction :=
  [.blockCurrentThread 0 false, .call (.setCurrentThread 0 (some 1))]

/-- Threads 3 and 4 wait for CPU 0. -/
def toCrowded : List ThreadAction :=
  [.wakeBlockedThread 0 3 (some 0), .wakeBlockedThread 0 4 (some 0)]

/-- CPU 1 takes thread 3; thread 4 waits for CPU 1 already. -/
def toTaken : List ThreadAction := [.call (.setCurrentThread 1 (some 3))]

/-- On CPU 1 both threads have had their turn. -/
def toCrowdedAgain : List ThreadAction :=
  [.call (.markThreadReady 1 3 (some 1)), .call (.setCurrentThread 1 (some 4)),
    .call (.markThreadReady 1 4 (some 1))]

def firstBusy : RunQueues := toFirstBusy.foldl RunQueues.act twoCpus
def bootBusy : RunQueues := toBootBusy.foldl RunQueues.act firstBusy
def bothIdle : RunQueues := toBothIdle.foldl RunQueues.act bootBusy
def crowdedBoot : RunQueues := toCrowded.foldl RunQueues.act bothIdle

/-- CPU 1 has migrated thread 4. -/
def movedOver (stamp : BitVec 64) : RunQueues := (crowdedBoot.balanceCpu 1 stamp true).2

def taken (stamp : BitVec 64) : RunQueues := toTaken.foldl RunQueues.act (movedOver stamp)
def crowdedAgain (stamp : BitVec 64) : RunQueues :=
  toCrowdedAgain.foldl RunQueues.act (taken stamp)

theorem toFirstBusy_keeps : Along RunQueues.act (Keeps 1) twoCpus toFirstBusy := by
  refine ⟨⟨?_, by simp, by decide⟩, ⟨?_, by simp, by decide⟩, ⟨trivial, by simp, by decide⟩,
    ⟨trivial, by simp, by decide⟩, ⟨?_, by simp, by decide⟩, ⟨?_, by simp, by decide⟩,
    ⟨⟨by decide, ?_⟩, by simp, by decide⟩, trivial⟩
  · exact List.mem_cons_self ..
  · exact List.mem_cons_of_mem _ (List.mem_singleton_self 1)
  · rintro t ⟨⟩
    decide
  · rintro t ⟨⟩
    decide
  · intro d hd
    match d with
    | 0 => cases hd
    | 1 => cases hd
    | d + 2 => cases hd

theorem toBootBusy_keeps : Along RunQueues.act (Keeps 1) firstBusy toBootBusy := by
  refine ⟨⟨?_, by simp, by decide⟩, trivial⟩
  rintro t ⟨⟩
  decide

theorem toBothIdle_keeps : Along RunQueues.act (Keeps 1) bootBusy toBothIdle := by
  refine ⟨⟨trivial, by simp, by decide⟩, ⟨?_, by simp, by decide⟩, trivial⟩
  rintro t ⟨⟩
  decide

theorem toCrowded_keeps : Along RunQueues.act (Keeps 1) bothIdle toCrowded := by
  refine ⟨⟨⟨by decide, fun d hd => ?_⟩, by simp, by decide⟩,
    ⟨⟨by decide, fun d hd => ?_⟩, by simp, by decide⟩, trivial⟩
  · match d with
    | 0 => cases hd
    | 1 => cases hd
    | d + 2 => cases hd
  · match d with
    | 0 => cases hd
    | 1 => cases hd
    | d + 2 => cases hd

/-- The records 1 to 4 are in use, and no thread but 1 and 2 is an idle thread. -/
structure FourThreads (s : RunQueues) : Prop where
  registry : s.registry = [1, 2, 3, 4]
  idle (d : Nat) : ∀ t ∈ (s.cpu d).idle, t ≤ 2

theorem FourThreads.intro (hregistry : s.registry = [1, 2, 3, 4]) (hboot : (s.cpu 0).idle = some 1)
    (hfirst : (s.cpu 1).idle = some 2) (hrest : ∀ d, (s.cpu (d + 2)).idle = none) :
    FourThreads s := by
  refine ⟨hregistry, fun d t ht => ?_⟩
  match d with
  | 0 =>
    cases hboot.symm.trans ht
    decide
  | 1 =>
    cases hfirst.symm.trans ht
    decide
  | d + 2 => cases (hrest d).symm.trans ht

theorem FourThreads.mem (h : FourThreads s) (ht : t = 3 ∨ t = 4) : t ∈ s.registry := by
  rcases ht with rfl | rfl <;> simp [h.registry]

theorem FourThreads.permitted (h : FourThreads s) (ht : 2 < t) (target : Option Nat) :
    s.Permitted (.markThreadReady c t target) :=
  fun d hd => absurd (h.idle d t hd) (Nat.not_le.mpr ht)

theorem movedOver_four (stamp : BitVec 64) : FourThreads (movedOver stamp) :=
  .intro rfl rfl rfl fun _ => rfl

theorem taken_four (stamp : BitVec 64) : FourThreads (taken stamp) :=
  .intro rfl rfl rfl fun _ => rfl

theorem toTaken_keeps (stamp : BitVec 64) :
    Along RunQueues.act (Keeps 4) (movedOver stamp) toTaken := by
  refine ⟨⟨?_, by simp, (taken_four stamp).mem (.inr rfl)⟩, trivial⟩
  rintro t ⟨⟩
  exact (movedOver_four stamp).mem (.inl rfl)

theorem toCrowdedAgain_keeps (stamp : BitVec 64) :
    Along RunQueues.act (Keeps 4) (taken stamp) toCrowdedAgain := by
  have hfirst : FourThreads ((taken stamp).markThreadReady 1 3 (some 1)) :=
    .intro rfl rfl rfl fun _ => rfl
  have hsecond : FourThreads (((taken stamp).markThreadReady 1 3 (some 1)).setCurrentThread 1
      (some 4)) := .intro rfl rfl rfl fun _ => rfl
  have hthird : FourThreads (crowdedAgain stamp) := .intro rfl rfl rfl fun _ => rfl
  refine ⟨⟨(taken_four stamp).permitted (by decide) _, by simp, hfirst.mem (.inr rfl)⟩,
    ⟨?_, by simp, hsecond.mem (.inr rfl)⟩,
    ⟨hsecond.permitted (by decide) _, by simp, hthird.mem (.inr rfl)⟩, trivial⟩
  rintro t ⟨⟩
  exact hfirst.mem (.inr rfl)

theorem firstBusy_short : Short firstBusy := ⟨by decide +kernel, by decide +kernel⟩
theorem bootBusy_short : Short bootBusy := ⟨by decide +kernel, by decide +kernel⟩
theorem bothIdle_short : Short bothIdle := ⟨by decide +kernel, by decide +kernel⟩

theorem movedOver_short (stamp : BitVec 64) : Short (movedOver stamp) := by
  refine ⟨rfl, fun d hd => ?_⟩
  obtain rfl | rfl : d = 0 ∨ d = 1 := by
    have hd : d ∈ [0, 1] := hd
    simpa using hd
  · exact Nat.le_refl 1
  · exact Nat.le_refl 1

theorem taken_short (stamp : BitVec 64) : Short (taken stamp) := by
  refine ⟨rfl, fun d hd => ?_⟩
  obtain rfl | rfl : d = 0 ∨ d = 1 := by
    have hd : d ∈ [0, 1] := hd
    simpa using hd
  · exact Nat.zero_le 1
  · exact Nat.le_refl 1

/-- CPU 0 asks CPU 1, on which two threads wait. -/
theorem balanceCpu_boot (hboot : s.boot = 0) (hothers : s.others = [1])
    (henabled : s.smpBalancerEnabled = true) (hbooted : (s.cpu 1).booted = true)
    (h0 : (s.cpu 0).runq.length = 0) (h1 : (s.cpu 1).runq.length = 2) :
    (s.balanceCpu 0 now true).2 = s.migrate 1 0 now := by
  simp [RunQueues.balanceCpu, RunQueues.cpus, RunQueues.cpuIsSchedulable,
    RunQueues.schedulableCpuCount, RunQueues.readDepth, Kernel.worthMoving, hboot, hothers,
    henabled, hbooted, h0, h1]

theorem crowdedAgain_detach (stamp now : BitVec 64)
    (h : stamp = 0#64 ∨ kMigrationCooldownTicks ≤ now - stamp) :
    (crowdedAgain stamp).detachLastMigratableThreadLocked 1 0 now =
      (some 4, (crowdedAgain stamp).unlinkThread 1 4 (some 3)) := by
  have hmigratable : Kernel.threadIsMigratable ((crowdedAgain stamp).thread 4).toThread 0 now =
      true := by
    have hstate : ((crowdedAgain stamp).thread 4).state = .ready := rfl
    have hmask : ((crowdedAgain stamp).thread 4).affinityMask = BitVec.allOnes 64 := rfl
    have hstamp : ((crowdedAgain stamp).thread 4).lastMigrationTick = stamp := rfl
    simpa [Kernel.threadIsMigratable, Kernel.threadAllowsCpu, hstate, hmask, hstamp] using h
  have hhead : ((crowdedAgain stamp).cpu 1).runq.head = some 3 := rfl
  have hnext : ((crowdedAgain stamp).thread 3).next = some 4 := rfl
  have hlast : ((crowdedAgain stamp).thread 4).next = none := rfl
  have hfuel : (crowdedAgain stamp).walkFuel = 4 := rfl
  simp [RunQueues.detachLastMigratableThreadLocked, RunQueues.findLastMigratable, hfuel, hhead,
    hnext, hlast, hmigratable]

theorem crowdedAgain_migrates (stamp now : BitVec 64)
    (h : stamp = 0#64 ∨ kMigrationCooldownTicks ≤ now - stamp) :
    migrates (crowdedAgain stamp) ((crowdedAgain stamp).balanceCpu 0 now true).2 0 4 = true := by
  have hold : ((crowdedAgain stamp).thread 4).runQueueCpu = some 1 := rfl
  have hnew : (((crowdedAgain stamp).migrate 1 0 now).thread 4).runQueueCpu = some 0 := by
    rw [RunQueues.migrate, crowdedAgain_detach stamp now h]
    simp [RunQueues.setThread, RunQueues.append_toThread]
  rw [balanceCpu_boot rfl rfl rfl rfl rfl rfl, migrates, hold, hnew]
  rfl

/-- What a tick of CPU `c` does that is its fourth idle one in a row. -/
structure FourthTick (k : Clocked) (c : Nat) : Prop where
  reached : Reached (k.timerTick c)
  queues : (k.timerTick c).queues =
    (k.queues.balanceCpu c (BitVec.ofNat 64 (k.ticks c + 1)) true).2
  ticks (d : Nat) : (k.timerTick c).ticks d = if d = c then k.ticks d + 1 else k.ticks d
  idleTicks : ∀ d ≠ c, (k.timerTick c).balanceIdleTicks d = k.balanceIdleTicks d
  migration (t : Nat) : migrates k.queues (k.timerTick c).queues c t = true →
    (k.timerTick c).migration t = some ⟨c, (k.timerTick c).ticks⟩

/-- After three idle ticks in a row the fourth one balances. -/
theorem Reached.fourthTick (h : Reached k) (hidle : k.idleWithoutWork c = true)
    (henabled : k.queues.smpBalancerEnabled = true) (hthird : k.balanceIdleTicks c = 3#64) :
    FourthTick k c := by
  have hclock : (k.accountSchedulerTick c).timerTicks c = BitVec.ofNat 64 (k.ticks c + 1) := by
    rw [((Stamped.of_reached h).accountSchedulerTick c).clock]
    simp [accountSchedulerTick]
  have hwork : (k.accountSchedulerTick c).idleWithoutWork c = true := hidle
  have hticks : (k.accountSchedulerTick c).idleTicks c = 4#64 := by
    have hold : (k.accountSchedulerTick c).balanceIdleTicks c = 3#64 := hthird
    rw [idleTicks, if_pos hwork, hold]
    rfl
  have hcheck : (k.accountSchedulerTick c).idleCheck c = true := by
    rw [idleCheck, hwork, hticks]
    rfl
  have hbalanced : (k.accountSchedulerTick c).balanced c =
      (k.queues.balanceCpu c (BitVec.ofNat 64 (k.ticks c + 1)) true).2 := by
    simp only [balanced, hcheck, Bool.or_true, if_true, hclock]
    rfl
  have hnot : ¬ (!(k.accountSchedulerTick c).queues.smpBalancerEnabled) = true := by
    simp [accountSchedulerTick, henabled]
  have hreached : Reached (k.step (.timerTick c)) := h.step trivial
  refine ⟨hreached, ?_, ?_, ?_, ?_⟩ <;>
    rw [timerTick, schedulerHandleTimerTick, if_neg hnot]
  · exact hbalanced
  · exact fun d => rfl
  · exact fun d hd => if_neg hd
  · exact fun t ht => if_pos ht

/-- Two CPUs before their first ticks. -/
def atRest : Clocked where
  queues := twoCpus
  timerTicks _ := 0#64
  balanceIdleTicks _ := 0#64
  ticks _ := 0
  migration _ := none

theorem atRest_reached : Reached atRest := by
  refine ⟨atRest, [], ?_, trivial, rfl⟩
  exact ⟨⟨rfl, fun _ => rfl, fun _ => ⟨rfl, rfl⟩⟩, fun _ => rfl, fun _ => rfl, fun _ => rfl,
    fun _ => rfl⟩

/-- CPU 1 has taken `n + 3` ticks, the last three of them idle; CPU 0 has taken `p₁` ticks and then
`p₂` idle ones. Two threads wait for CPU 0. -/
structure Prepared (k : Clocked) (n p₁ p₂ : Nat) : Prop where
  reached : Reached k
  queues : k.queues = crowdedBoot
  ticks : k.ticks 1 = n + 3 ∧ k.ticks 0 = p₁ + p₂
  idleTicks : k.balanceIdleTicks 1 = 3#64 ∧ k.balanceIdleTicks 0 = BitVec.ofNat 64 p₂

theorem exists_prepared (n p₁ p₂ : Nat) : ∃ k, Prepared k n p₁ p₂ := by
  obtain ⟨k₁, h₁⟩ := atRest_reached.called toFirstBusy_keeps
  have hq₁ : k₁.queues = firstBusy := h₁.queues
  obtain ⟨k₂, h₂⟩ := h₁.reached.passed (hq₁ ▸ firstBusy_short) 1 n
  have hq₂ : k₂.queues = firstBusy := h₂.queues.trans hq₁
  obtain ⟨k₃, h₃⟩ := h₂.reached.called (hq₂ ▸ toBootBusy_keeps)
  have hq₃ : k₃.queues = bootBusy := by rw [h₃.queues, hq₂]; rfl
  obtain ⟨k₄, h₄⟩ := h₃.reached.passed (hq₃ ▸ bootBusy_short) 1 3
  have hq₄ : k₄.queues = bootBusy := h₄.queues.trans hq₃
  obtain ⟨k₅, h₅⟩ := h₄.reached.passed (hq₄ ▸ bootBusy_short) 0 p₁
  have hq₅ : k₅.queues = bootBusy := h₅.queues.trans hq₄
  obtain ⟨k₆, h₆⟩ := h₅.reached.called (hq₅ ▸ toBothIdle_keeps)
  have hq₆ : k₆.queues = bothIdle := by rw [h₆.queues, hq₅]; rfl
  obtain ⟨k₇, h₇⟩ := h₆.reached.passed (hq₆ ▸ bothIdle_short) 0 p₂
  have hq₇ : k₇.queues = bothIdle := h₇.queues.trans hq₆
  obtain ⟨k₈, h₈⟩ := h₇.reached.called (hq₇ ▸ toCrowded_keeps)
  -- which of the ticks were idle ones
  have hidle₂ : k₁.idleWithoutWork 1 = false := by rw [idleWithoutWork, hq₁]; decide +kernel
  have hidle₄ : k₃.idleWithoutWork 1 = true := by rw [idleWithoutWork, hq₃]; decide +kernel
  have hidle₅ : k₄.idleWithoutWork 0 = false := by rw [idleWithoutWork, hq₄]; decide +kernel
  have hidle₇ : k₆.idleWithoutWork 0 = true := by rw [idleWithoutWork, hq₆]; decide +kernel
  have hone : (1 : Nat) ≠ 0 := by decide
  refine ⟨k₈, h₈.reached, ?_, ⟨?_, ?_⟩, ?_, ?_⟩
  · rw [h₈.queues, hq₇]
    rfl
  · rw [h₈.ticks, (h₇.others 1 hone).1, h₆.ticks, (h₅.others 1 hone).1, h₄.ticks, h₃.ticks,
      h₂.ticks, h₁.ticks]
    simp [atRest]
  · rw [h₈.ticks, h₇.ticks, h₆.ticks, h₅.ticks, (h₄.others 0 hone.symm).1, h₃.ticks,
      (h₂.others 0 hone.symm).1, h₁.ticks]
    simp [atRest]
  · rw [h₈.idleTicks, (h₇.others 1 hone).2, h₆.idleTicks, (h₅.others 1 hone).2, h₄.idleTicks,
      h₃.idleTicks, h₂.idleTicks, h₁.idleTicks, hidle₂, hidle₄]
    simp [atRest]
  · rw [h₈.idleTicks, h₇.idleTicks, h₆.idleTicks, h₅.idleTicks, (h₄.others 0 hone.symm).2,
      h₃.idleTicks, (h₂.others 0 hone.symm).2, h₁.idleTicks, hidle₅, hidle₇]
    simp [atRest]

/-- CPU 1 migrates thread 4 at its tick `n + 4`. Then CPU 0 takes `q₁` ticks and `q₂` idle ones, and
the tick after them is its fourth idle one in a row. -/
theorem exists_remigrated (n p₁ p₂ q₁ q₂ : Nat) (hq : (if q₁ = 0 then p₂ else 0) + q₂ = 3)
    (h : ¬ Cooling (n + 4) (p₁ + p₂ + q₁ + q₂ + 1)) :
    Remigrated (n + 4) (p₁ + p₂) (p₁ + p₂ + q₁ + q₂ + 1) := by
  obtain ⟨k₁, hreached₁, hq₁, ⟨hticks₁, hticks₀⟩, hidle₁, hidle₀⟩ := exists_prepared n p₁ p₂
  have hwork₁ : k₁.idleWithoutWork 1 = true := by rw [idleWithoutWork, hq₁]; decide +kernel
  have hfirst := hreached₁.fourthTick hwork₁ (by rw [hq₁]; rfl) hidle₁
  have hq₂ : (k₁.timerTick 1).queues = movedOver (BitVec.ofNat 64 (n + 4)) := by
    rw [hfirst.queues, hq₁, hticks₁]
    rfl
  have hmigration := hfirst.migration 4 (by rw [hq₂, hq₁]; rfl)
  obtain ⟨k₃, h₃⟩ := hfirst.reached.passed (hq₂ ▸ movedOver_short _) 0 q₁
  have hq₃ : k₃.queues = movedOver (BitVec.ofNat 64 (n + 4)) := h₃.queues.trans hq₂
  obtain ⟨k₄, h₄⟩ := h₃.reached.called (hq₃ ▸ toTaken_keeps _)
  have hq₄ : k₄.queues = taken (BitVec.ofNat 64 (n + 4)) := by rw [h₄.queues, hq₃]; rfl
  obtain ⟨k₅, h₅⟩ := h₄.reached.passed (hq₄ ▸ taken_short _) 0 q₂
  have hq₅ : k₅.queues = taken (BitVec.ofNat 64 (n + 4)) := h₅.queues.trans hq₄
  obtain ⟨k₆, h₆⟩ := h₅.reached.called (hq₅ ▸ toCrowdedAgain_keeps _)
  have hq₆ : k₆.queues = crowdedAgain (BitVec.ofNat 64 (n + 4)) := by rw [h₆.queues, hq₅]; rfl
  have hwork₃ : (k₁.timerTick 1).idleWithoutWork 0 = false := by rw [idleWithoutWork, hq₂]; rfl
  have hwork₅ : k₄.idleWithoutWork 0 = true := by rw [idleWithoutWork, hq₄]; rfl
  have hwork₆ : k₆.idleWithoutWork 0 = true := by rw [idleWithoutWork, hq₆]; rfl
  have hidle₆ : k₆.balanceIdleTicks 0 = 3#64 := by
    rw [h₆.idleTicks, h₅.idleTicks, hwork₅, h₄.idleTicks, h₃.idleTicks, hwork₃,
      hfirst.idleTicks 0 (by decide), hidle₀, ← hq]
    by_cases hzero : q₁ = 0 <;> simp [hzero, BitVec.ofNat_add]
  have hticks₆ : k₆.ticks 0 = p₁ + p₂ + q₁ + q₂ := by
    rw [h₆.ticks, h₅.ticks, h₄.ticks, h₃.ticks, hfirst.ticks, hticks₀]
    rfl
  have hsecond := h₆.reached.fourthTick hwork₆ (by rw [hq₆]; rfl) hidle₆
  refine ⟨k₆, 0, 4, ⟨1, (k₁.timerTick 1).ticks⟩, h₆.reached, ?_, ?_, ?_, ?_, by rw [hticks₆]⟩
  · have hkept : k₅.migration 4 = k₃.migration 4 := (congrFun h₅.migration 4).trans h₄.migration
    rw [h₆.migration, hkept, h₃.migration, hmigration]
  · rw [hsecond.queues, hq₆, hticks₆]
    apply crowdedAgain_migrates
    rwa [cooling_iff, not_not] at h
  · exact (hfirst.ticks 1).trans (by rw [if_pos rfl, hticks₁])
  · exact (hfirst.ticks 0).trans (by rw [if_neg (by decide), hticks₀])

/-- The cooldown at two migrations in a row of a thread: the clock of the first CPU shows `stamp`
and the second one has taken `first` ticks, later its clock shows `second`. The cooldown is kept
exactly when the second clock is within 64 ticks after the stamp as long as fewer than 64 ticks have
been taken. -/
theorem cooldown_iff (stamp first second : Nat) :
    (Remigrated stamp first second → first + 64 ≤ second) ↔
      (4 ≤ stamp → 4 ≤ second → first < second → second < first + 64 → Cooling stamp second) := by
  constructor
  · intro hcooldown hstamp hsecond hfirst hearly
    by_contra hnot
    refine absurd (hcooldown ?_) (Nat.not_le.mpr hearly)
    obtain ⟨n, rfl⟩ := Nat.exists_eq_add_of_le' hstamp
    by_cases hlate : first + 4 ≤ second
    · -- the second CPU is idle for its last four ticks only
      obtain ⟨q, rfl⟩ := Nat.exists_eq_add_of_le hlate
      have hrun := exists_remigrated n first 0 q 3 (by simp)
      rw [show first + 0 + q + 3 + 1 = first + 4 + q by omega] at hrun
      exact hrun hnot
    · -- it has been idle before the first migration
      have hrun := exists_remigrated n (second - 4) (first + 4 - second) 0 (second - first - 1)
        (by rw [if_pos rfl]; omega)
      rw [show second - 4 + (first + 4 - second) = first by omega,
        show first + 0 + (second - first - 1) + 1 = second by omega] at hrun
      exact hrun hnot
  · intro hcooling hremigrated
    by_contra hearly
    obtain ⟨hstamp, hsecond, hfirst⟩ := hremigrated.readings
    exact hremigrated.not_cooling (hcooling hstamp hsecond hfirst (Nat.not_le.mp hearly))

/-- CPU 1 is eight ticks ahead of CPU 0 when it migrates a thread, and the next tick of CPU 0 takes
the thread away again. -/
theorem cooldown_not_kept : Remigrated 11 3 4 ∧ ¬ 3 + 64 ≤ 4 := by
  refine ⟨exists_remigrated 7 0 3 0 0 rfl ?_, by decide⟩
  unfold Cooling
  decide

end Os1.Sched.Clocked
