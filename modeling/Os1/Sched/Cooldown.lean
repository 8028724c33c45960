import Os1.Sched.Balance
import Os1.Sched.RoundRobin

/-! The migration cooldown: one CPU's clock stamps a thread and another CPU's clock reads it. -/
namespace Os1.Sched

def kBalanceIntervalTicks : BitVec 64 := 64#64
def kIdleBalanceTriggerTicks : BitVec 64 := 4#64

/-- A migration: the CPU that performed it and how many ticks each CPU had taken. -/
structure Migration where
  cpu : Nat
  ticks : Nat → Nat

/-- The run queues with the clocks. The last two fields are history: the ticks that each CPU has
taken and the last migration of each thread. -/
structure Clocked where
  queues : RunQueues
  timerTicks : Nat → BitVec 64
  balanceIdleTicks : Nat → BitVec 64
  ticks : Nat → Nat
  migration : Nat → Option Migration

namespace Clocked

/-- `account_scheduler_tick` on CPU `c`. -/
def accountSchedulerTick (k : Clocked) (c : Nat) : Clocked :=
  { k with
    timerTicks := fun d => if d = c then k.timerTicks d + 1#64 else k.timerTicks d
    ticks := fun d => if d = c then k.ticks d + 1 else k.ticks d }

def idleWithoutWork (k : Clocked) (c : Nat) : Bool :=
  (k.queues.cpu c).current = (k.queues.cpu c).idle ∧ (k.queues.cpu c).runq.length = 0

/-- `balance_idle_ticks` after this tick. -/
def idleTicks (k : Clocked) (c : Nat) : BitVec 64 :=
  if k.idleWithoutWork c then k.balanceIdleTicks c + 1#64 else 0#64

def periodicCheck (k : Clocked) (c : Nat) : Bool :=
  k.timerTicks c ≠ 0#64 ∧ k.timerTicks c % kBalanceIntervalTicks = 0#64

def idleCheck (k : Clocked) (c : Nat) : Bool :=
  k.idleWithoutWork c ∧ kIdleBalanceTriggerTicks ≤ k.idleTicks c ∧
    k.idleTicks c % kIdleBalanceTriggerTicks = 0#64

/-- What the tick leaves of the run queues. -/
def balanced (k : Clocked) (c : Nat) : RunQueues :=
  if k.periodicCheck c || k.idleCheck c then
    (k.queues.balanceCpu c (k.timerTicks c) (k.idleCheck c)).2
  else k.queues

/-- A thread has gone from the queue of another CPU to that of `c`. -/
def migrates (s s' : RunQueues) (c t : Nat) : Bool :=
  (s.thread t).runQueueCpu.any (· ≠ c) && (s'.thread t).runQueueCpu = some c

/-- `scheduler_handle_timer_tick` on CPU `c`. -/
def schedulerHandleTimerTick (k : Clocked) (c : Nat) : Clocked :=
  if !k.queues.smpBalancerEnabled then k
  else
    { k with
      queues := k.balanced c
      balanceIdleTicks := fun d => if d = c then k.idleTicks c else k.balanceIdleTicks d
      migration := fun t =>
        if migrates k.queues (k.balanced c) c t then some ⟨c, k.ticks⟩ else k.migration t }

/-- A timer interrupt on CPU `c`, up to the choice of the next thread. -/
def timerTick (k : Clocked) (c : Nat) : Clocked :=
  (k.accountSchedulerTick c).schedulerHandleTimerTick c

inductive ClockAction where
  | timerTick (c : Nat)
  | call (action : RunQueues.ThreadAction)
  deriving DecidableEq, Repr

/-- A record that is released is no longer the thread that was migrated. -/
def step (k : Clocked) : ClockAction → Clocked
  | .timerTick c => k.timerTick c
  | .call action =>
    { k with
      queues := k.queues.act action
      migration := fun t => if t ∈ (k.queues.act action).registry then k.migration t else none }

/-- Balancing happens in timer interrupts only. -/
def Allowed (k : Clocked) : ClockAction → Prop
  | .timerTick _ => True
  | .call (.call (.balance _ _ _)) => False
  | .call action => k.queues.Allowed action

/-- As the machine starts: every clock at zero. -/
structure Start (k : Clocked) : Prop where
  queues : RunQueues.Initial k.queues
  timerTicks (c : Nat) : k.timerTicks c = 0#64
  balanceIdleTicks (c : Nat) : k.balanceIdleTicks c = 0#64
  ticks (c : Nat) : k.ticks c = 0
  migration (t : Nat) : k.migration t = none

def Reached (k : Clocked) : Prop :=
  ∃ start actions, Start start ∧ Along step Allowed start actions ∧ k = actions.foldl step start

/-- In some run a CPU whose clock shows `stamp` migrates a thread, and the next CPU that migrates
it, which had taken `first` ticks then, does so at its tick number `second`. -/
def Remigrated (stamp first second : Nat) : Prop :=
  ∃ k c t m, Reached k ∧ k.migration t = some m ∧
    migrates k.queues (k.timerTick c).queues c t = true ∧
    m.ticks m.cpu = stamp ∧ m.ticks c = first ∧ k.ticks c + 1 = second

/-! ## What a tick moves -/

open RunQueues (Linked WellQueued Moves Ordered)

variable {k k' : Clocked} {s s' : RunQueues} {queue : Nat → List Nat} {c d donor t u : Nat}
  {l₁ l₂ : List Nat} {now : BitVec 64} {m : Migration} {stamp first second : Nat}

theorem migrates_self : migrates s s c t = false := by
  unfold migrates
  cases (s.thread t).runQueueCpu with
  | none => rfl
  | some d => by_cases hd : d = c <;> simp [hd]

/-- A tick without the balancer migrates nothing. -/
theorem migrates_balanced (h : migrates k.queues (k.timerTick c).queues c t = true) :
    migrates k.queues ((k.accountSchedulerTick c).balanced c) c t = true := by
  unfold timerTick schedulerHandleTimerTick at h
  split at h
  · have hself : migrates k.queues k.queues c t = true := h
    rw [migrates_self] at hself
    cases hself
  · exact h

/-- The thread that a call of the balancer moves is the one that migrates. -/
theorem migrates_iff (h : Linked s queue) (hne : donor ≠ c)
    (hmoves : Moves s s' queue donor c t l₁ l₂ now) : migrates s s' c u = true ↔ u = t := by
  constructor
  · intro hu
    by_contra hut
    have howner : (s'.thread u).runQueueCpu = (s.thread u).runQueueCpu :=
      congrArg Thread.runQueueCpu (hmoves.others u hut)
    have hself : migrates s s c u = true := by rwa [migrates, howner] at hu
    rw [migrates_self] at hself
    cases hself
  · rintro rfl
    have hold : (s.thread u).runQueueCpu = some donor :=
      (h.mem_iff donor u).mp (by simp [hmoves.taken])
    have hnew : (s'.thread u).runQueueCpu = some c := congrArg Thread.runQueueCpu hmoves.moved
    simp [migrates, hold, hnew, hne]

/-- A call of the balancer leaves the queues as they are, or it moves one thread. -/
theorem balanceCpu_moves (h : WellQueued s queue) (c : Nat) (now : BitVec 64) (force : Bool) :
    (s.balanceCpu c now force).2 = s ∨ ∃ donor t l₁ l₂, donor ≠ c ∧
      Moves s (s.balanceCpu c now force).2 queue donor c t l₁ l₂ now := by
  obtain hfalse | ⟨donor, hdonor, heq⟩ := RunQueues.balanceCpu_cases h.linked c now force
  · exact Or.inl (congrArg Prod.snd hfalse)
  · rw [heq]
    obtain ⟨-, hsame⟩ | ⟨t, l₁, l₂, -, hmoves⟩ := h.migrate hdonor.other now
    · exact Or.inl hsame
    · exact Or.inr ⟨donor, t, l₁, l₂, hdonor.other, hmoves⟩

theorem balanced_moves (h : WellQueued k.queues queue) (c : Nat) :
    k.balanced c = k.queues ∨ ∃ donor t l₁ l₂, donor ≠ c ∧
      Moves k.queues (k.balanced c) queue donor c t l₁ l₂ (k.timerTicks c) := by
  unfold balanced
  split
  · exact balanceCpu_moves h c _ _
  · exact Or.inl rfl

/-- The queues are in order, the clocks count the ticks, and the records of migrated threads show
the clock of the CPU that migrated them. -/
structure Stamped (k : Clocked) : Prop where
  ordered : Ordered k.queues
  clock (c : Nat) : k.timerTicks c = BitVec.ofNat 64 (k.ticks c)
  stamp {t : Nat} {m : Migration} (h : k.migration t = some m) : t ∈ k.queues.registry ∧
    (k.queues.thread t).lastMigrationTick = BitVec.ofNat 64 (m.ticks m.cpu)

namespace Stamped

theorem accountSchedulerTick (h : Stamped k) (c : Nat) : Stamped (k.accountSchedulerTick c) := by
  refine ⟨h.ordered, fun d => ?_, h.stamp⟩
  simp only [Clocked.accountSchedulerTick]
  split
  · rw [h.clock, BitVec.ofNat_add]
  · exact h.clock d

theorem schedulerHandleTimerTick (h : Stamped k) (c : Nat) :
    Stamped (k.schedulerHandleTimerTick c) := by
  unfold Clocked.schedulerHandleTimerTick
  split
  · exact h
  obtain ⟨queue, hqueue⟩ := h.ordered.wellQueued
  obtain hsame | ⟨donor, t, l₁, l₂, hne, hmoves⟩ := balanced_moves hqueue c
  · refine ⟨?_, h.clock, fun {u m} hu => ?_⟩
    · dsimp only
      rw [hsame]
      exact h.ordered
    · simp only [hsame, migrates_self] at hu ⊢
      exact h.stamp hu
  · refine ⟨?_, h.clock, fun {u m} hu => ?_⟩
    · unfold balanced
      split
      · rw [RunQueues.balanceCpu_snd]
        exact h.ordered.schedulerBalanceCpu
      · exact h.ordered
    · have hregistry := hmoves.registry
      dsimp only at hu ⊢
      rw [hregistry]
      by_cases hut : u = t
      · subst hut
        rw [if_pos ((migrates_iff hqueue.linked hne hmoves).mpr rfl)] at hu
        cases hu
        refine ⟨hqueue.inUse (c := donor) (by simp [hmoves.taken]), ?_⟩
        exact (congrArg Thread.lastMigrationTick hmoves.moved).trans (h.clock c)
      · have hstay : ¬ migrates k.queues (k.balanced c) c u = true := fun hm =>
          hut ((migrates_iff hqueue.linked hne hmoves).mp hm)
        rw [if_neg hstay] at hu
        obtain ⟨hin, hstamp⟩ := h.stamp hu
        exact ⟨hin, (congrArg Thread.lastMigrationTick (hmoves.others u hut)).trans hstamp⟩

theorem step {action : ClockAction} (h : Stamped k) (hallowed : k.Allowed action) :
    Stamped (k.step action) := by
  cases action with
  | timerTick c => exact (h.accountSchedulerTick c).schedulerHandleTimerTick c
  | call action =>
    have hbalance : ∀ target now force, action ≠ .call (.balance target now force) := by
      rintro target now force rfl
      exact hallowed
    have hact : k.queues.Allowed action := by
      cases action with
      | call action =>
        cases action with
        | balance target now force => exact absurd hallowed id
        | _ => exact hallowed
      | _ => exact hallowed
    refine ⟨h.ordered.act hact, h.clock, fun {t m} ht => ?_⟩
    simp only [Clocked.step] at ht ⊢
    split at ht
    next hin =>
      obtain ⟨hold, hstamp⟩ := h.stamp ht
      exact ⟨hin, ((h.ordered.act_effect hact hbalance).stamp hin hold).trans hstamp⟩
    next => cases ht

theorem of_start (h : Start k) : Stamped k := by
  refine ⟨.initial h.queues, fun c => ?_, fun {t m} ht => ?_⟩
  · rw [h.timerTicks, h.ticks]
  · rw [h.migration] at ht
    cases ht

theorem of_reached (h : Reached k) : Stamped k := by
  obtain ⟨start, actions, hstart, hallowed, rfl⟩ := h
  have hrun := Along.invariant Stamped (fun _ _ hs ha => hs.step ha) (of_start hstart) hallowed
    actions.length
  rwa [List.take_length] at hrun

end Stamped

/-! ## The cooldown -/

/-- A clock that shows `second` is within 64 ticks after the stamp, counted modulo 2 ^ 64. -/
def Cooling (stamp second : Nat) : Prop :=
  stamp % 2 ^ 64 ≠ 0 ∧ ((second : ℤ) - stamp) % 2 ^ 64 < 64

theorem cooling_iff (stamp second : Nat) : Cooling stamp second ↔
    ¬ (BitVec.ofNat 64 stamp = 0#64 ∨
      kMigrationCooldownTicks ≤ BitVec.ofNat 64 second - BitVec.ofNat 64 stamp) := by
  simp only [Cooling, kMigrationCooldownTicks, BitVec.le_def, BitVec.toNat_sub,
    BitVec.toNat_ofNat, ← BitVec.toNat_inj]
  omega

/-- No thread migrates to a CPU whose clock is within 64 ticks after its stamp. -/
theorem Remigrated.not_cooling (h : Remigrated stamp first second) : ¬ Cooling stamp second := by
  obtain ⟨k, c, t, m, hreached, hm, hmigrates, rfl, -, rfl⟩ := h
  have hstamped := (Stamped.of_reached hreached).accountSchedulerTick c
  obtain ⟨queue, hqueue⟩ := hstamped.ordered.wellQueued
  rw [cooling_iff, not_not]
  replace hmigrates := migrates_balanced hmigrates
  obtain hsame | ⟨donor, u, l₁, l₂, hne, hmoves⟩ := balanced_moves hqueue c
  · rw [hsame] at hmigrates
    have hself : migrates k.queues k.queues c t = true := hmigrates
    rw [migrates_self] at hself
    cases hself
  · obtain rfl := (migrates_iff hqueue.linked hne hmoves).mp hmigrates
    have hstamp := (hstamped.stamp (t := t) hm).2
    have hclock : (k.accountSchedulerTick c).timerTicks c = BitVec.ofNat 64 (k.ticks c + 1) := by
      rw [hstamped.clock]
      simp [accountSchedulerTick]
    have hcheck := hmoves.migratable
    simp only [Kernel.threadIsMigratable, hclock, hstamp, Bool.and_eq_true, Bool.or_eq_true,
      decide_eq_true_eq] at hcheck
    exact hcheck.2

/-! ## The first ticks -/

/-- Migrations happen at the fourth tick of a CPU or later, and lie in the past. -/
structure Timely (k : Clocked) : Prop where
  idle (c : Nat) : (k.balanceIdleTicks c).toNat ≤ k.ticks c
  late {t : Nat} {m : Migration} (h : k.migration t = some m) :
    4 ≤ m.ticks m.cpu ∧ ∀ c, m.ticks c ≤ k.ticks c

/-- Neither check succeeds at the first three ticks. -/
theorem four_le_ticks (hclock : k.timerTicks c = BitVec.ofNat 64 (k.ticks c))
    (hidle : (k.idleTicks c).toNat ≤ k.ticks c)
    (h : migrates k.queues (k.balanced c) c t = true) : 4 ≤ k.ticks c := by
  by_cases hcheck : (k.periodicCheck c || k.idleCheck c) = true
  · rw [Bool.or_eq_true] at hcheck
    rcases hcheck with hperiodic | hidleCheck
    · have hle : (BitVec.ofNat 64 (k.ticks c)).toNat ≤ k.ticks c := by
        rw [BitVec.toNat_ofNat]
        exact Nat.mod_le ..
      simp only [periodicCheck, hclock, decide_eq_true_eq] at hperiodic
      have hzero : (BitVec.ofNat 64 (k.ticks c)).toNat ≠ 0 := fun h0 =>
        hperiodic.1 (BitVec.eq_of_toNat_eq h0)
      have hmod : (BitVec.ofNat 64 (k.ticks c)).toNat % 64 = 0 :=
        congrArg BitVec.toNat hperiodic.2
      omega
    · simp only [idleCheck, kIdleBalanceTriggerTicks, decide_eq_true_eq, BitVec.le_def]
        at hidleCheck
      exact hidleCheck.2.1.trans hidle
  · rw [balanced, if_neg hcheck, migrates_self] at h
    cases h

theorem Timely.idleTicks (h : Timely k) (c : Nat) :
    ((k.accountSchedulerTick c).idleTicks c).toNat ≤ (k.accountSchedulerTick c).ticks c := by
  have hticks : (k.accountSchedulerTick c).ticks c = k.ticks c + 1 := if_pos rfl
  rw [hticks, Clocked.idleTicks]
  split
  · have hold : (k.accountSchedulerTick c).balanceIdleTicks c = k.balanceIdleTicks c := rfl
    rw [hold, BitVec.toNat_add]
    exact (Nat.mod_le ..).trans (Nat.add_le_add_right (h.idle c) 1)
  · exact Nat.zero_le _

theorem Timely.timerTick (h : Timely k) (hs : Stamped k) (c : Nat) : Timely (k.timerTick c) := by
  have hle (d : Nat) : k.ticks d ≤ (k.accountSchedulerTick c).ticks d := by
    simp only [accountSchedulerTick]
    split <;> omega
  have hidle (d : Nat) : (k.balanceIdleTicks d).toNat ≤ (k.accountSchedulerTick c).ticks d :=
    (h.idle d).trans (hle d)
  have hlate {t : Nat} {m : Migration} (hm : k.migration t = some m) :
      4 ≤ m.ticks m.cpu ∧ ∀ d, m.ticks d ≤ (k.accountSchedulerTick c).ticks d :=
    ⟨(h.late hm).1, fun d => ((h.late hm).2 d).trans (hle d)⟩
  unfold Clocked.timerTick schedulerHandleTimerTick
  split
  · exact ⟨hidle, hlate⟩
  · refine ⟨fun d => ?_, fun {t m} hm => ?_⟩
    · dsimp only
      split
      next hd =>
        rw [hd]
        exact h.idleTicks c
      next => exact hidle d
    · dsimp only at hm
      split at hm
      next hmigrates =>
        cases hm
        exact ⟨four_le_ticks ((hs.accountSchedulerTick c).clock c) (h.idleTicks c) hmigrates,
          fun d => le_rfl⟩
      next => exact hlate hm

theorem Timely.of_reached (h : Reached k) : Timely k := by
  obtain ⟨start, actions, hstart, hallowed, rfl⟩ := h
  have hbegin : Stamped start ∧ Timely start := by
    refine ⟨.of_start hstart, fun c => ?_, fun {t m} hm => ?_⟩
    · rw [hstart.balanceIdleTicks]
      exact Nat.zero_le _
    · rw [hstart.migration] at hm
      cases hm
  have hrun := Along.invariant (fun k => Stamped k ∧ Timely k) (fun k action hk ha => ?_) hbegin
    hallowed actions.length
  · rw [List.take_length] at hrun
    exact hrun.2
  · refine ⟨hk.1.step ha, ?_⟩
    cases action with
    | timerTick c => exact hk.2.timerTick hk.1 c
    | call action =>
      refine ⟨hk.2.idle, fun {t m} hm => ?_⟩
      simp only [Clocked.step] at hm
      split at hm
      next => exact hk.2.late hm
      next => cases hm

theorem Remigrated.readings (h : Remigrated stamp first second) :
    4 ≤ stamp ∧ 4 ≤ second ∧ first < second := by
  obtain ⟨k, c, t, m, hreached, hm, hmigrates, rfl, rfl, rfl⟩ := h
  have htimely := Timely.of_reached hreached
  obtain ⟨hstamp, hpast⟩ := htimely.late hm
  have hticks : (k.accountSchedulerTick c).ticks c = k.ticks c + 1 := if_pos rfl
  refine ⟨hstamp, ?_, Nat.lt_succ_of_le (hpast c)⟩
  have hclock := ((Stamped.of_reached hreached).accountSchedulerTick c).clock c
  exact hticks ▸ four_le_ticks hclock (htimely.idleTicks c) (migrates_balanced hmigrates)

/-! ## Ticks that move nothing -/

/-- No queue is long enough to be a donor's. -/
def Short (s : RunQueues) : Prop :=
  s.smpBalancerEnabled = true ∧ ∀ d ∈ s.cpus, (s.cpu d).runq.length ≤ 1

theorem Short.balanceCpu (h : Short s) (hs : Ordered s) (force : Bool) :
    (s.balanceCpu c now force).2 = s := by
  obtain ⟨queue, hqueue⟩ := hs.wellQueued
  obtain hfalse | ⟨donor, hdonor, -⟩ := RunQueues.balanceCpu_cases hqueue.linked c now force
  · exact congrArg Prod.snd hfalse
  · have hlong := hdonor.deeper
    have hshort := h.2 donor hdonor.listed
    rw [hqueue.linked.length] at hshort
    omega

/-- `k'` is `k` after CPU `c` has taken `n` ticks in which nothing moved; `idle` says whether it
was idle. -/
structure Passed (k k' : Clocked) (c n : Nat) (idle : Bool) : Prop where
  reached : Reached k'
  queues : k'.queues = k.queues
  migration : k'.migration = k.migration
  ticks : k'.ticks c = k.ticks c + n
  idleTicks : k'.balanceIdleTicks c = if idle then k.balanceIdleTicks c + BitVec.ofNat 64 n
    else if n = 0 then k.balanceIdleTicks c else 0#64
  others : ∀ d ≠ c, k'.ticks d = k.ticks d ∧ k'.balanceIdleTicks d = k.balanceIdleTicks d

theorem Reached.step {action : ClockAction} (h : Reached k) (hallowed : k.Allowed action) :
    Reached (k.step action) := by
  obtain ⟨start, actions, hstart, halong, rfl⟩ := h
  exact ⟨start, actions ++ [action], hstart, halong.snoc hallowed, by simp⟩

theorem Reached.passed (h : Reached k) (hshort : Short k.queues) (c n : Nat) :
    ∃ k', Passed k k' c n (k.idleWithoutWork c) := by
  induction n with
  | zero =>
    refine ⟨k, h, rfl, rfl, rfl, ?_, fun _ _ => ⟨rfl, rfl⟩⟩
    split <;> simp
  | succ n ih =>
    obtain ⟨k', hk'⟩ := ih
    have hidle : k'.idleWithoutWork c = k.idleWithoutWork c := by
      unfold idleWithoutWork
      rw [hk'.queues]
    have hordered := (Stamped.of_reached hk'.reached).ordered
    have hsame : (k'.accountSchedulerTick c).balanced c = k'.queues := by
      unfold balanced
      split
      · exact Short.balanceCpu (hk'.queues ▸ hshort) hordered _
      · rfl
    have henabled : (k'.accountSchedulerTick c).queues.smpBalancerEnabled = true := by
      have hq : (k'.accountSchedulerTick c).queues = k.queues := hk'.queues
      rw [hq]
      exact hshort.1
    have htick : k'.step (.timerTick c) = { k'.accountSchedulerTick c with
        balanceIdleTicks := fun d => if d = c then (k'.accountSchedulerTick c).idleTicks c
          else k'.balanceIdleTicks d } := by
      simp only [Clocked.step, timerTick, schedulerHandleTimerTick, henabled, hsame]
      simp [accountSchedulerTick, migrates_self]
    have hreached : Reached (k'.step (.timerTick c)) := hk'.reached.step trivial
    refine ⟨_, hreached, ?_, ?_, ?_, ?_, fun d hd => ?_⟩ <;> rw [htick]
    · exact hk'.queues
    · exact hk'.migration
    · simp [accountSchedulerTick, hk'.ticks, Nat.add_assoc]
    · have hwork : (k'.accountSchedulerTick c).idleWithoutWork c = k.idleWithoutWork c := hidle
      have hold : (k'.accountSchedulerTick c).balanceIdleTicks c = k'.balanceIdleTicks c := rfl
      simp only [idleTicks, hwork, hold, hk'.idleTicks]
      cases k.idleWithoutWork c
      · simp
      · simp [BitVec.ofNat_add, BitVec.add_assoc]
    · simpa [accountSchedulerTick, hd] using hk'.others d hd

/-- `k'` is `k` after calls that move nothing from queue to queue; the record `t` stays in use. -/
structure Called (k k' : Clocked) (actions : List RunQueues.ThreadAction) (t : Nat) : Prop where
  reached : Reached k'
  queues : k'.queues = actions.foldl RunQueues.act k.queues
  migration : k'.migration t = k.migration t
  ticks : k'.ticks = k.ticks
  idleTicks : k'.balanceIdleTicks = k.balanceIdleTicks

/-- An allowed call other than one of the balancer, after which `t` is still in use. -/
def Keeps (t : Nat) (s : RunQueues) (action : RunQueues.ThreadAction) : Prop :=
  s.Allowed action ∧ (∀ target now force, action ≠ .call (.balance target now force)) ∧
    t ∈ (s.act action).registry

theorem Reached.called {actions : List RunQueues.ThreadAction} (h : Reached k)
    (hkeeps : Along RunQueues.act (Keeps t) k.queues actions) : ∃ k', Called k k' actions t := by
  induction actions generalizing k with
  | nil => exact ⟨k, h, rfl, rfl, rfl, rfl⟩
  | cons action actions ih =>
    obtain ⟨⟨hact, hbalance, hin⟩, hrest⟩ := hkeeps
    have hallowed : k.Allowed (.call action) := by
      unfold Clocked.Allowed
      split
      next => trivial
      next heq =>
        cases heq
        exact hbalance _ _ _ rfl
      next heq =>
        cases heq
        exact hact
    have hstep := h.step hallowed
    obtain ⟨k', hk'⟩ := ih hstep hrest
    refine ⟨k', hk'.reached, hk'.queues, ?_, hk'.ticks, hk'.idleTicks⟩
    rw [hk'.migration]
    exact if_pos hin

end Clocked

end Os1.Sched
