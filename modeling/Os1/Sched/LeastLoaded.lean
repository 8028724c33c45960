import Mathlib.Data.List.Rotate
import Mathlib.Tactic.Ring
import Os1.Sched.RunQueue

/-! The walk round the ring of CPUs that looks for the shortest run queue. -/
namespace Os1.Sched.RunQueues

/-! ## The walk with lengths that change -/

/-- The loop of `select_least_loaded_cpu`, as CPU `c` runs it, when the read number `turn` of the
length of a CPU's queue gives `lengths turn`; none when the turns do not suffice. -/
def leastLoadedLoop (s : RunQueues) (c : Nat) (lengths : Nat → Nat → Nat) :
    (turns turn candidate best bestLength : Nat) → Option Nat
  | 0, _, _, _, _ => none
  | turns + 1, turn, candidate, best, bestLength =>
    if candidate = best then some best
    else
      let candidateLength := lengths turn candidate
      if candidateLength < bestLength then
        if candidateLength = 0 then some candidate
        else s.leastLoadedLoop c lengths turns (turn + 1) (s.nextSchedulableCpuAfter c candidate)
          candidate candidateLength
      else s.leastLoadedLoop c lengths turns (turn + 1) (s.nextSchedulableCpuAfter c candidate)
        best bestLength

/-- `select_least_loaded_cpu` with the lengths that it reads. -/
def selectLeastLoadedReading (s : RunQueues) (c : Nat) (lengths : Nat → Nat → Nat)
    (turns startAfter : Nat) : Option Nat :=
  let best := s.nextSchedulableCpuAfter c startAfter
  if lengths 0 best = 0 then some best
  else s.leastLoadedLoop c lengths turns 1 (s.nextSchedulableCpuAfter c best) best (lengths 0 best)

/-- The schedulable CPUs in the order of the list. -/
def ring (s : RunQueues) : List Nat := s.cpus.filter s.cpuIsSchedulable

variable {s : RunQueues} {c a best : Nat} {rest seen todo : List Nat}

theorem mem_ring : a ∈ s.ring ↔ a ∈ s.cpus ∧ s.cpuIsSchedulable a = true := List.mem_filter

theorem boot_mem_ring : s.boot ∈ s.ring :=
  mem_ring.mpr ⟨List.mem_cons_self .., by simp [cpuIsSchedulable]⟩

/-- The walk of `next_schedulable_cpu_after` from a CPU of the list. -/
theorem nextSchedulable_split {l r : List Nat} (hl : s.cpus = l ++ a :: r) (ha : a ∉ l) :
    s.nextSchedulableCpuAfter c a =
      ((r ++ (l ++ [a])).filter s.cpuIsSchedulable).head?.getD c := by
  have hidx : s.cpus.idxOf a = l.length := by
    rw [hl, List.idxOf_append_of_notMem ha, List.idxOf_cons_self, Nat.add_zero]
  have hsplit : s.cpus = (l ++ [a]) ++ r := by simp [hl]
  have hlen : l.length + 1 = (l ++ [a]).length := by simp
  unfold nextSchedulableCpuAfter
  rw [hidx, hlen]
  simp only [hsplit, List.drop_left, List.take_left, List.head?_filter]

/-- A rotation of a list without repeats is known by its first element. -/
theorem rotated_cons_inj {l : List Nat} (hl : (a :: rest).Nodup)
    (h : (a :: rest) ~r (a :: l)) : rest = l := by
  obtain ⟨n, hn, heq⟩ := List.isRotated_iff_mod.mp h
  rcases n.eq_zero_or_pos with rfl | hpos
  · rw [List.rotate_zero] at heq
    exact (List.cons.inj heq).2
  rcases hn.eq_or_lt with rfl | hlt
  · rw [List.rotate_length] at heq
    exact (List.cons.inj heq).2
  · have hhead : (a :: rest)[n] = (a :: rest)[0] := by
      have hget := congrArg (·[0]?) heq
      simp only [List.getElem?_cons_zero] at hget
      rw [List.getElem?_rotate (by simp), Nat.zero_add, Nat.mod_eq_of_lt hlt,
        List.getElem?_eq_getElem hlt] at hget
      exact Option.some.inj hget
    have hzero : n = 0 := hl.getElem_inj_iff.mp hhead
    omega

/-- On the ring the walk goes from a CPU to the next one. -/
theorem nextSchedulable_rotated (hnodup : s.cpus.Nodup) (h : s.ring ~r (a :: rest)) :
    s.nextSchedulableCpuAfter c a = rest.headD a := by
  have ha : a ∈ s.ring := h.mem_iff.mpr (List.mem_cons_self ..)
  obtain ⟨l, r, hl⟩ := List.append_of_mem (mem_ring.mp ha).1
  have hnot : a ∉ l := by
    rw [hl] at hnodup
    exact fun hmem => List.disjoint_of_nodup_append hnodup hmem (List.mem_cons_self ..)
  have hring : s.ring = l.filter s.cpuIsSchedulable ++ a :: r.filter s.cpuIsSchedulable := by
    rw [ring, hl, List.filter_append, List.filter_cons_of_pos (mem_ring.mp ha).2]
  have hrotated : (a :: rest) ~r
      (a :: (r.filter s.cpuIsSchedulable ++ l.filter s.cpuIsSchedulable)) :=
    h.symm.trans (hring ▸ List.isRotated_append)
  rw [nextSchedulable_split hl hnot, rotated_cons_inj (h.nodup_iff.mp (hnodup.filter _)) hrotated]
  simp only [List.filter_append, List.filter_cons_of_pos (mem_ring.mp ha).2, List.filter_nil]
  rw [← List.append_assoc]
  generalize r.filter s.cpuIsSchedulable ++ l.filter s.cpuIsSchedulable = others
  cases others <;> rfl

/-! ## The round -/

/-- The ring seen from the best CPU: those read since it became the best one, and those to read. -/
structure Round (s : RunQueues) (best : Nat) (seen todo : List Nat) : Prop where
  nodup : s.cpus.Nodup
  rotated : s.ring ~r (best :: (seen ++ todo))

namespace Round

theorem mem_iff (h : Round s best seen todo) : a ∈ s.ring ↔ a = best ∨ a ∈ seen ∨ a ∈ todo := by
  rw [h.rotated.mem_iff]
  simp

theorem length_eq (h : Round s best seen todo) :
    s.ring.length = seen.length + todo.length + 1 := by
  rw [h.rotated.perm.length_eq]
  simp

theorem ne_best (h : Round s best seen (a :: todo)) : a ≠ best := by
  have hnodup := h.rotated.nodup_iff.mp (h.nodup.filter _)
  rintro rfl
  simp at hnodup

/-- The candidate was not better: it counts as read. -/
theorem keep (h : Round s best seen (a :: todo)) : Round s best (seen ++ [a]) todo :=
  ⟨h.nodup, by simpa using h.rotated⟩

/-- The candidate was better: all others are to be read. -/
theorem replace (h : Round s best seen (a :: todo)) : Round s a [] (todo ++ best :: seen) :=
  ⟨h.nodup, h.rotated.trans (by
    have hrotated : (best :: seen ++ a :: todo) ~r (a :: todo ++ best :: seen) :=
      List.isRotated_append
    simpa using hrotated)⟩

theorem next (h : Round s best seen (a :: todo)) :
    s.nextSchedulableCpuAfter c a = todo.headD best := by
  rw [nextSchedulable_rotated h.nodup h.replace.rotated]
  cases todo <;> rfl

end Round

/-- The walk ends at a schedulable CPU: the boot CPU is one. -/
theorem nextSchedulable_mem_ring (c after : Nat) : s.nextSchedulableCpuAfter c after ∈ s.ring := by
  unfold nextSchedulableCpuAfter
  dsimp only
  generalize hround : s.cpus.drop (s.cpus.idxOf after + 1) ++
    s.cpus.take (s.cpus.idxOf after + 1) = round
  have hmem : ∀ x, x ∈ round ↔ x ∈ s.cpus := by
    intro x
    rw [← hround, List.mem_append, or_comm, ← List.mem_append, List.take_append_drop]
  cases hfind : round.find? s.cpuIsSchedulable with
  | none =>
    obtain ⟨hlisted, hsched⟩ := mem_ring.mp s.boot_mem_ring
    exact absurd hsched (List.find?_eq_none.mp hfind s.boot ((hmem s.boot).mpr hlisted))
  | some x =>
    exact mem_ring.mpr ⟨(hmem x).mp (List.mem_of_find?_eq_some hfind), List.find?_some hfind⟩

theorem Round.start (hnodup : s.cpus.Nodup) (ha : a ∈ s.ring) : ∃ todo, Round s a [] todo := by
  obtain ⟨l, r, hl⟩ := List.append_of_mem ha
  exact ⟨r ++ l, hnodup, hl ▸ List.isRotated_append⟩

/-! ## The loop -/

/-- Every better candidate lowers the best length, and a round without one ends the loop. -/
theorem leastLoadedLoop_ends (c turn : Nat) (lengths : Nat → Nat → Nat) {turns bestLength : Nat}
    (h : Round s best seen todo)
    (hturns : todo.length + bestLength * s.ring.length < turns) :
    ∃ d ∈ s.ring,
      s.leastLoadedLoop c lengths turns turn (todo.headD best) best bestLength = some d := by
  induction turns generalizing turn best seen todo bestLength with
  | zero => omega
  | succ turns ih =>
    cases todo with
    | nil => exact ⟨best, h.mem_iff.mpr (Or.inl rfl), by simp [leastLoadedLoop]⟩
    | cons a todo =>
      have ha : a ∈ s.ring := h.mem_iff.mpr (Or.inr (Or.inr (List.mem_cons_self ..)))
      simp only [List.headD_cons, leastLoadedLoop, if_neg h.ne_best, h.next]
      split
      next hless =>
        split
        next => exact ⟨a, ha, rfl⟩
        next =>
          have hhead : todo.headD best = (todo ++ best :: seen).headD a := by cases todo <;> rfl
          rw [hhead]
          refine ih (turn + 1) h.replace ?_
          have hlen := h.replace.length_eq
          have hmul : lengths turn a * s.ring.length + s.ring.length ≤
              bestLength * s.ring.length := by
            rw [← Nat.succ_mul]
            exact Nat.mul_le_mul_right _ hless
          simp only [List.length_cons, List.length_nil] at hturns hlen
          omega
      next =>
        refine ih (turn + 1) h.keep ?_
        simp only [List.length_cons] at hturns
        omega

/-- When the lengths stay as they are, the loop ends at a shortest queue. -/
theorem leastLoadedLoop_least {length : Nat → Nat} {turns turn d : Nat}
    (h : Round s best seen todo) (hseen : ∀ x ∈ seen, length best ≤ length x)
    (hd : s.leastLoadedLoop c (fun _ => length) turns turn (todo.headD best) best (length best) =
      some d) : d ∈ s.ring ∧ ∀ x ∈ s.ring, length d ≤ length x := by
  induction turns generalizing turn best seen todo with
  | zero => cases hd
  | succ turns ih =>
    cases todo with
    | nil =>
      obtain rfl : best = d := by simpa [leastLoadedLoop] using hd
      refine ⟨h.mem_iff.mpr (Or.inl rfl), fun x hx => ?_⟩
      rcases h.mem_iff.mp hx with rfl | hx | hx
      · exact le_rfl
      · exact hseen x hx
      · cases hx
    | cons a todo =>
      simp only [List.headD_cons, leastLoadedLoop, if_neg h.ne_best, h.next] at hd
      split at hd
      next hless =>
        split at hd
        next hzero =>
          cases hd
          exact ⟨h.mem_iff.mpr (Or.inr (Or.inr (List.mem_cons_self ..))),
            fun x _ => hzero ▸ Nat.zero_le _⟩
        next =>
          have hhead : todo.headD best = (todo ++ best :: seen).headD a := by cases todo <;> rfl
          rw [hhead] at hd
          exact ih h.replace (by simp) hd
      next hnot =>
        refine ih h.keep (fun x hx => ?_) hd
        rcases List.mem_append.mp hx with hx | hx
        · exact hseen x hx
        · rw [List.mem_singleton.mp hx]
          exact not_lt.mp hnot

/-- A round in which no CPU is better ends at the best one. -/
theorem leastLoadedLoop_quiet {length : Nat → Nat} {turns turn : Nat} (h : Round s best seen todo)
    (htodo : ∀ x ∈ todo, length best ≤ length x) (hturns : todo.length < turns) :
    s.leastLoadedLoop c (fun _ => length) turns turn (todo.headD best) best (length best) =
      some best := by
  induction todo generalizing turns turn seen with
  | nil =>
    obtain ⟨turns, rfl⟩ := Nat.exists_eq_add_of_lt hturns
    simp [leastLoadedLoop]
  | cons a todo ih =>
    obtain ⟨turns, rfl⟩ : ∃ n, turns = n + 1 := ⟨turns - 1, by simp at hturns; omega⟩
    obtain ⟨ha, htodo⟩ := List.forall_mem_cons.mp htodo
    simp only [List.headD_cons, leastLoadedLoop, if_neg h.ne_best, h.next, if_neg (not_lt.mpr ha)]
    exact ih h.keep htodo (by simpa using hturns)

/-- When the lengths stay as they are, no CPU that has been read once becomes the best one later, so
that less than two rounds are enough. -/
theorem leastLoadedLoop_rounds (c turn : Nat) (length : Nat → Nat) {turns : Nat} {old : List Nat}
    (h : Round s best seen (todo ++ old)) (hseen : ∀ x ∈ seen, length best ≤ length x)
    (hold : ∀ x ∈ old, length best ≤ length x) (hturns : todo.length + s.ring.length ≤ turns) :
    ∃ d, s.leastLoadedLoop c (fun _ => length) turns turn ((todo ++ old).headD best) best
      (length best) = some d := by
  induction todo generalizing turns turn best seen old with
  | nil =>
    have hlen := h.length_eq
    exact ⟨best, leastLoadedLoop_quiet h hold (by simp at hlen hturns ⊢; omega)⟩
  | cons a todo ih =>
    obtain ⟨turns, rfl⟩ : ∃ n, turns = n + 1 := ⟨turns - 1, by simp at hturns; omega⟩
    have hturns' : todo.length + s.ring.length ≤ turns := by
      simp only [List.length_cons] at hturns
      omega
    rw [List.cons_append] at h ⊢
    simp only [List.headD_cons, leastLoadedLoop, if_neg h.ne_best, h.next]
    split
    next hless =>
      split
      next => exact ⟨a, rfl⟩
      next =>
        have hround := h.replace
        rw [List.append_assoc] at hround
        have hhead : (todo ++ old).headD best = (todo ++ (old ++ best :: seen)).headD a := by
          cases todo
          · cases old <;> rfl
          · rfl
        rw [hhead]
        refine ih (turn + 1) hround (by simp) (fun x hx => ?_) hturns'
        simp only [List.mem_append, List.mem_cons] at hx
        rcases hx with hx | rfl | hx
        · exact hless.le.trans (hold x hx)
        · exact hless.le
        · exact hless.le.trans (hseen x hx)
    next hnot =>
      refine ih (turn + 1) h.keep (fun x hx => ?_) hold hturns'
      rcases List.mem_append.mp hx with hx | hx
      · exact hseen x hx
      · rw [List.mem_singleton.mp hx]
        exact not_lt.mp hnot

/-- With lengths that stay as they are the loop is the one of `selectLeastLoadedCpu`. -/
theorem leastLoadedFrom_eq {turns turn candidate d : Nat}
    (h : s.leastLoadedLoop c (fun _ x => (s.cpu x).runq.length) turns turn candidate best
      (s.cpu best).runq.length = some d) : s.leastLoadedFrom c turns candidate best = d := by
  induction turns generalizing turn candidate best with
  | zero => cases h
  | succ turns ih =>
    rw [leastLoadedLoop] at h
    rw [leastLoadedFrom]
    split at h
    next heq => rw [if_pos heq, Option.some.inj h]
    next hne =>
      rw [if_neg hne]
      dsimp only at h
      split at h
      next hless =>
        rw [if_pos hless]
        split at h
        next hzero => rw [if_pos hzero, Option.some.inj h]
        next hpos => rw [if_neg hpos, ih h]
      next hnot => rw [if_neg hnot, ih h]

/-! ## The search -/

/-- The loop starts at the CPU behind the first one, with the whole ring to read. -/
theorem selectLeastLoadedReading_cases (hnodup : s.cpus.Nodup) (c startAfter : Nat) :
    ∃ best todo, Round s best [] todo ∧
      (∀ lengths turns, s.selectLeastLoadedReading c lengths turns startAfter =
        if lengths 0 best = 0 then some best
        else s.leastLoadedLoop c lengths turns 1 (todo.headD best) best (lengths 0 best)) ∧
      s.selectLeastLoadedCpu c startAfter =
        if (s.cpu best).runq.length = 0 then best
        else s.leastLoadedFrom c (s.cpus.length * s.cpus.length) (todo.headD best) best := by
  obtain ⟨todo, hround⟩ := Round.start hnodup (s.nextSchedulable_mem_ring c startAfter)
  have hnext : s.nextSchedulableCpuAfter c (s.nextSchedulableCpuAfter c startAfter) =
      todo.headD (s.nextSchedulableCpuAfter c startAfter) :=
    nextSchedulable_rotated hnodup hround.rotated
  refine ⟨_, todo, hround, fun lengths turns => ?_, ?_⟩
  · rw [selectLeastLoadedReading, hnext]
  · rw [selectLeastLoadedCpu, hnext]

theorem selectLeastLoadedReading_ends (hnodup : s.cpus.Nodup) (c startAfter : Nat)
    (lengths : Nat → Nat → Nat) :
    ∃ turns, ∃ d ∈ s.ring, s.selectLeastLoadedReading c lengths turns startAfter = some d := by
  obtain ⟨best, todo, hround, heq, -⟩ := selectLeastLoadedReading_cases hnodup c startAfter
  have hends := leastLoadedLoop_ends c 1 lengths hround
    (Nat.lt_succ_self (todo.length + lengths 0 best * s.ring.length))
  refine ⟨todo.length + lengths 0 best * s.ring.length + 1, ?_⟩
  rw [heq]
  split
  · exact ⟨best, hround.mem_iff.mpr (Or.inl rfl), rfl⟩
  · exact hends

theorem selectLeastLoadedReading_least (hnodup : s.cpus.Nodup) {startAfter turns d : Nat}
    {length : Nat → Nat}
    (hd : s.selectLeastLoadedReading c (fun _ => length) turns startAfter = some d) :
    d ∈ s.ring ∧ ∀ x ∈ s.ring, length d ≤ length x := by
  obtain ⟨best, todo, hround, heq, -⟩ := selectLeastLoadedReading_cases hnodup c startAfter
  rw [heq] at hd
  split at hd
  next hzero =>
    cases hd
    exact ⟨hround.mem_iff.mpr (Or.inl rfl), fun x _ => hzero ▸ Nat.zero_le _⟩
  next => exact leastLoadedLoop_least hround (by simp) hd

/-- With the lengths of the queues the turns that `selectLeastLoadedCpu` has are enough. -/
theorem selectLeastLoadedReading_queues (hnodup : s.cpus.Nodup) (c startAfter : Nat) :
    s.selectLeastLoadedReading c (fun _ x => (s.cpu x).runq.length)
      (s.cpus.length * s.cpus.length) startAfter = some (s.selectLeastLoadedCpu c startAfter) := by
  obtain ⟨best, todo, hround, heq, hselect⟩ := selectLeastLoadedReading_cases hnodup c startAfter
  have hturns : todo.length + s.ring.length ≤ s.cpus.length * s.cpus.length := by
    have hlen := hround.length_eq
    have hsq : s.ring.length * s.ring.length ≤ s.cpus.length * s.cpus.length :=
      Nat.mul_le_mul (List.length_filter_le _ _) (List.length_filter_le _ _)
    have hmul : (0 + todo.length + 1) * (0 + todo.length + 1) =
      todo.length * todo.length + 2 * todo.length + 1 := by ring
    simp only [List.length_nil] at hlen
    rw [hlen] at hsq ⊢
    omega
  rw [heq, hselect]
  split
  · rfl
  have hround' : Round s best [] (todo ++ []) := by simpa using hround
  obtain ⟨d, hd⟩ := leastLoadedLoop_rounds c 1 (fun x => (s.cpu x).runq.length) hround'
    (by simp) (by simp) hturns
  rw [List.append_nil] at hd
  rw [hd, leastLoadedFrom_eq hd]

/-- Whatever the reads give, the search ends at a schedulable CPU. With lengths that stay as they
are during the call it returns one with a shortest queue. -/
theorem least_loaded_found (hnodup : s.cpus.Nodup) (c startAfter : Nat) :
    (∀ lengths, ∃ turns, ∃ d ∈ s.cpus, s.cpuIsSchedulable d = true ∧
      s.selectLeastLoadedReading c lengths turns startAfter = some d) ∧
    ∃ turns, ∃ d ∈ s.cpus, s.cpuIsSchedulable d = true ∧
      s.selectLeastLoadedReading c (fun _ x => (s.cpu x).runq.length) turns startAfter = some d ∧
      s.selectLeastLoadedCpu c startAfter = d ∧
      ∀ e ∈ s.cpus, s.cpuIsSchedulable e = true →
        (s.cpu d).runq.length ≤ (s.cpu e).runq.length := by
  refine ⟨fun lengths => ?_, ?_⟩
  · obtain ⟨turns, d, hd, heq⟩ := selectLeastLoadedReading_ends hnodup c startAfter lengths
    exact ⟨turns, d, (mem_ring.mp hd).1, (mem_ring.mp hd).2, heq⟩
  · have heq := selectLeastLoadedReading_queues hnodup c startAfter
    obtain ⟨hmem, hleast⟩ := selectLeastLoadedReading_least hnodup heq
    exact ⟨_, _, (mem_ring.mp hmem).1, (mem_ring.mp hmem).2, heq, rfl, fun e he hsched =>
      hleast e (mem_ring.mpr ⟨he, hsched⟩)⟩

/-- CPU 0 is the boot CPU and CPU 2 is not booted; the queues have three, one and no threads. -/
def threeCpus : RunQueues where
  boot := 0
  others := [1, 2]
  cpu c := if c = 0 then { runq := ⟨none, none, 3⟩ }
    else if c = 1 then { runq := ⟨none, none, 1⟩, booted := true }
    else {}
  thread _ := {}
  registry := []
  lastKernelThreadCpu := 0
  lastUserThreadCpu := 0

theorem least_loaded_found_three : ∃ turns, ∃ d ∈ threeCpus.cpus,
    threeCpus.selectLeastLoadedReading 0 (fun _ x => (threeCpus.cpu x).runq.length) turns 1 =
      some d ∧ threeCpus.selectLeastLoadedCpu 0 1 = d ∧ d = 1 := by
  obtain ⟨turns, d, hmem, -, hread, hselect, -⟩ :=
    (least_loaded_found (s := threeCpus) (by decide) 0 1).2
  exact ⟨turns, d, hmem, hread, hselect, hselect.symm.trans (by decide)⟩

end Os1.Sched.RunQueues
