import Os1.Syscall.ConsoleRead

/-! Blocked readers of the console are served in order, and none sleeps beside a line. -/
namespace Os1.ConsoleSystem

open ConsoleInput

variable {s s' : ConsoleSystem}

theorem hasLine_eq (input : ConsoleInput) : input.hasLine = !input.queue.isEmpty := by
  rw [Bool.eq_iff_iff, hasLine_iff]
  simp

/-- A read waits only if it has a buffer and there is no line. With a buffer it takes the oldest
line, whether it can deliver it or not. -/
theorem completeRead_spec (hv : s.input.Valid) (t : Nat) (userBuffer length : BitVec 64) :
    ∃ ok input memory reads,
      s.completeRead t userBuffer length = (ok, { s with input, memory, reads }) ∧ input.Valid ∧
      (ok = false → userBuffer ≠ 0#64 ∧ length ≠ 0#64 ∧ s.input.queue = []) ∧
      (s.input.queue = [] → input.queue = []) ∧
      (userBuffer ≠ 0#64 → length ≠ 0#64 → s.input.queue ≠ [] → ok = true ∧
        input.queue = s.input.queue.tail ∧
        reads.map (·.thread) = s.reads.map (·.thread) ++ [t]) := by
  unfold completeRead tryCompleteConsoleRead
  rw [if_neg (by simp)]
  by_cases hnull : userBuffer = 0#64 ∨ length = 0#64
  · rw [if_pos hnull]
    exact ⟨true, _, _, _, rfl, hv, by simp, id, by tauto⟩
  · rw [if_neg hnull]
    have hpop := popLine_spec hv
    cases hqueue : s.input.queue with
    | nil =>
      rw [if_pos (by simp [hasLine_eq, hqueue])]
      exact ⟨false, _, _, _, rfl, hv, by tauto, fun _ => hqueue, by simp⟩
    | cons line lines =>
      rw [hqueue] at hpop
      obtain ⟨input, hpop, rfl, hvalid, -⟩ := hpop
      rw [if_neg (by simp [hasLine_eq, hqueue]), hpop]
      dsimp only
      split
      · exact ⟨true, _, _, _, rfl, hvalid, by simp, by simp, by simp⟩
      · split <;> exact ⟨true, _, _, _, rfl, hvalid, by simp, by simp, by simp⟩

/-- No reader is blocked while there is a line. -/
def Quiet (s : ConsoleSystem) : Prop := s.input.queue = [] ∨ s.waiters = []

/-- Blocked readers have a buffer. -/
structure Armed (s : ConsoleSystem) : Prop where
  valid : s.input.Valid
  buffer {t : Nat} : t ∈ s.waiters → (s.wait t).1 ≠ 0#64 ∧ (s.wait t).2 ≠ 0#64

/-- A turn of `wake_console_readers` does nothing, or gives the first line to the first reader. -/
theorem Armed.wakeTurn (h : Armed s) : s.wakeTurn = (false, s) ∧ Quiet s ∨
    ∃ t line waiters input memory reads,
      s.wakeTurn = (true, { s with input, memory, reads, waiters }) ∧
      s.waiters = t :: waiters ∧ s.input.queue = line :: input.queue ∧
      reads.map (·.thread) = s.reads.map (·.thread) ++ [t] ∧
      Armed { s with input, memory, reads, waiters } := by
  unfold ConsoleSystem.wakeTurn
  cases hqueue : s.input.queue with
  | nil => exact .inl ⟨by simp [hasLine_eq, hqueue], .inl hqueue⟩
  | cons line lines =>
    rw [if_neg (by simp [hasLine_eq, hqueue])]
    cases hwaiters : s.waiters with
    | nil => exact .inl ⟨rfl, .inr hwaiters⟩
    | cons t waiters =>
      have hbuffer {u : Nat} (hu : u ∈ t :: waiters) := h.buffer (hwaiters ▸ hu)
      have ht := hbuffer (List.mem_cons_self ..)
      obtain ⟨ok, input, memory, reads, heq, hvalid, -, -, htake⟩ :=
        completeRead_spec (s := { s with waiters }) h.valid t (s.wait t).1 (s.wait t).2
      obtain ⟨rfl, hrest, hreads⟩ := htake ht.1 ht.2 (by simp [hqueue])
      refine .inr ⟨t, line, waiters, input, memory, reads, by simp [heq], rfl, ?_, hreads, hvalid,
        fun hu => hbuffer (List.mem_cons_of_mem t hu)⟩
      simp [hrest, hqueue]

theorem Armed.sysRead (h : Armed s) (t : Nat) (fd userBuffer length : BitVec 64) :
    Armed (s.sysRead t fd userBuffer length) ∧
      (Quiet s → Quiet (s.sysRead t fd userBuffer length)) := by
  unfold ConsoleSystem.sysRead
  split
  · exact ⟨⟨h.valid, h.buffer⟩, id⟩
  · obtain ⟨ok, input, memory, reads, heq, hvalid, hwait, hempty, -⟩ :=
      completeRead_spec h.valid t userBuffer length
    rw [heq]
    cases ok with
    | true => exact ⟨⟨hvalid, h.buffer⟩, Or.imp_left hempty⟩
    | false =>
      obtain ⟨hbuffer, hlength, hqueue⟩ := hwait rfl
      refine ⟨⟨hvalid, fun {u} hu => ?_⟩, fun _ => .inl (hempty hqueue)⟩
      by_cases hut : u = t
      · simp [hut, hbuffer, hlength]
      · have hu' : u ∈ s.waiters := by
          dsimp only [Sched.Kernel.waitQueueEnqueue] at hu
          split at hu
          · exact hu
          · simpa [hut] using hu
        simpa [hut] using h.buffer hu'

theorem Armed.step (h : Armed s) (action : Action) : Armed (s.step action) ∧
    (Quiet s → Quiet (s.step action) ∨ ∃ ascii, action = .inputChar ascii) := by
  cases action with
  | inputChar ascii =>
    exact ⟨⟨(handleInputChar_spec h.valid ascii).1, h.buffer⟩, fun _ => .inr ⟨ascii, rfl⟩⟩
  | read t fd userBuffer length =>
    rw [ConsoleSystem.step]
    split
    · exact ⟨h, .inl⟩
    · exact (h.sysRead t fd userBuffer length).imp_right (.inl ∘ ·)
  | wakeTurn =>
    rw [ConsoleSystem.step]
    obtain ⟨heq, -⟩ | ⟨t, line, waiters, input, memory, reads, heq, hw, hq, -, harmed⟩ := h.wakeTurn
    · rw [heq]
      exact ⟨h, .inl⟩
    · rw [heq]
      exact ⟨harmed, fun hquiet => by simp [Quiet, hw, hq] at hquiet⟩
  | changeMemory memory cr3 => exact ⟨⟨h.valid, h.buffer⟩, .inl⟩

theorem Armed.run (h : Armed s) (actions : List Action) : Armed (run s actions) ∧
    (Quiet s → Quiet (run s actions) ∨ ∃ ascii, .inputChar ascii ∈ actions) := by
  induction actions generalizing s with
  | nil => exact ⟨h, .inl⟩
  | cons action actions ih =>
    obtain ⟨hstep, hquiet⟩ := h.step action
    obtain ⟨hrun, hruns⟩ := ih hstep
    refine ⟨hrun, fun hq => ?_⟩
    obtain hq | ⟨ascii, rfl⟩ := hquiet hq
    · exact (hruns hq).imp_right (Exists.imp fun _ => List.mem_cons_of_mem action)
    · exact .inr ⟨ascii, List.mem_cons_self ..⟩

/-- The first readers have got the first lines, as many as there are of both. -/
structure Served (s s' : ConsoleSystem) : Prop where
  waiters : s'.waiters = s.waiters.drop s.input.queue.length
  lines : s'.input.queue = s.input.queue.drop s.waiters.length
  reads : s'.reads.map (·.thread) =
    s.reads.map (·.thread) ++ s.waiters.take s.input.queue.length

theorem Served.of_quiet (h : Quiet s) : Served s s := by
  obtain h | h := h <;> exact ⟨by simp [h], by simp [h], by simp [h]⟩

theorem Served.quiet (h : Served s s') : Quiet s' := by
  rw [Quiet, h.lines, h.waiters, List.drop_eq_nil_iff, List.drop_eq_nil_iff]
  exact le_total ..

end Os1.ConsoleSystem
