import Os1.Console.ConsoleInput
import Os1.Lib.Along
import Os1.Mm.UserCopyExact
import Os1.Sched.Kernel

/-! Reads of completed console lines, by a system call or on behalf of a blocked reader. -/
namespace Os1

open ConsoleInput VirtualMemory UserAddress

/-- What `try_complete_console_read` returns, and the line it has handed to the user. -/
structure ReadOutcome where
  completed : Bool
  result : Int := -1
  copied : Line := []
  deriving DecidableEq, Repr

/-- `thread` is the root of the reader's address space, if there is a reader. -/
def tryCompleteConsoleRead (input : ConsoleInput) (memory : VirtualMemory)
    (thread : Option (BitVec 64)) (userBuffer length : BitVec 64) :
    ReadOutcome × ConsoleInput × VirtualMemory :=
  if thread = none then ({ completed := true }, input, memory)
  else if userBuffer = 0#64 ∨ length = 0#64 then ({ completed := true }, input, memory)
  else if !input.hasLine then ({ completed := false }, input, memory)
  else
    match input.popLine kConsoleInputMaxLineBytes with
    | (none, input) => ({ completed := false }, input, memory)
    | (some line, input) =>
      if line.length > length.toNat then ({ completed := true }, input, memory)
      else
        match memory.copyToUser thread userBuffer (some (line.getD · 0#8))
            (BitVec.ofNat 64 line.length) with
        | (.error _, memory) => ({ completed := true }, input, memory)
        | (.ok (), memory) =>
          ({ completed := true, result := line.length, copied := line }, input, memory)

/-- A completed read, with the completed lines before and after it. -/
structure ReadRecord where
  thread : Nat
  result : Int
  copied : Line
  before : List Line
  after : List Line
  deriving DecidableEq, Repr

/-- Console input, its readers and their memory; `accepted` lists the lines that entered the
queue and `reads` the reads that have returned, both oldest first. -/
structure ConsoleSystem where
  input : ConsoleInput := {}
  memory : VirtualMemory
  cr3 : Nat → BitVec 64
  wait : Nat → BitVec 64 × BitVec 64 := fun _ => (0#64, 0#64)
  waiters : List Nat := []
  accepted : List Line := []
  reads : List ReadRecord := []

namespace ConsoleSystem

/-- `try_complete_console_read` for thread `t`; false when there is no line. -/
def completeRead (s : ConsoleSystem) (t : Nat) (userBuffer length : BitVec 64) :
    Bool × ConsoleSystem :=
  let (outcome, input, memory) :=
    tryCompleteConsoleRead s.input s.memory (some (s.cr3 t)) userBuffer length
  (outcome.completed,
    { s with
      input := input
      memory := memory
      reads :=
        if outcome.completed then
          s.reads ++ [⟨t, outcome.result, outcome.copied, s.input.queue, input.queue⟩]
        else s.reads })

/-- The `read` case of the system call dispatch; a descriptor other than 0 is refused. -/
def sysRead (s : ConsoleSystem) (t : Nat) (fd userBuffer length : BitVec 64) : ConsoleSystem :=
  if fd.setWidth 32 ≠ 0#32 then
    { s with reads := s.reads ++ [⟨t, -1, [], s.input.queue, s.input.queue⟩] }
  else
    match s.completeRead t userBuffer length with
    | (true, s) => s
    | (false, s) =>
      -- `block_current_thread_on_console_read`
      { s with
        wait := Function.update s.wait t (userBuffer, length)
        waiters := Sched.Kernel.waitQueueEnqueue s.waiters t }

/-- One turn of the loop of `wake_console_readers`, and whether there is another one. -/
def wakeTurn (s : ConsoleSystem) : Bool × ConsoleSystem :=
  if !s.input.hasLine then (false, s)
  else
    match s.waiters with
    | [] => (false, s)
    | t :: waiters =>
      match { s with waiters := waiters }.completeRead t (s.wait t).1 (s.wait t).2 with
      | (false, s) => (false, { s with waiters := Sched.Kernel.waitQueueEnqueue s.waiters t })
      | (true, s) => (true, s)

/-- The steps of a run. A blocked reader makes no system call. Between the steps user programs and
the rest of the kernel change memory and address spaces. -/
inductive Action where
  | inputChar (ascii : BitVec 8)
  | read (t : Nat) (fd userBuffer length : BitVec 64)
  | wakeTurn
  | changeMemory (memory : VirtualMemory) (cr3 : Nat → BitVec 64)

def step (s : ConsoleSystem) : Action → ConsoleSystem
  | .inputChar ascii =>
    { s with
      input := s.input.handleInputChar ascii
      accepted := s.accepted ++ s.input.acceptedLine ascii }
  | .read t fd userBuffer length =>
    if t ∈ s.waiters then s else s.sysRead t fd userBuffer length
  | .wakeTurn => s.wakeTurn.2
  | .changeMemory memory cr3 => { s with memory := memory, cr3 := cr3 }

def run (s : ConsoleSystem) (actions : List Action) : ConsoleSystem := actions.foldl step s

/-- The line that a read has returned; a result of -1 returns none. -/
def returnedLine (r : ReadRecord) : Option Line := if r.result = -1 then none else some r.copied

/-- Every line that was accepted has been returned by one read or is still queued, in order. -/
structure DeliveredOnce (s : ConsoleSystem) : Prop where
  lines : s.accepted = s.reads.filterMap returnedLine ++ s.input.queue
  whole {r : ReadRecord} (hr : r ∈ s.reads) (hok : r.result ≠ -1) : r.result = r.copied.length
  failed {r : ReadRecord} (hr : r ∈ s.reads) (hno : r.result = -1) : r.after = r.before

/-- If thread `t` gets the oldest line, it fits into the buffer and the buffer is writable. -/
def Fits (s : ConsoleSystem) (t : Nat) (userBuffer length : BitVec 64) : Prop :=
  userBuffer ≠ 0#64 → length ≠ 0#64 → ∀ line ∈ s.input.queue.head?,
    line.length ≤ length.toNat ∧ (s.memory.attach (s.cr3 t)).TablesHidden ∧
    InUserSpace userBuffer (BitVec.ofNat 64 line.length) ∧
    ∀ i < line.length, (s.memory.attach (s.cr3 t)).Permits (hasRequiredUserFlags · true)
      (byteAt userBuffer i)

/-- Every read that is given a line can take it. -/
def Takes (s : ConsoleSystem) : Action → Prop
  | .read t _ userBuffer length => s.Fits t userBuffer length
  | .wakeTurn => ∀ t ∈ s.waiters.head?, s.Fits t (s.wait t).1 (s.wait t).2
  | _ => True

structure Sound (s : ConsoleSystem) : Prop where
  valid : s.input.Valid
  delivered : s.DeliveredOnce

variable {s : ConsoleSystem} {t : Nat} {userBuffer length : BitVec 64}

/-- A read that completes without a line leaves the queue alone. -/
theorem DeliveredOnce.refuse (h : DeliveredOnce s) (t : Nat) :
    DeliveredOnce { s with reads := s.reads ++ [⟨t, -1, [], s.input.queue, s.input.queue⟩] } := by
  constructor
  case lines => simpa [returnedLine] using h.lines
  case whole =>
    intro r hr hok
    obtain hr | hr := List.mem_append.mp hr
    · exact h.whole hr hok
    · obtain rfl := List.mem_singleton.mp hr
      exact absurd rfl hok
  case failed =>
    intro r hr hno
    obtain hr | hr := List.mem_append.mp hr
    · exact h.failed hr hno
    · obtain rfl := List.mem_singleton.mp hr
      rfl

/-- The oldest line goes to one read. -/
theorem DeliveredOnce.deliver {line : Line} {lines : List Line} {input : ConsoleInput}
    (h : DeliveredOnce s) (hqueue : s.input.queue = line :: lines) (hinput : input.queue = lines)
    (memory : VirtualMemory) (t : Nat) :
    DeliveredOnce { s with
      input := input
      memory := memory
      reads := s.reads ++ [⟨t, line.length, line, s.input.queue, input.queue⟩] } := by
  have hne : (line.length : Int) ≠ -1 := by omega
  constructor
  case lines =>
    rw [h.lines, hqueue, hinput, List.filterMap_append]
    simp [returnedLine, hne]
  case whole =>
    intro r hr hok
    obtain hr | hr := List.mem_append.mp hr
    · exact h.whole hr hok
    · obtain rfl := List.mem_singleton.mp hr
      rfl
  case failed =>
    intro r hr hno
    obtain hr | hr := List.mem_append.mp hr
    · exact h.failed hr hno
    · obtain rfl := List.mem_singleton.mp hr
      exact absurd hno hne

/-- A read that can take the oldest line gets it; one that completes without a line returns -1. -/
theorem Sound.completeRead (h : Sound s) (hfits : s.Fits t userBuffer length) :
    Sound (s.completeRead t userBuffer length).2 := by
  unfold ConsoleSystem.completeRead tryCompleteConsoleRead
  rw [if_neg (by simp)]
  by_cases hnull : userBuffer = 0#64 ∨ length = 0#64
  · simp only [hnull, if_true]
    exact ⟨h.valid, h.delivered.refuse t⟩
  · rw [if_neg hnull]
    rw [not_or] at hnull
    have hpop := popLine_spec h.valid
    cases hqueue : s.input.queue with
    | nil =>
      have hnone : s.input.hasLine = false := by
        rw [← Bool.not_eq_true, hasLine_iff, hqueue]
        exact not_not.mpr rfl
      simp only [hnone, Bool.not_false, if_true, Bool.false_eq_true, if_false]
      exact h
    | cons line lines =>
      have hsome : s.input.hasLine = true := by
        rw [hasLine_iff, hqueue]
        exact List.cons_ne_nil _ _
      rw [hqueue] at hpop
      obtain ⟨input, hpop, hinput, hvalid, hmax⟩ := hpop
      obtain ⟨hlength, hhidden, hspace, hmapped⟩ := hfits hnull.1 hnull.2 line (by simp [hqueue])
      have hlt : line.length < 2 ^ 64 := lt_of_le_of_lt hmax (by decide)
      have htoNat : (BitVec.ofNat 64 line.length).toNat = line.length := by
        rw [BitVec.toNat_ofNat, Nat.mod_eq_of_lt hlt]
      have hok : (s.memory.copyToUser (some (s.cr3 t)) userBuffer (some (line.getD · 0#8))
          (BitVec.ofNat 64 line.length)).1 = .ok () := by
        have hcopies : CopiesToUser s.memory (s.cr3 t) userBuffer (line.getD · 0#8)
            (BitVec.ofNat 64 line.length) := copyToUser_exact hhidden
        exact hcopies.1.mpr (Or.inr ⟨hspace, by rw [htoNat]; exact hmapped⟩)
      obtain ⟨memory, hcopy⟩ : ∃ memory, s.memory.copyToUser (some (s.cr3 t)) userBuffer
          (some (line.getD · 0#8)) (BitVec.ofNat 64 line.length) = (.ok (), memory) :=
        ⟨_, Prod.ext hok rfl⟩
      simp only [hsome, Bool.not_true, Bool.false_eq_true, if_false, hpop,
        if_neg (Nat.not_lt.mpr hlength), hcopy, if_true]
      have hdelivered := h.delivered.deliver hqueue hinput memory t
      rw [hqueue] at hdelivered
      exact ⟨hvalid, hdelivered⟩

theorem Sound.sysRead {fd : BitVec 64} (h : Sound s) (hfits : s.Fits t userBuffer length) :
    Sound (s.sysRead t fd userBuffer length) := by
  have hread := h.completeRead hfits
  unfold ConsoleSystem.sysRead
  split
  · exact ⟨h.valid, h.delivered.refuse t⟩
  · split
    next heq =>
      rw [heq] at hread
      exact hread
    next heq =>
      rw [heq] at hread
      exact ⟨hread.valid, hread.delivered.lines, hread.delivered.whole, hread.delivered.failed⟩

theorem Sound.wakeTurn (h : Sound s)
    (hfits : ∀ t ∈ s.waiters.head?, s.Fits t (s.wait t).1 (s.wait t).2) :
    Sound s.wakeTurn.2 := by
  unfold ConsoleSystem.wakeTurn
  split
  · exact h
  · split
    next => exact h
    next t waiters hwaiters =>
      have h' : Sound { s with waiters := waiters } :=
        ⟨h.valid, h.delivered.lines, h.delivered.whole, h.delivered.failed⟩
      have hread := h'.completeRead (hfits t (by rw [hwaiters]; rfl))
      split
      next heq =>
        rw [heq] at hread
        exact ⟨hread.valid, hread.delivered.lines, hread.delivered.whole, hread.delivered.failed⟩
      next heq =>
        rw [heq] at hread
        exact hread

theorem Sound.step {action : Action} (h : Sound s) (htakes : s.Takes action) :
    Sound (s.step action) := by
  cases action with
  | inputChar ascii =>
    obtain ⟨hvalid, hqueue⟩ := handleInputChar_spec h.valid ascii
    refine ⟨hvalid, ?_, h.delivered.whole, h.delivered.failed⟩
    change s.accepted ++ s.input.acceptedLine ascii = _ ++ (s.input.handleInputChar ascii).queue
    rw [hqueue, h.delivered.lines, List.append_assoc]
    rfl
  | read t fd userBuffer length =>
    rw [ConsoleSystem.step]
    split
    · exact h
    · exact h.sysRead htakes
  | wakeTurn => exact h.wakeTurn htakes
  | changeMemory memory cr3 =>
    exact ⟨h.valid, h.delivered.lines, h.delivered.whole, h.delivered.failed⟩

/-- As `console_input_initialize` leaves it, before any read. -/
def Initial (s : ConsoleSystem) : Prop :=
  s.input = {} ∧ s.accepted = [] ∧ s.reads = []

theorem Sound.initial (h : Initial s) : Sound s := by
  obtain ⟨hinput, haccepted, hreads⟩ := h
  refine ⟨hinput ▸ valid_initial, ?_⟩
  constructor
  case lines =>
    rw [haccepted, hreads, hinput]
    rfl
  case whole =>
    intro r hr
    rw [hreads] at hr
    exact absurd hr List.not_mem_nil
  case failed =>
    intro r hr
    rw [hreads] at hr
    exact absurd hr List.not_mem_nil

end ConsoleSystem
end Os1
