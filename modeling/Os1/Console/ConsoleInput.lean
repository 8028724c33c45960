import Os1.Lib.Ring

/-! Console input: the line being typed and the ring of completed lines. -/
namespace Os1

def kConsoleInputMaxLineBytes : Nat := 128
def kConsoleInputCompletedLineCapacity : Nat := 8

structure ConsoleInput where
  pendingLine : Nat → BitVec 8 := fun _ => 0#8
  pendingLength : Nat := 0
  completedLines : Nat → Nat → BitVec 8 := fun _ _ => 0#8
  completedLengths : Nat → Nat := fun _ => 0
  completedHead : Nat := 0
  completedTail : Nat := 0
  completedCount : Nat := 0

namespace ConsoleInput

def backspace : BitVec 8 := 8#8
def newline : BitVec 8 := 10#8
def carriageReturn : BitVec 8 := 13#8

/-- `memcpy` into an array of characters. -/
def copyChars (target source : Nat → BitVec 8) (length : Nat) : Nat → BitVec 8 :=
  fun i => if i < length then source i else target i

def commitPendingLine (input : ConsoleInput) : ConsoleInput :=
  if input.completedCount = kConsoleInputCompletedLineCapacity then
    { input with pendingLength := 0 }
  else
    let slot := input.completedTail
    let line := copyChars (input.completedLines slot) input.pendingLine input.pendingLength
    { input with
      completedLines := Function.update input.completedLines slot
        (Function.update line input.pendingLength newline)
      completedLengths := Function.update input.completedLengths slot (input.pendingLength + 1)
      completedTail := (input.completedTail + 1) % kConsoleInputCompletedLineCapacity
      completedCount := input.completedCount + 1
      pendingLength := 0 }

/-- `char` is signed, so bytes above 0x7F are not printable. -/
def isprint (c : BitVec 8) : Bool := (0x20#8).sle c

/-- What `handle_input_char` makes of a character before it looks at it. -/
def normalizeChar (ascii : BitVec 8) : BitVec 8 :=
  if ascii = carriageReturn then newline
  else if ascii = 0x7F#8 ∨ ascii = backspace then backspace
  else ascii

def handleInputChar (input : ConsoleInput) (ascii : BitVec 8) : ConsoleInput :=
  let ascii := normalizeChar ascii
  if ascii = backspace then
    if input.pendingLength > 0 then { input with pendingLength := input.pendingLength - 1 }
    else input
  else if ascii = newline then input.commitPendingLine
  else if !isprint ascii then input
  else if input.pendingLength + 1 ≥ kConsoleInputMaxLineBytes then input
  else
    { input with
      pendingLine := Function.update input.pendingLine input.pendingLength ascii
      pendingLength := input.pendingLength + 1 }

def hasLine (input : ConsoleInput) : Bool := input.completedCount > 0

/-- `console_input_pop_line` into a buffer of `bufferSize` bytes. -/
def popLine (input : ConsoleInput) (bufferSize : Nat) :
    Option (List (BitVec 8)) × ConsoleInput :=
  if bufferSize = 0 ∨ input.completedCount = 0 then (none, input)
  else
    let head := input.completedHead
    let nextLength := input.completedLengths head
    if nextLength > bufferSize then (none, input)
    else
      (some ((List.range nextLength).map (input.completedLines head)),
        { input with
          completedLines := Function.update input.completedLines head fun _ => 0#8
          completedLengths := Function.update input.completedLengths head 0
          completedHead := (head + 1) % kConsoleInputCompletedLineCapacity
          completedCount := input.completedCount - 1 })

/-! ## The queue of lines -/

abbrev Line := List (BitVec 8)

/-- The line in a slot of the ring. -/
def lineAt (input : ConsoleInput) (slot : Nat) : Line :=
  (List.range (input.completedLengths slot)).map (input.completedLines slot)

/-- The completed lines, oldest first. -/
def queue (input : ConsoleInput) : List Line :=
  ring input.lineAt kConsoleInputCompletedLineCapacity input.completedHead input.completedCount

/-- The line that a character completes, unless the queue is full. -/
def acceptedLine (input : ConsoleInput) (ascii : BitVec 8) : List Line :=
  if normalizeChar ascii = newline ∧ input.completedCount ≠ kConsoleInputCompletedLineCapacity then
    [(List.range input.pendingLength).map input.pendingLine ++ [newline]]
  else []

structure Valid (input : ConsoleInput) : Prop where
  pending : input.pendingLength < kConsoleInputMaxLineBytes
  head : input.completedHead < kConsoleInputCompletedLineCapacity
  count : input.completedCount ≤ kConsoleInputCompletedLineCapacity
  tail : input.completedTail =
    (input.completedHead + input.completedCount) % kConsoleInputCompletedLineCapacity
  lengths (slot : Nat) : input.completedLengths slot ≤ kConsoleInputMaxLineBytes

variable {input : ConsoleInput} {ascii : BitVec 8}

theorem valid_initial : Valid {} := by constructor <;> simp [kConsoleInputMaxLineBytes,
  kConsoleInputCompletedLineCapacity]

theorem map_range_newline (n : Nat) (target source : Nat → BitVec 8) :
    (List.range (n + 1)).map (Function.update (copyChars target source n) n newline) =
      (List.range n).map source ++ [newline] := by
  rw [List.range_succ, List.map_append, List.map_singleton, Function.update_self]
  congr 1
  refine List.map_congr_left fun i hi => ?_
  have hlt : i < n := List.mem_range.mp hi
  rw [Function.update_of_ne (Nat.ne_of_lt hlt), copyChars, if_pos hlt]

/-- A committed line is the new last line of the queue. -/
theorem commitPendingLine_spec (h : Valid input) : Valid input.commitPendingLine ∧
    input.commitPendingLine.queue = input.queue ++
      if input.completedCount ≠ kConsoleInputCompletedLineCapacity then
        [(List.range input.pendingLength).map input.pendingLine ++ [newline]]
      else [] := by
  have hpos : 0 < kConsoleInputMaxLineBytes := by decide
  by_cases hfull : input.completedCount = kConsoleInputCompletedLineCapacity
  · rw [commitPendingLine, if_pos hfull, if_neg (not_not.mpr hfull), List.append_nil]
    exact ⟨⟨hpos, h.head, h.count, h.tail, h.lengths⟩, rfl⟩
  · have hcount : input.completedCount < kConsoleInputCompletedLineCapacity :=
      Nat.lt_of_le_of_ne h.count hfull
    rw [commitPendingLine, if_neg hfull, if_pos hfull]
    constructor
    · refine ⟨hpos, h.head, hcount, ?_, fun slot => ?_⟩
      · dsimp only
        rw [h.tail, Nat.mod_add_mod, Nat.add_assoc]
      · dsimp only
        by_cases hslot : slot = input.completedTail
        · rw [hslot, Function.update_self]
          exact h.pending
        · rw [Function.update_of_ne hslot]
          exact h.lengths slot
    · unfold queue
      dsimp only
      rw [ring_push hcount fun i hi => ?_]
      · congr 2
        rw [← h.tail]
        simp only [lineAt, Function.update_self]
        exact map_range_newline _ _ _
      · rw [← h.tail] at hi
        simp only [lineAt, Function.update_of_ne hi]

/-- A character completes at most one line, which goes to the end of the queue. -/
theorem handleInputChar_spec (h : Valid input) (ascii : BitVec 8) :
    Valid (input.handleInputChar ascii) ∧
      (input.handleInputChar ascii).queue = input.queue ++ input.acceptedLine ascii := by
  unfold handleInputChar acceptedLine
  dsimp only
  generalize normalizeChar ascii = ascii
  have hother (pendingLine : Nat → BitVec 8) (n : Nat) (hn : n < kConsoleInputMaxLineBytes) :
      Valid { input with pendingLine := pendingLine, pendingLength := n } :=
    ⟨hn, h.head, h.count, h.tail, h.lengths⟩
  split
  next hback =>
    have hline : ascii ≠ newline := by rw [hback]; decide
    simp only [hline, false_and, if_false, List.append_nil]
    split
    · exact ⟨hother _ _ (by have := h.pending; omega), rfl⟩
    · exact ⟨h, rfl⟩
  · split
    next hline =>
      simp only [hline, true_and]
      exact commitPendingLine_spec h
    next hline =>
      simp only [hline, false_and, if_false, List.append_nil]
      split
      · exact ⟨h, rfl⟩
      · split
        · exact ⟨h, rfl⟩
        · exact ⟨hother _ _ (by omega), rfl⟩

theorem hasLine_iff : input.hasLine = true ↔ input.queue ≠ [] := by
  rw [hasLine, decide_eq_true_iff, ← List.length_pos_iff, queue, ring_length]

/-- The oldest line is popped; a buffer of the greatest line length is never too small. -/
theorem popLine_spec (h : Valid input) :
    match input.queue with
    | [] => input.popLine kConsoleInputMaxLineBytes = (none, input)
    | line :: lines => ∃ input', input.popLine kConsoleInputMaxLineBytes = (some line, input') ∧
        input'.queue = lines ∧ Valid input' ∧ line.length ≤ kConsoleInputMaxLineBytes := by
  cases hcount : input.completedCount with
  | zero =>
    have hempty : input.queue = [] := by simp [queue, hcount, ring]
    simp [hempty, popLine, hcount]
  | succ count =>
    have hlt : count < kConsoleInputCompletedLineCapacity := by have := h.count; omega
    let input' : ConsoleInput :=
      { input with
        completedLines := Function.update input.completedLines input.completedHead fun _ => 0#8
        completedLengths := Function.update input.completedLengths input.completedHead 0
        completedHead := (input.completedHead + 1) % kConsoleInputCompletedLineCapacity
        completedCount := count }
    have hqueue : input.queue = input.lineAt input.completedHead :: input'.queue := by
      rw [queue, hcount]
      refine ring_pop h.head hlt fun i hi => ?_
      simp only [lineAt, input', Function.update_of_ne hi]
    have hlength := h.lengths input.completedHead
    have hpop : input.popLine kConsoleInputMaxLineBytes =
        (some (input.lineAt input.completedHead), input') := by
      have hnonempty : ¬ (kConsoleInputMaxLineBytes = 0 ∨ input.completedCount = 0) := by
        rw [hcount]
        simp [kConsoleInputMaxLineBytes]
      rw [popLine, if_neg hnonempty, if_neg (Nat.not_lt.mpr hlength), hcount]
      rfl
    rw [hqueue]
    refine ⟨input', hpop, rfl,
      ⟨h.pending, Nat.mod_lt _ (by decide), Nat.le_of_lt hlt, ?_, fun slot => ?_⟩,
      by simpa [lineAt] using hlength⟩
    · change input.completedTail = _
      rw [h.tail, hcount, Nat.mod_add_mod, Nat.add_assoc, Nat.add_comm 1 count]
    · by_cases hslot : slot = input.completedHead
      · simp [input', hslot]
      · simp only [input', Function.update_of_ne hslot]
        exact h.lengths slot

end ConsoleInput
end Os1
