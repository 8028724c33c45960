import Os1.Console.ConsoleInput

/-! Console input as a line editor in front of a bounded queue. -/
namespace Os1.ConsoleInput

/-- What a typed character asks the editor to do. -/
inductive Key where
  | newline
  | erase
  | print (c : BitVec 8)
  | ignored
  deriving DecidableEq

/-- The printable characters are those of ASCII. -/
def keyOf (c : BitVec 8) : Key :=
  if c.toNat = 10 ∨ c.toNat = 13 then .newline
  else if c.toNat = 8 ∨ c.toNat = 127 then .erase
  else if 32 ≤ c.toNat ∧ c.toNat < 127 then .print c
  else .ignored

/-- The line being typed, and the completed lines that wait for a reader. -/
structure Editor where
  pending : Line := []
  lines : List Line := []

namespace Editor

def type (editor : Editor) : Key → Editor
  | .newline =>
    { pending := []
      lines :=
        if editor.lines.length = kConsoleInputCompletedLineCapacity then editor.lines
        else editor.lines ++ [editor.pending ++ [newline]] }
  | .erase => { editor with pending := editor.pending.dropLast }
  | .print c =>
    if editor.pending.length + 1 < kConsoleInputMaxLineBytes then
      { editor with pending := editor.pending ++ [c] }
    else editor
  | .ignored => editor

def pop (editor : Editor) : Option Line × Editor :=
  match editor.lines with
  | [] => (none, editor)
  | line :: lines => (some line, { editor with lines })

end Editor

/-- A character from a keyboard or the serial port, or a pop into a buffer that has room for
every line and `spare` bytes more. -/
inductive Action where
  | char (c : BitVec 8)
  | pop (spare : Nat)

/-- One action, with what a pop returns. -/
def act (input : ConsoleInput) : Action → List (Option Line) × ConsoleInput
  | .char c => ([], input.handleInputChar c)
  | .pop spare =>
    let popped := input.popLine (kConsoleInputMaxLineBytes + spare)
    ([popped.1], popped.2)

def Editor.act (editor : Editor) : Action → List (Option Line) × Editor
  | .char c => ([], editor.type (keyOf c))
  | .pop _ => ([editor.pop.1], editor.pop.2)

/-- Everything the pops of a run return, in order, and the state at its end. -/
def run (input : ConsoleInput) : List Action → List (Option Line) × ConsoleInput
  | [] => ([], input)
  | action :: actions =>
    let first := input.act action
    let rest := run first.2 actions
    (first.1 ++ rest.1, rest.2)

def Editor.run (editor : Editor) : List Action → List (Option Line) × Editor
  | [] => ([], editor)
  | action :: actions =>
    let first := editor.act action
    let rest := run first.2 actions
    (first.1 ++ rest.1, rest.2)

/-! ## Refinement -/

/-- The text of the pending line. -/
def pendingText (input : ConsoleInput) : Line :=
  (List.range input.pendingLength).map input.pendingLine

@[simp] theorem pendingText_length (input : ConsoleInput) :
    input.pendingText.length = input.pendingLength := by simp [pendingText]

/-- The editor that the buffers stand for. -/
def editor (input : ConsoleInput) : Editor := ⟨input.pendingText, input.queue⟩

variable {input : ConsoleInput}

@[simp] theorem queue_length (input : ConsoleInput) :
    input.queue.length = input.completedCount := ring_length

/-- The tests of `handle_input_char`, in its order, sort the characters as the editor does. -/
theorem keyOf_eq (c : BitVec 8) : keyOf c =
    if normalizeChar c = backspace then .erase
    else if normalizeChar c = newline then .newline
    else if !isprint (normalizeChar c) then .ignored
    else .print (normalizeChar c) := by
  revert c
  decide +kernel

theorem dropLast_pendingText (hpos : 0 < input.pendingLength) :
    { input with pendingLength := input.pendingLength - 1 }.pendingText =
      input.pendingText.dropLast := by
  obtain ⟨n, hn⟩ := Nat.exists_eq_add_of_lt hpos
  simp only [pendingText, hn, Nat.zero_add, Nat.add_sub_cancel, List.range_succ, List.map_append,
    List.map_singleton, List.dropLast_concat]

theorem pendingText_push (c : BitVec 8) :
    { input with
      pendingLine := Function.update input.pendingLine input.pendingLength c
      pendingLength := input.pendingLength + 1 }.pendingText = input.pendingText ++ [c] := by
  simp only [pendingText, List.range_succ, List.map_append, List.map_singleton,
    Function.update_self]
  congr 1
  refine List.map_congr_left fun i hi => ?_
  rw [Function.update_of_ne (Nat.ne_of_lt (List.mem_range.mp hi))]

theorem commitPendingLine_refines (h : Valid input) :
    input.commitPendingLine.editor = input.editor.type .newline := by
  have hpending : input.commitPendingLine.pendingText = [] := by
    unfold commitPendingLine
    split <;> rfl
  have hqueue := (commitPendingLine_spec h).2
  simp only [editor, Editor.type, hpending, hqueue, queue_length, ne_eq, ite_not]
  split
  · rw [List.append_nil]
  · rfl

theorem handleInputChar_refines (h : Valid input) (c : BitVec 8) :
    (input.handleInputChar c).editor = input.editor.type (keyOf c) := by
  rw [keyOf_eq]
  unfold handleInputChar
  dsimp only
  generalize normalizeChar c = ascii
  split
  · split
    next hpos => exact congrArg (Editor.mk · _) (dropLast_pendingText hpos)
    next hzero =>
      have hempty : input.pendingText = [] := by
        simp [pendingText, Nat.eq_zero_of_not_pos hzero]
      simp [Editor.type, editor, hempty]
  · split
    · exact commitPendingLine_refines h
    · split
      · rfl
      · simp only [Editor.type, editor, pendingText_length]
        split
        next hlong => rw [if_neg (Nat.not_lt.mpr hlong)]
        next hshort =>
          rw [if_pos (Nat.not_le.mp hshort)]
          exact congrArg (Editor.mk · _) (pendingText_push ascii)

/-- A buffer with room for every line takes the oldest one whole. -/
theorem popLine_refines (h : Valid input) (spare : Nat) :
    let popped := input.popLine (kConsoleInputMaxLineBytes + spare)
    popped.1 = input.editor.pop.1 ∧ popped.2.editor = input.editor.pop.2 ∧ Valid popped.2 := by
  have hspare : input.popLine (kConsoleInputMaxLineBytes + spare) =
      input.popLine kConsoleInputMaxLineBytes := by
    have hlength := h.lengths input.completedHead
    have hpos : 0 < kConsoleInputMaxLineBytes := by decide
    unfold popLine
    refine if_congr (by omega) rfl ?_
    exact if_congr (by omega) rfl rfl
  have hspec := popLine_spec h
  have hpending : (input.popLine kConsoleInputMaxLineBytes).2.pendingText = input.pendingText := by
    unfold popLine
    split
    · rfl
    · dsimp only
      split <;> rfl
  rw [hspare]
  simp only [Editor.pop, editor]
  cases hqueue : input.queue with
  | nil =>
    rw [hqueue] at hspec
    dsimp only at hspec
    rw [hspec]
    exact ⟨rfl, by rw [hqueue], h⟩
  | cons line lines =>
    rw [hqueue] at hspec
    obtain ⟨input', hpop, hqueue', hvalid, -⟩ := hspec
    rw [hpop] at hpending ⊢
    exact ⟨rfl, by rw [hpending, hqueue'], hvalid⟩

theorem act_refines (h : Valid input) (action : Action) :
    (input.act action).1 = (input.editor.act action).1 ∧
      (input.act action).2.editor = (input.editor.act action).2 ∧
      Valid (input.act action).2 := by
  cases action with
  | char c => exact ⟨rfl, handleInputChar_refines h c, (handleInputChar_spec h c).1⟩
  | pop spare =>
    obtain ⟨hline, heditor, hvalid⟩ := popLine_refines h spare
    exact ⟨congrArg (fun line => [line]) hline, heditor, hvalid⟩

theorem run_refines (h : Valid input) (actions : List Action) :
    (input.run actions).1 = (input.editor.run actions).1 ∧
      (input.run actions).2.editor = (input.editor.run actions).2 ∧
      Valid (input.run actions).2 := by
  induction actions generalizing input with
  | nil => exact ⟨rfl, rfl, h⟩
  | cons action actions ih =>
    obtain ⟨hline, heditor, hvalid⟩ := act_refines h action
    obtain ⟨hlines, heditor', hvalid'⟩ := ih hvalid
    rw [heditor] at hlines heditor'
    refine ⟨?_, heditor', hvalid'⟩
    simp only [run, Editor.run, hline, hlines]

/-- From the start, whatever is typed and read, the pops return what the editor's pops return,
and the buffers keep the editor's pending line and queue. -/
theorem console_input_is_line_editor (actions : List Action) :
    let console := ({} : ConsoleInput).run actions
    let reference := ({} : Editor).run actions
    console.1 = reference.1 ∧ console.2.pendingText = reference.2.pending ∧
      console.2.queue = reference.2.lines := by
  obtain ⟨hlines, heditor, -⟩ := run_refines valid_initial actions
  have hstart : ({} : ConsoleInput).editor = {} := rfl
  rw [hstart] at hlines heditor
  exact ⟨hlines, congrArg Editor.pending heditor, congrArg Editor.lines heditor⟩

end Os1.ConsoleInput
