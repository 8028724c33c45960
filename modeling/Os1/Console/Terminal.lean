import Os1.Lib.Grid

/-! The text terminal: a buffer of cells, a cursor and scrolling in place. -/
namespace Os1

/-- The value of an expression of type `int`. -/
def int32 (n : Int) : Int := n.bmod (2 ^ 32)

/-- An `int` passed where a `uint64_t` is expected. -/
def asUint64 (n : Int) : Nat := (n % 2 ^ 64).toNat

structure Terminal where
  buffer : Nat → BitVec 16
  width : Nat := 80
  height : Nat := 25
  row : Nat := 0
  col : Nat := 0

namespace Terminal

/-- A space in light grey on black. -/
def blank : BitVec 16 := 0x0720#16

/-- A read of `buffer_[i]`; there is no value outside the buffer. -/
def load (t : Terminal) (i : Int) : Option (BitVec 16) :=
  if 0 ≤ i ∧ i < t.width * t.height then some (t.buffer i.toNat) else none

/-- A write of `buffer_[i]`, which has to be inside the buffer as well. -/
def store (t : Terminal) (i : Int) (value : BitVec 16) : Option Terminal :=
  if 0 ≤ i ∧ i < t.width * t.height then
    some { t with buffer := Function.update t.buffer i.toNat value }
  else none

/-- `memcpy` of `n` cells in ascending order, with `rep movsb`. -/
def memcpy (t : Terminal) (dest source : Int) : Nat → Option Terminal
  | 0 => some t
  | n + 1 => do
    let value ← t.load source
    let t ← t.store dest value
    t.memcpy (dest + 1) (source + 1) n

def memsetw (t : Terminal) (ptr : Int) (value : BitVec 16) : Nat → Option Terminal
  | 0 => some t
  | n + 1 => do
    let t ← t.store ptr value
    t.memsetw (ptr + 1) value n

def setBuffer (buffer : Nat → BitVec 16) (columns rows : Nat) : Terminal where
  buffer := buffer
  width := if columns > 0 then columns else 80
  height := if rows > 0 then rows else 25

def moveCursor (t : Terminal) (row col : Nat) : Terminal := { t with row, col }

def bufferSizeBytes (t : Terminal) : Nat := t.width * t.height * 2

def clear (t : Terminal) : Option Terminal := do
  let t ← t.memsetw 0 blank (t.bufferSizeBytes / 2)
  return t.moveCursor 0 0

/-- `char` is signed. -/
def isPrintableAscii (c : BitVec 8) : Bool := (0x20#8).sle c

/-- `internal_write` up to the test for scrolling. -/
def place (t : Terminal) (c : BitVec 8) : Option Terminal :=
  if c = 10#8 then some { t with row := t.row + 1, col := 0 }
  else if c = 8#8 then
    if t.col > 0 then
      let t := { t with col := t.col - 1 }
      t.store (int32 (t.row * t.width + t.col)) blank
    else some t
  else if isPrintableAscii c then do
    let t ← t.store (int32 (t.row * t.width + t.col)) (c.signExtend 16 + 0x0700#16)
    let t := { t with col := t.col + 1 }
    if t.col ≥ t.width then return { t with row := t.row + 1, col := 0 } else return t
  else some t

/-- The end of `internal_write`; the byte counts are halved, as cells are copied. -/
def scroll (t : Terminal) : Option Terminal :=
  if t.row ≥ t.height then do
    let t ← t.memcpy 0 t.width (asUint64 (int32 (2 * (t.height - 1) * t.width)) / 2)
    let t ← t.memsetw (int32 ((t.height - 1) * t.width)) blank (asUint64 (2 * t.width) / 2)
    return { t with row := t.height - 1 }
  else some t

def internalWrite (t : Terminal) (c : BitVec 8) : Option Terminal := do
  let t ← t.place c
  t.scroll

def write (t : Terminal) (c : BitVec 8) : Option Terminal := do
  let t ← t.internalWrite c
  return t.moveCursor t.row t.col

def writeAll (t : Terminal) : List (BitVec 8) → Option Terminal
  | [] => some t
  | c :: text => do
    let t ← t.write c
    t.writeAll text

/-! ## Unbounded text -/

/-- Rows without a limit, written at a cursor. -/
structure Text where
  cell : Nat → Nat → BitVec 16 := fun _ _ => blank
  row : Nat := 0
  col : Nat := 0

namespace Text

def put (text : Text) (col : Nat) (value : BitVec 16) : Text :=
  let line := Function.update (text.cell text.row) col value
  { text with cell := Function.update text.cell text.row line }

/-- A newline starts a row, a printable character is stored and wraps at the width, a backspace
blanks the previous cell of the row, and other characters do nothing. -/
def write (width : Nat) (text : Text) (c : BitVec 8) : Text :=
  if c.toNat = 10 then { text with row := text.row + 1, col := 0 }
  else if c.toNat = 8 then
    if text.col = 0 then text
    else { text.put (text.col - 1) blank with col := text.col - 1 }
  else if 32 ≤ c.toNat ∧ c.toNat < 128 then
    let text' := text.put text.col (BitVec.ofNat 16 (0x0700 + c.toNat))
    if text.col + 1 = width then { text' with row := text.row + 1, col := 0 }
    else { text' with col := text.col + 1 }
  else text

/-- The first of the last `height` rows, when there are so many. -/
def top (height : Nat) (text : Text) : Nat := text.row + 1 - height

/-- Nothing is written from the cursor on. -/
def BlankAhead (text : Text) : Prop :=
  ∀ r c, text.row < r ∨ text.row = r ∧ text.col ≤ c → text.cell r c = blank

theorem put_cell (text : Text) (col : Nat) (value : BitVec 16) (r c : Nat) :
    (text.put col value).cell r c =
      if r = text.row ∧ c = col then value else text.cell r c := by
  by_cases hr : r = text.row
  · subst hr
    by_cases hc : c = col
    · subst hc
      simp [put]
    · simp [put, hc]
  · simp [put, hr]

theorem BlankAhead.write {text : Text} (h : text.BlankAhead) (width : Nat) (c : BitVec 8) :
    (text.write width c).BlankAhead := by
  unfold Text.write
  dsimp only
  split
  · intro r k hahead
    exact h r k (Or.inl (by dsimp only at hahead; omega))
  · split
    · split
      · exact h
      · intro r k hahead
        dsimp only at hahead ⊢
        rw [put_cell]
        split
        · rfl
        · exact h r k (by dsimp only [put] at hahead; omega)
    · split
      · split
        · intro r k hahead
          dsimp only at hahead ⊢
          rw [put_cell, if_neg (by omega)]
          exact h r k (by omega)
        · intro r k hahead
          dsimp only [put] at hahead
          dsimp only
          rw [put_cell, if_neg (by omega)]
          exact h r k (by omega)
      · exact h

end Text

/-! ## Cells of a screen -/

section Cells

variable {t : Terminal}

theorem int32_of_lt {n : Nat} (h : n < 2 ^ 31) : int32 n = n := by
  unfold int32
  rw [Int.bmod_eq_of_le] <;> omega

theorem asUint64_of_lt {n : Nat} (h : n < 2 ^ 64) : asUint64 n = n := by
  unfold asUint64
  omega

theorem store_eq {i : Nat} (hi : i < t.width * t.height) (value : BitVec 16) :
    t.store i value = some { t with buffer := Function.update t.buffer i value } := by
  rw [store, if_pos (by omega), Int.toNat_natCast]

theorem load_eq {i : Nat} (hi : i < t.width * t.height) : t.load i = some (t.buffer i) := by
  rw [load, if_pos (by omega), Int.toNat_natCast]

/-- A copy in ascending order to lower addresses reads every cell before it is overwritten. -/
theorem memcpy_eq {dest distance n : Nat} (hdistance : 0 < distance)
    (hinside : dest + distance + n ≤ t.width * t.height) :
    t.memcpy dest (dest + distance : Nat) n = some
      { t with
        buffer := fun i =>
          if dest ≤ i ∧ i < dest + n then t.buffer (i + distance) else t.buffer i } := by
  induction n generalizing t dest with
  | zero =>
    have hnone (i : Nat) : ¬ (dest ≤ i ∧ i < dest + 0) := by omega
    simp only [memcpy, hnone, if_false]
  | succ n ih =>
    rw [memcpy, load_eq (by omega)]
    simp only [Option.bind_eq_bind, Option.bind_some]
    rw [store_eq (by omega)]
    simp only [Option.bind_some]
    have hnext := @ih
      { t with buffer := Function.update t.buffer dest (t.buffer (dest + distance)) } (dest + 1)
      (by dsimp only; omega)
    rw [show dest + 1 + distance = dest + distance + 1 by omega] at hnext
    rw [Nat.cast_succ, Nat.cast_succ] at hnext
    rw [hnext]
    congr 2
    funext i
    dsimp only
    by_cases hi : i = dest
    · subst hi
      simp
    · rw [Function.update_of_ne hi]
      by_cases hrange : dest + 1 ≤ i ∧ i < dest + 1 + n
      · rw [if_pos hrange, if_pos (by omega), Function.update_of_ne (by omega)]
      · rw [if_neg hrange, if_neg (by omega)]

theorem memsetw_eq {start n : Nat} (value : BitVec 16)
    (hinside : start + n ≤ t.width * t.height) :
    t.memsetw start value n = some
      { t with buffer := fun i => if start ≤ i ∧ i < start + n then value else t.buffer i } := by
  induction n generalizing t start with
  | zero =>
    have hnone (i : Nat) : ¬ (start ≤ i ∧ i < start + 0) := by omega
    simp only [memsetw, hnone, if_false]
  | succ n ih =>
    rw [memsetw, store_eq (by omega)]
    simp only [Option.bind_eq_bind, Option.bind_some]
    have hnext := @ih { t with buffer := Function.update t.buffer start value } (start + 1)
      (by dsimp only; omega)
    rw [Nat.cast_succ] at hnext
    rw [hnext]
    congr 2
    funext i
    dsimp only
    by_cases hi : i = start
    · subst hi
      simp
    · rw [Function.update_of_ne hi]
      exact if_congr (by omega) rfl rfl

end Cells

/-! ## Refinement -/

/-- The screen shows the rows of a text from `top` on. -/
structure ShowsFrom (width height top : Nat) (t : Terminal) (text : Text) : Prop where
  width_eq : t.width = width
  height_eq : t.height = height
  row : text.row = top + t.row
  col : text.col = t.col
  cell (r c : Nat) (hr : r < height) (hc : c < width) :
    t.buffer (r * width + c) = text.cell (top + r) c

variable {width height top : Nat} {t : Terminal} {text : Text}

theorem ShowsFrom.store (h : ShowsFrom width height top t text) (hsize : width * height < 2 ^ 29)
    (hrow : t.row < height) {c : Nat} (hc : c < width) (value : BitVec 16) :
    ∃ t', t.store (int32 (t.row * t.width + c)) value = some t' ∧
      t'.row = t.row ∧ t'.col = t.col ∧
      ShowsFrom width height top t' (text.put c value) := by
  have hindex : t.row * width + c < width * height := gridIndex_lt hrow hc
  rw [h.width_eq, ← Nat.cast_mul, ← Nat.cast_add, int32_of_lt (by omega),
    store_eq (by rw [h.width_eq, h.height_eq]; exact hindex)]
  refine ⟨_, rfl, rfl, rfl, h.width_eq, h.height_eq, h.row, h.col, fun r k hr hk => ?_⟩
  rw [Text.put_cell, h.row]
  dsimp only
  by_cases hhit : r = t.row ∧ k = c
  · rw [hhit.1, hhit.2, if_pos ⟨rfl, rfl⟩, Function.update_self]
  · have hne : r * width + k ≠ t.row * width + c := fun heq => hhit (gridIndex_inj hk hc heq)
    rw [Function.update_of_ne hne, if_neg (by omega), h.cell r k hr hk]

/-- The three kinds of character, as the tests on a signed `char` tell them apart. -/
theorem char_cases (c : BitVec 8) : (c = 10#8 ↔ c.toNat = 10) ∧ (c = 8#8 ↔ c.toNat = 8) ∧
    (isPrintableAscii c = true ↔ 32 ≤ c.toNat ∧ c.toNat < 128) ∧
    (isPrintableAscii c = true →
      c.signExtend 16 + 0x0700#16 = BitVec.ofNat 16 (0x0700 + c.toNat)) := by
  revert c
  decide +kernel

theorem place_shows (h : ShowsFrom width height top t text) (hsize : width * height < 2 ^ 29)
    (hrow : t.row < height) (hcol : t.col < width) (c : BitVec 8) :
    ∃ t', t.place c = some t' ∧ (t'.row = t.row ∨ t'.row = t.row + 1 ∧ t'.col = 0) ∧
      t'.col < width ∧
      ShowsFrom width height top t' (text.write width c) := by
  obtain ⟨hnewline, hback, hprint, hstored⟩ := char_cases c
  have hcell := h.cell
  unfold place Text.write
  dsimp only
  by_cases h1 : c.toNat = 10
  · rw [if_pos (hnewline.mpr h1), if_pos h1]
    exact ⟨_, rfl, Or.inr ⟨rfl, rfl⟩, by dsimp only; omega, h.width_eq, h.height_eq,
      by dsimp only; have := h.row; omega, rfl, hcell⟩
  rw [if_neg (mt hnewline.mp h1), if_neg h1]
  by_cases h2 : c.toNat = 8
  · rw [if_pos (hback.mpr h2), if_pos h2]
    by_cases hzero : t.col = 0
    · rw [if_neg (by omega), if_pos (by rw [h.col]; exact hzero)]
      exact ⟨t, rfl, Or.inl rfl, hcol, h⟩
    · rw [if_pos (by omega), if_neg (by rw [h.col]; exact hzero), h.col]
      have hback : ShowsFrom width height top { t with col := t.col - 1 }
          { text with col := t.col - 1 } := ⟨h.width_eq, h.height_eq, h.row, rfl, hcell⟩
      obtain ⟨t', hstore, hrow', hcol', hshows⟩ :=
        hback.store hsize hrow (show t.col - 1 < width by omega) blank
      exact ⟨t', hstore, Or.inl hrow', by rw [hcol']; dsimp only; omega, hshows⟩
  rw [if_neg (mt hback.mp h2), if_neg h2]
  by_cases h3 : 32 ≤ c.toNat ∧ c.toNat < 128
  · have hp := hprint.mpr h3
    rw [if_pos hp, if_pos h3, hstored hp, h.col]
    obtain ⟨t', hstore, hrow', hcol', hshows⟩ :=
      h.store hsize hrow hcol (BitVec.ofNat 16 (0x0700 + c.toNat))
    rw [hstore]
    simp only [Option.bind_eq_bind, Option.bind_some, hrow', hcol', hshows.width_eq]
    by_cases hwrap : t.col + 1 = width
    · rw [if_pos hwrap, if_pos (by omega)]
      refine ⟨_, rfl, Or.inr ⟨rfl, rfl⟩, by dsimp only; omega, rfl, hshows.height_eq, ?_, rfl,
        hshows.cell⟩
      have := h.row
      dsimp only
      omega
    · rw [if_neg hwrap, if_neg (by omega)]
      exact ⟨_, rfl, Or.inl rfl, by dsimp only; omega, rfl, hshows.height_eq, h.row, rfl,
        hshows.cell⟩
  · rw [if_neg (mt hprint.mp h3), if_neg h3]
    exact ⟨t, rfl, Or.inl rfl, hcol, h⟩

/-- Scrolling shows the text from one row further down, and the row of the cursor is new. -/
theorem scroll_shows (h : ShowsFrom width height top t text) (hpos : 0 < width)
    (hheight : 0 < height) (hsize : width * height < 2 ^ 29) (hahead : text.BlankAhead)
    (hrow : t.row = height) (hcol : t.col = 0) :
    ∃ t', t.scroll = some t' ∧ t'.row = height - 1 ∧ t'.col = 0 ∧
      ShowsFrom width height (top + 1) t' text := by
  obtain ⟨last, rfl⟩ : ∃ last, height = last + 1 := ⟨height - 1, by omega⟩
  have hcells : width * (last + 1) = last * width + width := by ring
  have hlength : asUint64 (int32 (2 * (((last + 1 : Nat) : Int) - 1) * width)) / 2 =
      last * width := by
    rw [show (2 * (((last + 1 : Nat) : Int) - 1) * width : Int) = (2 * (last * width) : Nat) by
      push_cast; ring, int32_of_lt (by omega), asUint64_of_lt (by omega)]
    omega
  have hstart : int32 ((((last + 1 : Nat) : Int) - 1) * width) = (last * width : Nat) := by
    rw [show ((((last + 1 : Nat) : Int) - 1) * width : Int) = (last * width : Nat) by
      push_cast; ring, int32_of_lt (by omega)]
  have hrowLength : asUint64 (2 * (width : Int)) / 2 = width := by
    have hle : width ≤ width * (last + 1) := Nat.le_mul_of_pos_right _ (Nat.succ_pos _)
    rw [show (2 * (width : Int)) = (2 * width : Nat) by push_cast; rfl,
      asUint64_of_lt (by omega)]
    omega
  have hcopy := @memcpy_eq t 0 width (last * width) hpos
    (by rw [h.width_eq, h.height_eq]; omega)
  unfold scroll
  rw [if_pos (by rw [hrow, h.height_eq]), h.width_eq, h.height_eq, hlength]
  rw [Nat.zero_add] at hcopy
  rw [Nat.cast_zero] at hcopy
  rw [hcopy]
  simp only [Option.bind_eq_bind, Option.bind_some, h.width_eq, h.height_eq, hstart, hrowLength]
  rw [memsetw_eq blank (by dsimp only; omega)]
  simp only [Option.bind_some]
  refine ⟨_, rfl, rfl, hcol, rfl, rfl, ?_, ?_, fun r c hr hc => ?_⟩
  · have := h.row
    dsimp only
    omega
  · exact h.col
  · dsimp only
    rcases Nat.lt_succ_iff_lt_or_eq.mp hr with hr | rfl
    · have hindex : r * width + c < width * last := gridIndex_lt hr hc
      rw [Nat.mul_comm width] at hindex
      rw [if_neg (by omega), if_pos (by omega),
        show r * width + c + width = (r + 1) * width + c by ring,
        h.cell (r + 1) c (by omega) hc]
      congr 1
      omega
    · rw [if_pos (by omega)]
      have hnew : text.row = top + 1 + r := by
        have := h.row
        omega
      exact (hahead _ c (Or.inr ⟨hnew, by rw [h.col, hcol]; exact Nat.zero_le _⟩)).symm

/-- The screen shows the last rows of a text. -/
structure Shows (width height : Nat) (t : Terminal) (text : Text) : Prop where
  shows : ShowsFrom width height (text.top height) t text
  row : t.row < height
  col : t.col < width
  ahead : text.BlankAhead

theorem Shows.write (hpos : 0 < width) (hheight : 0 < height) (hsize : width * height < 2 ^ 29)
    (h : Shows width height t text) (c : BitVec 8) :
    ∃ t', t.write c = some t' ∧ Shows width height t' (text.write width c) := by
  obtain ⟨t₁, hplace, hmoved, hcol₁, hshows₁⟩ :=
    place_shows h.shows hsize h.row h.col c
  have hahead := h.ahead.write width c
  have htop : text.top height = 0 ∨ t.row + 1 = height := by
    have := h.shows.row
    have := h.row
    unfold Text.top at *
    omega
  have htext := hshows₁.row
  simp only [Terminal.write, internalWrite, hplace, Option.bind_eq_bind, Option.bind_some]
  by_cases hfull : t₁.row = height
  · have hcol : t₁.col = 0 := by have := h.row; omega
    obtain ⟨t₂, hscroll, hrow₂, hcol₂, hshows₂⟩ :=
      scroll_shows hshows₁ hpos hheight hsize hahead hfull hcol
    rw [hscroll]
    have hnext : (text.write width c).top height = text.top height + 1 := by
      unfold Text.top at *
      omega
    exact ⟨t₂, rfl, by rw [hnext]; exact hshows₂, by omega, by omega, hahead⟩
  · have hstay : t₁.scroll = some t₁ := by
      have := h.row
      rw [scroll, if_neg (by rw [hshows₁.height_eq]; omega)]
    rw [hstay]
    have hsame : (text.write width c).top height = text.top height := by
      have := h.row
      unfold Text.top at *
      omega
    exact ⟨t₁, rfl, by rw [hsame]; exact hshows₁, by have := h.row; omega, hcol₁, hahead⟩

theorem Shows.writeAll (hpos : 0 < width) (hheight : 0 < height)
    (hsize : width * height < 2 ^ 29) (h : Shows width height t text) (chars : List (BitVec 8)) :
    ∃ t', t.writeAll chars = some t' ∧
      Shows width height t' (chars.foldl (Text.write width) text) := by
  induction chars generalizing t text with
  | nil => exact ⟨t, rfl, h⟩
  | cons c chars ih =>
    obtain ⟨t₁, hwrite, hshows₁⟩ := h.write hpos hheight hsize c
    obtain ⟨t₂, hrest, hshows₂⟩ := ih hshows₁
    exact ⟨t₂, by rw [Terminal.writeAll, hwrite]; exact hrest, hshows₂⟩

theorem clear_shows (buffer : Nat → BitVec 16) (hpos : 0 < width) (hheight : 0 < height) :
    ∃ t, (setBuffer buffer width height).clear = some t ∧ Shows width height t {} := by
  have hwidth : (setBuffer buffer width height).width = width := if_pos hpos
  have hrows : (setBuffer buffer width height).height = height := if_pos hheight
  have hfill := @memsetw_eq (setBuffer buffer width height) 0 (width * height) blank
    (by rw [hwidth, hrows]; omega)
  rw [Nat.cast_zero] at hfill
  rw [clear, bufferSizeBytes, hwidth, hrows, Nat.mul_div_cancel _ (by decide), hfill]
  have htop : Text.top height {} = 0 := Nat.sub_eq_zero_of_le hheight
  refine ⟨_, rfl, ⟨hwidth, hrows, by rw [htop]; rfl, rfl, fun r c hr hc => ?_⟩, hheight, hpos,
    fun r c _ => rfl⟩
  exact if_pos ⟨Nat.zero_le _, by rw [Nat.zero_add]; exact gridIndex_lt hr hc⟩

/-- After `clear`, whatever is written, no access leaves the buffer, the cursor is on the screen
and the screen is the end of the text, with the text's cursor. -/
theorem terminal_shows_text (buffer : Nat → BitVec 16) {columns rows : Nat}
    (hcolumns : 1 ≤ columns) (hrows : 1 ≤ rows) (hsize : columns * rows < 2 ^ 29)
    (chars : List (BitVec 8)) :
    ∃ t₀ t, (setBuffer buffer columns rows).clear = some t₀ ∧ t₀.writeAll chars = some t ∧
      let text := chars.foldl (Text.write columns) {}
      t.row < rows ∧ t.col < columns ∧ text.row = text.top rows + t.row ∧ text.col = t.col ∧
      ∀ r c, r < rows → c < columns →
        t.buffer (r * columns + c) = text.cell (text.top rows + r) c := by
  obtain ⟨t₀, hclear, hstart⟩ := clear_shows buffer hcolumns hrows
  obtain ⟨t, hwrite, hend⟩ := hstart.writeAll hcolumns hrows hsize chars
  exact ⟨t₀, t, hclear, hwrite, hend.row, hend.col, hend.shows.row, hend.shows.col,
    hend.shows.cell⟩

/-- Twelve characters on a screen of four columns and two rows. -/
theorem small_terminal_shows_text :
    ∃ t₀ t, (setBuffer (fun _ => 0#16) 4 2).clear = some t₀ ∧
      t₀.writeAll [72#8, 10#8, 97#8, 98#8, 8#8, 99#8, 100#8, 101#8, 8#8, 102#8, 10#8, 103#8] =
        some t ∧
      let text := [72#8, 10#8, 97#8, 98#8, 8#8, 99#8, 100#8, 101#8, 8#8, 102#8, 10#8,
        103#8].foldl (Text.write 4) {}
      t.row < 2 ∧ t.col < 4 ∧ text.row = text.top 2 + t.row ∧ text.col = t.col ∧
      ∀ r c, r < 2 → c < 4 → t.buffer (r * 4 + c) = text.cell (text.top 2 + r) c :=
  terminal_shows_text _ (by decide) (by decide) (by decide) _

end Terminal
end Os1
