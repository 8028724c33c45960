import Os1.Display.TextDisplay
import Os1.Lib.Grid

/-! Drawing only what has changed shows what drawing every cell would show. -/
namespace Os1.Display

open Framebuffer FramebufferTextDisplay

namespace Framebuffer

theorem storeBytes_byte (fb : Framebuffer) (pixel : Nat) (rgb : BitVec 32) (n i : Nat) :
    (fb.storeBytes pixel rgb n).byte i =
      if pixel ≤ i ∧ i < pixel + n then pixelByte rgb (i - pixel) else fb.byte i := by
  induction n with
  | zero => exact (if_neg (by omega)).symm
  | succ n ih =>
    rw [storeBytes, store]
    dsimp only
    by_cases hi : i = pixel + n
    · subst hi
      rw [Function.update_self, if_pos (by omega), Nat.add_sub_cancel_left]
    · rw [Function.update_of_ne hi, ih]
      exact if_congr (by omega) rfl rfl

/-- Every byte that was stored is below `limit`. -/
def Bounded (limit : Nat) (fb : Framebuffer) : Prop := ∀ offset ∈ fb.stores, offset < limit

theorem Bounded.storeBytes {limit : Nat} {fb : Framebuffer} (h : fb.Bounded limit) {pixel n : Nat}
    (hpixel : pixel + n ≤ limit) (rgb : BitVec 32) : (fb.storeBytes pixel rgb n).Bounded limit := by
  induction n with
  | zero => exact h
  | succ n ih =>
    intro offset hoffset
    rcases List.mem_cons.mp hoffset with rfl | hoffset
    · omega
    · exact ih (by omega) offset hoffset

end Framebuffer

namespace FramebufferTextDisplay

variable {font8x16 : BitVec 8 → Nat → BitVec 8} {display : FramebufferTextDisplay}

/-- Pixels of 3 or 4 bytes, scan lines that do not overlap, and all cells on the screen. -/
structure Geometry (display : FramebufferTextDisplay) : Prop where
  available : display.available = true
  depth : display.bitsPerPixel = 24 ∨ display.bitsPerPixel = 32
  pitch : display.width * display.bytesPerPixel ≤ display.pitchBytes
  columns : display.columns * kFramebufferCellWidth ≤ display.width
  rows : display.rows * kFramebufferCellHeight ≤ display.height

def limit (display : FramebufferTextDisplay) : Nat := display.pitchBytes * display.height

namespace Geometry

theorem pixelBytes (h : Geometry display) :
    (if display.bitsPerPixel = 24 then 3 else 4) = display.bytesPerPixel := by
  rcases h.depth with hdepth | hdepth <;> simp [bytesPerPixel, hdepth]

theorem row_byte_lt (h : Geometry display) {x k : Nat} (hx : x < display.width)
    (hk : k < display.bytesPerPixel) : x * display.bytesPerPixel + k < display.pitchBytes := by
  have hlt := gridIndex_lt hx hk
  rw [Nat.mul_comm display.bytesPerPixel] at hlt
  exact Nat.lt_of_lt_of_le hlt h.pitch

/-- Different bytes of different pixels are at different offsets. -/
theorem offset_inj (h : Geometry display) {x y k x' y' k' : Nat} (hx : x < display.width)
    (hk : k < display.bytesPerPixel) (hx' : x' < display.width) (hk' : k' < display.bytesPerPixel)
    (heq : display.pixelOffset x y + k = display.pixelOffset x' y' + k') :
    x = x' ∧ y = y' ∧ k = k' := by
  unfold pixelOffset at heq
  rw [Nat.add_assoc, Nat.add_assoc] at heq
  obtain ⟨rfl, hrow⟩ := gridIndex_inj (h.row_byte_lt hx hk) (h.row_byte_lt hx' hk') heq
  obtain ⟨rfl, rfl⟩ := gridIndex_inj hk hk' hrow
  exact ⟨rfl, rfl, rfl⟩

theorem pixel_le (h : Geometry display) {x y : Nat} (hx : x < display.width)
    (hy : y < display.height) :
    display.pixelOffset x y + display.bytesPerPixel ≤ display.limit := by
  have hbytes : 0 < display.bytesPerPixel := by
    rcases h.depth with hdepth | hdepth <;> simp [bytesPerPixel, hdepth]
  have hlast := h.row_byte_lt hx (Nat.sub_lt hbytes Nat.one_pos)
  have hlt : y * display.pitchBytes + (x * display.bytesPerPixel + (display.bytesPerPixel - 1)) <
      display.limit := gridIndex_lt hy hlast
  unfold pixelOffset
  omega

end Geometry

/-! ## One cell -/

/-- The places before one in the order of the loops. -/
def Before (row col r c : Nat) : Prop := r < row ∨ r = row ∧ c < col

/-- The offset of the first byte of a dot of a cell. -/
def dotOffset (display : FramebufferTextDisplay) (row col glyphRow glyphCol : Nat) : Nat :=
  display.pixelOffset (col * kFramebufferCellWidth + glyphCol)
    (row * kFramebufferCellHeight + glyphRow)

section

variable (font8x16 : BitVec 8 → Nat → BitVec 8) (display : FramebufferTextDisplay) (row col : Nat)
  (cell : BitVec 16) (inverse : Bool)

/-- The dots of a cell of which `done` holds have the colours of the cell. -/
def ShowsDots (done : Nat → Nat → Prop) (fb : Framebuffer) : Prop :=
  ∀ r c k, r < 16 → c < 8 → k < display.bytesPerPixel → done r c →
    fb.byte (display.dotOffset row col r c + k) = pixelByte (dotColor font8x16 cell inverse r c) k

/-- The area of a cell shows it. -/
def ShowsCell (fb : Framebuffer) : Prop :=
  ShowsDots font8x16 display row col cell inverse (fun _ _ => True) fb

/-- A cell that is being drawn: the dots done so far are shown and no byte outside its area has
changed. -/
structure Drawing (done : Nat → Nat → Prop) (d : FramebufferTextDisplay) : Prop where
  same : d = { display with framebuffer := d.framebuffer }
  shows : ShowsDots font8x16 display row col cell inverse done d.framebuffer
  frame (offset : Nat) (houtside : ∀ r c k, r < 16 → c < 8 → k < display.bytesPerPixel →
      offset ≠ display.dotOffset row col r c + k) :
    d.framebuffer.byte offset = display.framebuffer.byte offset
  bounded (h : display.framebuffer.Bounded display.limit) : d.framebuffer.Bounded display.limit

end

variable {row col r c : Nat} {cell : BitVec 16} {inverse : Bool} {done : Nat → Nat → Prop}
  {fb : Framebuffer} {d : FramebufferTextDisplay}

theorem Geometry.dot_lt (h : Geometry display) (hrow : row < display.rows)
    (hcol : col < display.columns) (hr : r < 16) (hc : c < 8) :
    col * kFramebufferCellWidth + c < display.width ∧
      row * kFramebufferCellHeight + r < display.height := by
  have hwidth := h.columns
  have hheight := h.rows
  unfold kFramebufferCellWidth kFramebufferCellHeight at *
  omega

/-- Different dots of all cells are at different offsets. -/
theorem Geometry.dot_inj (h : Geometry display) {row' col' r' c' k k' : Nat}
    (hrow : row < display.rows) (hcol : col < display.columns) (hrow' : row' < display.rows)
    (hcol' : col' < display.columns) (hr : r < 16) (hc : c < 8) (hr' : r' < 16) (hc' : c' < 8)
    (hk : k < display.bytesPerPixel) (hk' : k' < display.bytesPerPixel)
    (heq : display.dotOffset row col r c + k = display.dotOffset row' col' r' c' + k') :
    (row = row' ∧ col = col') ∧ r = r' ∧ c = c' ∧ k = k' := by
  obtain ⟨hx, -⟩ := h.dot_lt hrow hcol hr hc
  obtain ⟨hx', -⟩ := h.dot_lt hrow' hcol' hr' hc'
  obtain ⟨hcols, hrows, rfl⟩ := h.offset_inj hx hk hx' hk' heq
  unfold kFramebufferCellWidth at hcols
  unfold kFramebufferCellHeight at hrows
  omega

section

variable (hg : Geometry display) (hrow : row < display.rows) (hcol : col < display.columns)

include hg

theorem storePixel_byte (x y : Nat) (rgb : BitVec 32) (offset : Nat) :
    ({ display with framebuffer := fb }.storePixel x y rgb).framebuffer.byte offset =
      if display.pixelOffset x y ≤ offset ∧
          offset < display.pixelOffset x y + display.bytesPerPixel then
        pixelByte rgb (offset - display.pixelOffset x y)
      else fb.byte offset := by
  rw [← hg.pixelBytes]
  exact storeBytes_byte ..

include hrow hcol

theorem Drawing.setPixel (h : Drawing font8x16 display row col cell inverse (Before r c) d)
    (hr : r < 16) (hc : c < 8) :
    Drawing font8x16 display row col cell inverse (Before r (c + 1))
      (d.framebufferSetPixel (col * kFramebufferCellWidth + c) (row * kFramebufferCellHeight + r)
        (dotColor font8x16 cell inverse r c)) := by
  obtain ⟨fb, rfl⟩ : ∃ fb, d = { display with framebuffer := fb } := ⟨_, h.same⟩
  obtain ⟨hx, hy⟩ := hg.dot_lt hrow hcol hr hc
  have hcond : ¬ (!display.available ||
      decide (col * kFramebufferCellWidth + c ≥ display.width) ||
      decide (row * kFramebufferCellHeight + r ≥ display.height)) = true := by
    simp only [hg.available, Bool.not_true, Bool.false_or, Bool.or_eq_true, decide_eq_true_iff]
    omega
  unfold framebufferSetPixel
  rw [if_neg hcond]
  refine ⟨rfl, fun r' c' k hr' hc' hk hdone => ?_, fun offset hout => ?_, fun hbounded => ?_⟩
  · rw [storePixel_byte hg]
    split
    next hin =>
      have hlt : display.dotOffset row col r' c' + k - display.dotOffset row col r c <
          display.bytesPerPixel := Nat.sub_lt_left_of_lt_add hin.1 hin.2
      obtain ⟨-, rfl, rfl, hk'⟩ := hg.dot_inj hrow hcol hrow hcol hr' hc' hr hc hk hlt
        (Nat.add_sub_of_le hin.1).symm
      exact congrArg _ hk'.symm
    next hnot =>
      refine h.shows r' c' k hr' hc' hk (hdone.elim Or.inl fun hlast => Or.inr ⟨hlast.1, ?_⟩)
      by_contra hge
      obtain ⟨rfl, rfl⟩ : r' = r ∧ c' = c := by omega
      exact hnot ⟨Nat.le_add_right .., Nat.add_lt_add_left hk _⟩
  · rw [storePixel_byte hg, if_neg fun hin => ?_]
    · exact h.frame offset hout
    · exact hout r c _ hr hc (Nat.sub_lt_left_of_lt_add hin.1 hin.2)
        (Nat.add_sub_of_le hin.1).symm
  · refine (h.bounded hbounded).storeBytes ?_ _
    rw [hg.pixelBytes]
    exact hg.pixel_le hx hy

omit hg hrow hcol in
theorem Drawing.mono {done' : Nat → Nat → Prop}
    (h : Drawing font8x16 display row col cell inverse done d)
    (himp : ∀ r c, r < 16 → c < 8 → done' r c → done r c) :
    Drawing font8x16 display row col cell inverse done' d :=
  ⟨h.same, fun r c k hr hc hk hdone => h.shows r c k hr hc hk (himp r c hr hc hdone), h.frame,
    h.bounded⟩

/-- Drawing a cell shows it and leaves the bytes of the other cells as they are. -/
theorem framebufferDrawCell_spec (cell : BitVec 16) (inverse : Bool) :
    Drawing font8x16 display row col cell inverse (fun _ _ => True)
      (framebufferDrawCell font8x16 display (col * kFramebufferCellWidth)
        (row * kFramebufferCellHeight) cell inverse) := by
  refine Drawing.mono (?_ : Drawing _ _ _ _ _ _ (Before 16 0) _) fun r c hr _ _ => Or.inl hr
  refine foldl_range_rule (P := fun r => Drawing font8x16 display row col cell inverse (Before r 0))
    16 ⟨rfl, fun r c k _ _ _ hdone => ?_, fun _ _ => rfl, id⟩ fun r d hr h => ?_
  · unfold Before at hdone
    omega
  · refine Drawing.mono (?_ : Drawing _ _ _ _ _ _ (Before r 8) _) fun r' c' _ hc' hdone => ?_
    · exact foldl_range_rule
        (P := fun c => Drawing font8x16 display row col cell inverse (Before r c)) 8 h
        fun c d hc h => h.setPixel hg hrow hcol hr hc
    · unfold Before at *
      omega

/-- A cell that was shown before another one is drawn is shown afterwards. -/
theorem Drawing.keeps {cell' : BitVec 16} {inverse' : Bool}
    (h : Drawing font8x16 display row col cell inverse done d) (hr : r < display.rows)
    (hc : c < display.columns) (hne : ¬ (r = row ∧ c = col))
    (hshows : ShowsCell font8x16 display r c cell' inverse' display.framebuffer) :
    ShowsCell font8x16 display r c cell' inverse' d.framebuffer := by
  intro gr gc k hgr hgc hk hdone
  rw [h.frame _ fun gr' gc' k' hgr' hgc' hk' heq =>
    hne (hg.dot_inj hr hc hrow hcol hgr hgc hgr' hgc' hk hk' heq).1]
  exact hshows gr gc k hgr hgc hk hdone

end

/-! ## One call -/

/-- The display in the middle of a call. -/
def midCall (display : FramebufferTextDisplay) (fb : Framebuffer)
    (shadow : Option (Nat → BitVec 16)) : FramebufferTextDisplay :=
  { display with framebuffer := fb, shadowBuffer := shadow }

section

variable (font8x16 : BitVec 8 → Nat → BitVec 8) (display : FramebufferTextDisplay) (call : Call)

/-- The cell shows what is wanted and the shadow knows it. -/
def CellDone (d : FramebufferTextDisplay) (r c : Nat) : Prop :=
  ShowsCell font8x16 display r c (display.wantedCell call r c) (display.isCursor call r c)
    d.framebuffer ∧
  ∀ cells, d.shadowBuffer = some cells →
    cells (r * display.columns + c) = display.wantedCell call r c

/-- The cell is as the shadow has it from before the call. -/
def CellStale (d : FramebufferTextDisplay) (r c : Nat) : Prop :=
  ∀ cells, d.shadowBuffer = some cells → ShowsCell font8x16 display r c
    (cells (r * display.columns + c)) (display.wasCursor r c) d.framebuffer

/-- A call that has come to the cell at `row` and `col`. -/
structure Presenting (row col : Nat) (d : FramebufferTextDisplay) : Prop where
  same : d = display.midCall d.framebuffer d.shadowBuffer
  shadow : d.shadowBuffer = none ↔ display.shadowBuffer = none
  done {r c : Nat} (hr : r < display.rows) (hc : c < display.columns)
    (hbefore : Before row col r c) : CellDone font8x16 display call d r c
  stale {r c : Nat} (hr : r < display.rows) (hc : c < display.columns)
    (hbefore : ¬ Before row col r c) : CellStale font8x16 display d r c
  bounded : d.framebuffer.Bounded display.limit

end

variable {call : Call}

namespace Presenting

/-- The cell that the call has come to is dealt with and the others stay what they are. -/
theorem next {d' : FramebufferTextDisplay} (h : Presenting font8x16 display call row col d)
    (hsame : d' = display.midCall d'.framebuffer d'.shadowBuffer)
    (hshadow : d'.shadowBuffer = none ↔ d.shadowBuffer = none)
    (hbounded : d'.framebuffer.Bounded display.limit)
    (hcell : CellDone font8x16 display call d' row col)
    (hothers : ∀ r c, r < display.rows → c < display.columns → ¬ (r = row ∧ c = col) →
      (CellDone font8x16 display call d r c → CellDone font8x16 display call d' r c) ∧
        (CellStale font8x16 display d r c → CellStale font8x16 display d' r c)) :
    Presenting font8x16 display call row (col + 1) d' := by
  refine ⟨hsame, hshadow.trans h.shadow, @fun r c hr hc hbefore => ?_,
    @fun r c hr hc hbefore => ?_, hbounded⟩
  · by_cases hhit : r = row ∧ c = col
    · obtain ⟨rfl, rfl⟩ := hhit
      exact hcell
    · exact (hothers r c hr hc hhit).1 (h.done hr hc (by unfold Before at *; omega))
  · exact (hothers r c hr hc (by unfold Before at *; omega)).2
      (h.stale hr hc (by unfold Before at *; omega))

theorem rowEnd (h : Presenting font8x16 display call row display.columns d) :
    Presenting font8x16 display call (row + 1) 0 d :=
  ⟨h.same, h.shadow, fun hr hc hbefore => h.done hr hc (by unfold Before at *; omega),
    fun hr hc hbefore => h.stale hr hc (by unfold Before at *; omega), h.bounded⟩

/-- Drawing the wanted cell and noting it in the shadow. -/
theorem draw (hg : Geometry display) (hrow : row < display.rows) (hcol : col < display.columns)
    (h : Presenting font8x16 display call row col d) :
    ∃ fb, framebufferDrawCell font8x16 d (col * kFramebufferCellWidth)
        (row * kFramebufferCellHeight) (display.wantedCell call row col)
        (display.isCursor call row col) = display.midCall fb d.shadowBuffer ∧
      Presenting font8x16 display call row (col + 1)
        (display.midCall fb (d.shadowBuffer.map fun cells => Function.update cells
          (row * display.columns + col) (display.wantedCell call row col))) := by
  obtain ⟨fb, shadow, rfl⟩ : ∃ fb shadow, d = display.midCall fb shadow := ⟨_, _, h.same⟩
  have hg' : Geometry (display.midCall fb shadow) :=
    ⟨hg.available, hg.depth, hg.pitch, hg.columns, hg.rows⟩
  have hdrawing := @framebufferDrawCell_spec font8x16 _ row col hg' hrow hcol
    (display.wantedCell call row col) (display.isCursor call row col)
  generalize framebufferDrawCell font8x16 (display.midCall fb shadow) _ _ _ _ = drawn at hdrawing ⊢
  obtain ⟨fb', rfl⟩ : ∃ fb', drawn = display.midCall fb' shadow := ⟨_, hdrawing.same⟩
  refine ⟨fb', rfl, h.next rfl (by simp [midCall]) (hdrawing.bounded h.bounded)
    ⟨hdrawing.shows, ?_⟩ fun r c hr hc hne => ?_⟩
  · intro cells hcells
    obtain ⟨cells, rfl, rfl⟩ := Option.map_eq_some_iff.mp hcells
    exact Function.update_self _ _ _
  · have hcells {cells : Nat → BitVec 16} (hcells : shadow.map (fun cells => Function.update cells
        (row * display.columns + col) (display.wantedCell call row col)) = some cells) :
        ∃ old, shadow = some old ∧
          cells (r * display.columns + c) = old (r * display.columns + c) := by
      obtain ⟨old, hold, rfl⟩ := Option.map_eq_some_iff.mp hcells
      exact ⟨old, hold, Function.update_of_ne (fun heq => hne (gridIndex_inj hc hcol heq)) _ _⟩
    refine ⟨fun hdone => ⟨?_, fun cells hc' => ?_⟩, fun hstale cells hc' => ?_⟩
    · exact hdrawing.keeps hg' hrow hcol hr hc hne hdone.1
    · obtain ⟨old, hold, heq⟩ := hcells hc'
      exact heq.trans (hdone.2 old hold)
    · obtain ⟨old, hold, heq⟩ := hcells hc'
      rw [heq]
      exact hdrawing.keeps hg' hrow hcol hr hc hne (hstale old hold)

theorem presentCell (hg : Geometry display) (hrow : row < display.rows)
    (hcol : col < display.columns) (h : Presenting font8x16 display call row col d) :
    Presenting font8x16 display call row (col + 1)
      (FramebufferTextDisplay.presentCell font8x16 call row d col) := by
  obtain ⟨fb, shadow, rfl⟩ : ∃ fb shadow, d = display.midCall fb shadow := ⟨_, _, h.same⟩
  unfold FramebufferTextDisplay.presentCell
  dsimp only
  split
  next hskip =>
    simp only [Bool.and_eq_true, Bool.not_eq_true'] at hskip
    obtain ⟨⟨hsame, hwas⟩, his⟩ := hskip
    cases shadow with
    | none => cases hsame
    | some cells =>
      have hcell : cells (row * display.columns + col) = display.wantedCell call row col := by
        have hunchanged : decide (cells (row * display.columns + col) ≠
          display.wantedCell call row col) = false := hsame
        exact not_not.mp (of_decide_eq_false hunchanged)
      have hstale := h.stale hrow hcol (by unfold Before; omega) cells rfl
      rw [hcell, show display.wasCursor row col = display.isCursor call row col from
        hwas.trans his.symm] at hstale
      refine h.next rfl Iff.rfl h.bounded ⟨hstale, fun cells' hcells' => ?_⟩
        fun r c _ _ _ => ⟨id, id⟩
      rw [← Option.some.inj hcells']
      exact hcell
  next =>
    obtain ⟨fb', hdraw, hnext⟩ := h.draw hg hrow hcol
    have hdrawn := congrArg (fun d : FramebufferTextDisplay =>
      { d with
        shadowBuffer := d.shadowBuffer.map fun cells =>
          Function.update cells (row * display.columns + col)
            (display.wantedCell call row col) }) hdraw
    exact (congrArg (Presenting font8x16 display call row (col + 1)) hdrawn).mpr hnext

/-- A row is passed over only when neither cursor is in it and its cells are in the shadow. -/
theorem unchanged (h : Presenting font8x16 display call row 0 d)
    (hunchanged : d.rowUnchanged call row = true) :
    Presenting font8x16 display call (row + 1) 0 d := by
  obtain ⟨fb, shadow, rfl⟩ : ∃ fb shadow, d = display.midCall fb shadow := ⟨_, _, h.same⟩
  simp only [rowUnchanged, Bool.and_eq_true, Bool.not_eq_true', Bool.and_eq_false_iff,
    decide_eq_true_iff, decide_eq_false_iff_not] at hunchanged
  obtain ⟨⟨⟨⟨hcolumns, hrows⟩, hold⟩, hnew⟩, hmatch⟩ := hunchanged
  change display.visibleColumns call = display.columns at hcolumns
  change display.visibleRows call = display.rows at hrows
  change display.cursorValid = false ∨ ¬ display.lastCursorY = row at hold
  change ¬ call.cursorY = row ∨ ¬ call.cursorX < display.visibleColumns call at hnew
  have hwas (c : Nat) : display.wasCursor row c = false := by
    rcases hold with hold | hold <;> simp [wasCursor, hold]
  have his {c : Nat} (hc : c < display.columns) : display.isCursor call row c = false := by
    rw [Bool.eq_false_iff, isCursor]
    simp only [ne_eq, Bool.and_eq_true, decide_eq_true_iff]
    omega
  refine ⟨rfl, h.shadow, @fun r c hr hc hbefore => ?_, @fun r c hr hc hbefore =>
    h.stale hr hc (by unfold Before at *; omega), h.bounded⟩
  by_cases hrow : r = row
  · subst hrow
    cases shadow with
    | none => cases hmatch
    | some cells =>
      have hall := List.all_eq_true.mp hmatch c
        (List.mem_range.mpr (Nat.lt_of_lt_of_eq hc hcolumns.symm))
      have hcell : cells (r * display.columns + c) = display.wantedCell call r c := by
        rw [wantedCell, if_pos ⟨by omega, by omega⟩]
        exact of_decide_eq_true hall
      have hstale := h.stale hr hc (by unfold Before; omega) cells rfl
      rw [hcell, hwas, ← his hc] at hstale
      exact ⟨hstale, fun cells' hcells' => Option.some.inj hcells' ▸ hcell⟩
  · exact h.done hr hc (by unfold Before at *; omega)

theorem presentRow (hg : Geometry display) (hrow : row < display.rows)
    (h : Presenting font8x16 display call row 0 d) : Presenting font8x16 display call (row + 1) 0
      (FramebufferTextDisplay.presentRow font8x16 call d row) := by
  unfold FramebufferTextDisplay.presentRow
  split
  next hunchanged => exact h.unchanged hunchanged
  next =>
    have hcolumns : d.columns = display.columns := by
      rw [h.same]
      rfl
    rw [hcolumns]
    exact (foldl_range_rule (P := Presenting font8x16 display call row) display.columns h
      fun col d hcol hcells => hcells.presentCell hg hrow hcol).rowEnd

end Presenting

/-! ## Whole runs -/

/-- The framebuffer shows what the shadow and the remembered cursor say. -/
structure Agrees (font8x16 : BitVec 8 → Nat → BitVec 8) (display : FramebufferTextDisplay) :
    Prop where
  geometry : Geometry display
  shown {row col : Nat} (hrow : row < display.rows) (hcol : col < display.columns) :
    CellStale font8x16 display display row col
  bounded : display.framebuffer.Bounded display.limit

/-- The pixels and cells of two displays are at the same places. -/
def SamePlaces (display d : FramebufferTextDisplay) : Prop :=
  ∃ fb shadow x y valid, d = { display.midCall fb shadow with
    lastCursorX := x
    lastCursorY := y
    cursorValid := valid }

theorem Agrees.presenting (h : Agrees font8x16 display) (call : Call) :
    Presenting font8x16 display call 0 0 display :=
  ⟨rfl, Iff.rfl, fun _ _ hbefore => by unfold Before at hbefore; omega,
    fun hr hc _ => h.shown hr hc, h.bounded⟩

/-- A call shows every cell that is wanted, and shadow and cursor agree with the screen again. -/
theorem Agrees.present (h : Agrees font8x16 display) (call : Call) :
    Agrees font8x16 (presentFramebufferText font8x16 display call) ∧
      SamePlaces display (presentFramebufferText font8x16 display call) ∧
      ∀ row col, row < display.rows → col < display.columns →
        ShowsCell font8x16 display row col (display.wantedCell call row col)
          (display.isCursor call row col)
          (presentFramebufferText font8x16 display call).framebuffer := by
  have hall : Presenting font8x16 display call display.rows 0 _ :=
    foldl_range_rule (P := fun row => Presenting font8x16 display call row 0) display.rows
      (h.presenting call) fun row d hrow hrows => hrows.presentRow h.geometry hrow
  obtain ⟨fb, shadow, heq⟩ : ∃ fb shadow, _ = display.midCall fb shadow := ⟨_, _, hall.same⟩
  rw [presentFramebufferText, if_neg (by simp [h.geometry.available])]
  rw [heq] at hall ⊢
  have hdone {row col : Nat} (hrow : row < display.rows) (hcol : col < display.columns) :=
    hall.done hrow hcol (Or.inl hrow)
  refine ⟨⟨⟨h.geometry.available, h.geometry.depth, h.geometry.pitch, h.geometry.columns,
    h.geometry.rows⟩, @fun row col hrow hcol cells hcells => ?_, hall.bounded⟩,
    ⟨fb, shadow, _, _, _, rfl⟩, fun row col hrow hcol => (hdone hrow hcol).1⟩
  -- The cursor that is remembered is the one that was drawn.
  have hcursor : (decide (call.cursorX < display.visibleColumns call) &&
      decide (call.cursorY < display.visibleRows call) && decide (call.cursorX = col) &&
      decide (call.cursorY = row)) = display.isCursor call row col := by
    rw [Bool.eq_iff_iff]
    simp only [isCursor, Bool.and_eq_true, decide_eq_true_iff]
    constructor
    · rintro ⟨⟨⟨hx, hy⟩, rfl⟩, rfl⟩
      exact ⟨⟨⟨rfl, rfl⟩, hx⟩, hy⟩
    · rintro ⟨⟨⟨rfl, rfl⟩, hx⟩, hy⟩
      exact ⟨⟨⟨hx, hy⟩, rfl⟩, rfl⟩
  obtain ⟨hshows, hnoted⟩ := hdone hrow hcol
  rw [← hnoted cells hcells, ← hcursor] at hshows
  exact hshows

theorem Agrees.run (h : Agrees font8x16 display) (calls : List Call) :
    Agrees font8x16 (calls.foldl (presentFramebufferText font8x16) display) ∧
      SamePlaces display (calls.foldl (presentFramebufferText font8x16) display) := by
  induction calls generalizing display with
  | nil => exact ⟨h, _, _, _, _, _, rfl⟩
  | cons call calls ih =>
    obtain ⟨hnext, ⟨_, _, _, _, _, heq⟩, -⟩ := h.present call
    obtain ⟨hend, _, _, _, _, _, heq'⟩ := ih hnext
    exact ⟨hend, _, _, _, _, _, heq'.trans (by rw [heq]; rfl)⟩

/-- Every cell of a call, drawn one after the other whatever was shown before. -/
def drawAll (font8x16 : BitVec 8 → Nat → BitVec 8) (display : FramebufferTextDisplay)
    (call : Call) : FramebufferTextDisplay :=
  (List.range display.rows).foldl (fun d row =>
    (List.range display.columns).foldl (fun d col =>
      framebufferDrawCell font8x16 d (col * kFramebufferCellWidth) (row * kFramebufferCellHeight)
        (display.wantedCell call row col) (display.isCursor call row col)) d) display

/-- Drawing every cell shows every cell; without a shadow nothing is assumed of what was shown
before. -/
theorem drawAll_shows (h : Agrees font8x16 display) (hshadow : display.shadowBuffer = none)
    (call : Call) (hrow : row < display.rows) (hcol : col < display.columns) :
    ShowsCell font8x16 display row col (display.wantedCell call row col)
      (display.isCursor call row col) (drawAll font8x16 display call).framebuffer := by
  have hall : Presenting font8x16 display call display.rows 0 (drawAll font8x16 display call) := by
    refine foldl_range_rule (P := fun row => Presenting font8x16 display call row 0) display.rows
      (h.presenting call) fun r d hr hrows => ?_
    refine (foldl_range_rule (P := Presenting font8x16 display call r) display.columns hrows
      fun c d hc hcells => ?_).rowEnd
    obtain ⟨fb, hdraw, hnext⟩ := hcells.draw h.geometry hr hc
    rw [hcells.shadow.mpr hshadow] at hdraw hnext
    exact hdraw ▸ hnext
  exact (hall.done hrow hcol (Or.inl hrow)).1

/-- A framebuffer that was cleared shows the zeroed shadow: the zero cell is black on black. -/
theorem dotColor_zero (inverse : Bool) (glyphRow glyphCol : Nat) :
    dotColor font8x16 0#16 inverse glyphRow glyphCol = 0#32 := by
  have hblack : vgaColor 0#8 = 0#32 := by decide
  simp [dotColor, hblack]

/-- The display as the kernel sets it up: with a zeroed shadow buffer or with none. -/
def withShadow (display : FramebufferTextDisplay) (shadow : Bool) : FramebufferTextDisplay :=
  { display with
    shadowBuffer := if shadow then some fun _ => 0#16 else none
    cursorValid := false }

theorem initialize_agrees {info : BootFramebufferInfo} {fb : Nat → BitVec 8}
    (h : initializeFramebufferTextDisplay info ⟨fb, []⟩ = some display)
    (hpitch : info.width * (info.bitsPerPixel / 8) ≤ info.pitchBytes) (shadow : Bool) :
    Agrees font8x16 (display.withShadow shadow) := by
  unfold initializeFramebufferTextDisplay at h
  split at h
  · cases h
  split at h
  · cases h
  split at h
  · cases h
  next hdepth =>
    dsimp only at h
    split at h
    · cases h
    · have hdisplay := (Option.some.inj h).symm
      have hg : Geometry (display.withShadow shadow) := by
        rw [hdisplay]
        refine ⟨rfl, ?_, hpitch, ?_, ?_⟩
        · change info.bitsPerPixel = 24 ∨ info.bitsPerPixel = 32
          omega
        · change info.width / 8 % 2 ^ 16 * 8 ≤ info.width
          omega
        · change info.height / 16 % 2 ^ 16 * 16 ≤ info.height
          omega
      subst hdisplay
      refine ⟨hg, fun hrow hcol cells hcells glyphRow glyphCol k hr hc hk _ => ?_,
        fun offset hoffset => ?_⟩
      · have hzero : cells = fun _ => 0#16 := by
          cases shadow with
          | false => cases hcells
          | true => exact (Option.some.inj hcells).symm
        obtain ⟨hx, hy⟩ := hg.dot_lt hrow hcol hr hc
        have hlimit := hg.pixel_le hx hy
        rw [hzero, dotColor_zero]
        refine (if_pos (Nat.lt_of_lt_of_le (Nat.add_lt_add_left hk _) hlimit)).trans ?_
        simp [pixelByte]
      · have hmem : offset ∈ List.range (info.pitchBytes * info.height) ++ [] := hoffset
        rw [List.append_nil] at hmem
        exact List.mem_range.mp hmem

/-- After every call of every run, each cell area holds the bytes that drawing all cells of that
call would put there, and nothing was stored behind the last scan line. -/
theorem incremental_drawing_is_full_drawing (font8x16 : BitVec 8 → Nat → BitVec 8)
    {info : BootFramebufferInfo} {fb : Nat → BitVec 8} {display : FramebufferTextDisplay}
    (hinit : initializeFramebufferTextDisplay info ⟨fb, []⟩ = some display)
    (hpitch : info.width * (info.bitsPerPixel / 8) ≤ info.pitchBytes) (shadow : Bool)
    (calls : List Call) (call : Call) (scratch : Nat → BitVec 8) :
    let start := display.withShadow shadow
    let shown := (calls ++ [call]).foldl (presentFramebufferText font8x16) start
    let reference := drawAll font8x16 (start.midCall ⟨scratch, []⟩ none) call
    (∀ row col glyphRow glyphCol k, row < start.rows → col < start.columns → glyphRow < 16 →
      glyphCol < 8 → k < start.bytesPerPixel →
      shown.framebuffer.byte (start.dotOffset row col glyphRow glyphCol + k) =
        reference.framebuffer.byte (start.dotOffset row col glyphRow glyphCol + k)) ∧
      ∀ offset ∈ shown.framebuffer.stores, offset < start.pitchBytes * start.height := by
  intro start shown reference
  have hagrees : Agrees font8x16 start := initialize_agrees hinit hpitch shadow
  have hscratch : Agrees font8x16 (start.midCall ⟨scratch, []⟩ none) := by
    obtain ⟨⟨havailable, hdepth, hbytes, hcolumns, hrows⟩, -, -⟩ := hagrees
    exact ⟨⟨havailable, hdepth, hbytes, hcolumns, hrows⟩, fun _ _ _ hcells => (by cases hcells),
      fun _ hoffset => absurd hoffset List.not_mem_nil⟩
  obtain ⟨hrun, fb', shadow', x, y, valid, hplaces⟩ := hagrees.run calls
  have hshown : shown = presentFramebufferText font8x16
      (calls.foldl (presentFramebufferText font8x16) start) call := by
    simp [shown, List.foldl_append]
  rw [hplaces] at hrun hshown
  obtain ⟨hend, ⟨_, _, _, _, _, hplaces'⟩, hshows⟩ := hrun.present call
  rw [← hshown] at hend hplaces' hshows
  refine ⟨fun row col r c k hrow hcol hr hc hk => ?_, ?_⟩
  · exact (hshows row col hrow hcol r c k hr hc hk trivial).trans
      (drawAll_shows hscratch rfl call hrow hcol r c k hr hc hk trivial).symm
  · have hlimit : shown.limit = start.limit := by
      rw [hplaces']
      rfl
    have hbounded := hend.bounded
    rw [hlimit] at hbounded
    exact hbounded

/-- A screen of two by one cells, presented twice. -/
theorem two_cell_display_is_full_drawing :
    let info : BootFramebufferInfo := ⟨0xFD000000, 16, 16, 64, 32, .rgb⟩
    let call : Call := ⟨fun _ => 0x0741#16, 2, 1, 1, 0⟩
    ∃ display, initializeFramebufferTextDisplay info ⟨fun _ => 0xFF#8, []⟩ = some display ∧
      let start := display.withShadow true
      let shown := ([call] ++ [call]).foldl (presentFramebufferText fun _ _ => 0x55#8) start
      let reference := drawAll (fun _ _ => 0x55#8) (start.midCall ⟨fun _ => 1#8, []⟩ none) call
      (∀ row col glyphRow glyphCol k, row < start.rows → col < start.columns → glyphRow < 16 →
        glyphCol < 8 → k < start.bytesPerPixel →
        shown.framebuffer.byte (start.dotOffset row col glyphRow glyphCol + k) =
          reference.framebuffer.byte (start.dotOffset row col glyphRow glyphCol + k)) ∧
        ∀ offset ∈ shown.framebuffer.stores, offset < start.pitchBytes * start.height :=
  ⟨_, rfl, @incremental_drawing_is_full_drawing _ ⟨0xFD000000, 16, 16, 64, 32, .rgb⟩
    (fun _ => 0xFF#8) _ rfl (by decide) true _ _ _⟩

end FramebufferTextDisplay
end Os1.Display
