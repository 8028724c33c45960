import Mathlib.Tactic.Ring

/-! Text cells drawn into a framebuffer. The font is any table of glyph rows. -/
namespace Os1.Display

def kFramebufferCellWidth : Nat := 8
def kFramebufferCellHeight : Nat := 16
def kFramebufferBackground : BitVec 32 := 0#32
def kVgaBlankCell : BitVec 16 := 0x0720#16

def kVgaPalette : List (BitVec 32) :=
  [0x000000#32, 0x0000AA#32, 0x00AA00#32, 0x00AAAA#32, 0xAA0000#32, 0xAA00AA#32, 0xAA5500#32,
    0xAAAAAA#32, 0x555555#32, 0x5555FF#32, 0x55FF55#32, 0x55FFFF#32, 0xFF5555#32, 0xFF55FF#32,
    0xFFFF55#32, 0xFFFFFF#32]

def vgaColor (index : BitVec 8) : BitVec 32 := kVgaPalette.getD (index &&& 0x0F#8).toNat 0#32

/-- `char` is signed. -/
def isPrintableAscii (c : BitVec 8) : Bool := (0x20#8).sle c

/-- The bytes from the framebuffer's base on, and the offsets of those that were stored. -/
structure Framebuffer where
  byte : Nat → BitVec 8
  stores : List Nat := []

namespace Framebuffer

def store (fb : Framebuffer) (offset : Nat) (value : BitVec 8) : Framebuffer where
  byte := Function.update fb.byte offset value
  stores := offset :: fb.stores

def memset (fb : Framebuffer) (value : BitVec 8) (length : Nat) : Framebuffer where
  byte i := if i < length then value else fb.byte i
  stores := List.range length ++ fb.stores

/-- Byte `k` of a pixel. -/
def pixelByte (rgb : BitVec 32) (k : Nat) : BitVec 8 := (rgb >>> (8 * k)).setWidth 8

/-- The first `n` bytes of a pixel. -/
def storeBytes (fb : Framebuffer) (pixel : Nat) (rgb : BitVec 32) : Nat → Framebuffer
  | 0 => fb
  | n + 1 => (fb.storeBytes pixel rgb n).store (pixel + n) (pixelByte rgb n)

end Framebuffer

inductive BootFramebufferPixelFormat where
  | unknown
  | rgb
  | bgr
  deriving DecidableEq, Repr

structure BootFramebufferInfo where
  physicalAddress : Nat
  width : Nat
  height : Nat
  pitchBytes : Nat
  bitsPerPixel : Nat
  pixelFormat : BootFramebufferPixelFormat

structure FramebufferTextDisplay where
  available : Bool := false
  framebuffer : Framebuffer
  width : Nat
  height : Nat
  pitchBytes : Nat
  bitsPerPixel : Nat
  columns : Nat := 0
  rows : Nat := 0
  shadowBuffer : Option (Nat → BitVec 16) := none
  lastCursorX : Nat := 0
  lastCursorY : Nat := 0
  cursorValid : Bool := false

namespace FramebufferTextDisplay

def bytesPerPixel (display : FramebufferTextDisplay) : Nat := display.bitsPerPixel / 8

def pixelOffset (display : FramebufferTextDisplay) (x y : Nat) : Nat :=
  y * display.pitchBytes + x * display.bytesPerPixel

def storePixel (display : FramebufferTextDisplay) (x y : Nat) (rgb : BitVec 32) :
    FramebufferTextDisplay :=
  { display with
    framebuffer := display.framebuffer.storeBytes (display.pixelOffset x y) rgb
      (if display.bitsPerPixel = 24 then 3 else 4) }

def framebufferClear (display : FramebufferTextDisplay) (rgb : BitVec 32) :
    FramebufferTextDisplay :=
  if !display.available then display
  else if rgb = 0#32 then
    { display with
      framebuffer := display.framebuffer.memset 0#8 (display.pitchBytes * display.height) }
  else
    (List.range display.height).foldl (fun display y =>
      (List.range display.width).foldl (fun display x => display.storePixel x y rgb) display)
      display

def framebufferSetPixel (display : FramebufferTextDisplay) (x y : Nat) (rgb : BitVec 32) :
    FramebufferTextDisplay :=
  if !display.available || x ≥ display.width || y ≥ display.height then display
  else display.storePixel x y rgb

variable (font8x16 : BitVec 8 → Nat → BitVec 8)

/-- The colour of one dot of a cell. -/
def dotColor (cell : BitVec 16) (inverse : Bool) (glyphRow glyphCol : Nat) : BitVec 32 :=
  let character := cell.setWidth 8
  let glyphIndex := if isPrintableAscii character then character else 0x20#8
  let attributes : BitVec 8 := (cell >>> 8).setWidth 8
  let low := vgaColor (attributes &&& 0x0F#8)
  let high := vgaColor (attributes >>> 4 &&& 0x0F#8)
  let fg := if inverse then high else low
  let bg := if inverse then low else high
  if (font8x16 glyphIndex glyphRow >>> glyphCol) &&& 1#8 ≠ 0#8 then fg else bg

def framebufferDrawCell (display : FramebufferTextDisplay) (cellX cellY : Nat) (cell : BitVec 16)
    (inverse : Bool) : FramebufferTextDisplay :=
  (List.range 16).foldl (fun display glyphRow =>
    (List.range 8).foldl (fun display glyphCol =>
      display.framebufferSetPixel (cellX + glyphCol) (cellY + glyphRow)
        (dotColor font8x16 cell inverse glyphRow glyphCol)) display) display

/-- The arguments of one `present_framebuffer_text`. -/
structure Call where
  buffer : Nat → BitVec 16
  columns : Nat
  rows : Nat
  cursorX : Nat
  cursorY : Nat

def visibleColumns (display : FramebufferTextDisplay) (call : Call) : Nat :=
  if call.columns < display.columns then call.columns else display.columns

def visibleRows (display : FramebufferTextDisplay) (call : Call) : Nat :=
  if call.rows < display.rows then call.rows else display.rows

/-- The cell of the call at a place of the screen. -/
def wantedCell (display : FramebufferTextDisplay) (call : Call) (row col : Nat) : BitVec 16 :=
  if row < display.visibleRows call ∧ col < display.visibleColumns call then
    call.buffer (row * call.columns + col)
  else kVgaBlankCell

def isCursor (display : FramebufferTextDisplay) (call : Call) (row col : Nat) : Bool :=
  call.cursorX = col && call.cursorY = row && col < display.visibleColumns call &&
    row < display.visibleRows call

def wasCursor (display : FramebufferTextDisplay) (row col : Nat) : Bool :=
  display.cursorValid && display.lastCursorX = col && display.lastCursorY = row

/-- `shadow_buffer[shadow_index] != cell`, and true without a shadow. -/
def shadowChanged (display : FramebufferTextDisplay) (index : Nat) (cell : BitVec 16) : Bool :=
  match display.shadowBuffer with
  | none => true
  | some shadow => shadow index ≠ cell

def cellsMatch (left right : Nat → BitVec 16) (count : Nat) : Bool :=
  (List.range count).all fun index => left index = right index

/-- The row is left as it is. -/
def rowUnchanged (display : FramebufferTextDisplay) (call : Call) (row : Nat) : Bool :=
  let geometryMatch := display.visibleColumns call = display.columns &&
    display.visibleRows call = display.rows
  let redrawOldCursorRow := display.cursorValid && display.lastCursorY = row
  let redrawNewCursorRow := call.cursorY = row && call.cursorX < display.visibleColumns call
  geometryMatch && !redrawOldCursorRow && !redrawNewCursorRow &&
    match display.shadowBuffer with
    | none => false
    | some shadow =>
      cellsMatch (fun i => shadow (row * display.columns + i))
        (fun i => call.buffer (row * call.columns + i)) (display.visibleColumns call)

def presentCell (call : Call) (row : Nat) (display : FramebufferTextDisplay) (col : Nat) :
    FramebufferTextDisplay :=
  let cell := display.wantedCell call row col
  let isCursor := display.isCursor call row col
  let shadowIndex := row * display.columns + col
  if !display.shadowChanged shadowIndex cell && !display.wasCursor row col && !isCursor then display
  else
    let display := framebufferDrawCell font8x16 display (col * kFramebufferCellWidth)
      (row * kFramebufferCellHeight) cell isCursor
    { display with
      shadowBuffer := display.shadowBuffer.map fun shadow =>
        Function.update shadow shadowIndex cell }

def presentRow (call : Call) (display : FramebufferTextDisplay) (row : Nat) :
    FramebufferTextDisplay :=
  if display.rowUnchanged call row then display
  else (List.range display.columns).foldl (presentCell font8x16 call row) display

def presentFramebufferText (display : FramebufferTextDisplay) (call : Call) :
    FramebufferTextDisplay :=
  if !display.available then display
  else
    let display := (List.range display.rows).foldl (presentRow font8x16 call) display
    { display with
      lastCursorX := call.cursorX
      lastCursorY := call.cursorY
      cursorValid := call.cursorX < display.visibleColumns call &&
        call.cursorY < display.visibleRows call }

/-- `none` when the framebuffer cannot be used; the shadow buffer is set up by the caller. -/
def initializeFramebufferTextDisplay (info : BootFramebufferInfo) (framebuffer : Framebuffer) :
    Option FramebufferTextDisplay :=
  if info.physicalAddress = 0 ∨ info.width = 0 ∨ info.height = 0 ∨ info.pitchBytes = 0 then none
  else if info.pixelFormat ≠ .rgb ∧ info.pixelFormat ≠ .bgr then none
  else if info.bitsPerPixel ≠ 24 ∧ info.bitsPerPixel ≠ 32 then none
  else
    let columns := info.width / kFramebufferCellWidth % 2 ^ 16
    let rows := info.height / kFramebufferCellHeight % 2 ^ 16
    if columns = 0 ∨ rows = 0 then none
    else
      some (framebufferClear
        { available := true
          framebuffer
          width := info.width
          height := info.height
          pitchBytes := info.pitchBytes
          bitsPerPixel := info.bitsPerPixel
          columns
          rows } kFramebufferBackground)

end FramebufferTextDisplay
end Os1.Display
