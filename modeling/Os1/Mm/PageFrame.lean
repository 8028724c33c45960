import Os1.Handoff.MemoryLayout
import Os1.Lib.Bitmap

/-!
# Physical page-frame allocator

The bitmap storage is the run of 64-bit words at the bitmap address; words past
`bitmapSize` are ordinary memory that the allocator never reads.
-/

namespace Os1

inductive BootMemoryType
  | usable | reserved | acpiReclaimable | acpiNvs | badMemory | mmio | framebuffer
  | kernelImage | bootloaderReclaimable
  deriving DecidableEq, Repr

structure BootMemoryRegion where
  physicalStart : Nat
  length : Nat
  type : BootMemoryType
  deriving DecidableEq, Repr

def bootMemoryRegionIsUsable (region : BootMemoryRegion) : Bool :=
  region.type = .usable

structure PageFrameContainer where
  memorySize : Nat := 0
  memoryEndAddress : Nat := 0
  pageCount : Nat := 0
  freePageCount : Nat := 0
  bitmap : Bitmap.Words
  bitmapPhysicalAddress : Nat := 0
  bitmapSize : Nat := 0
  bitmapLimit : Nat := 0
  initialized : Bool := false

namespace PageFrameContainer

def setFree (s : PageFrameContainer) (ipage : Nat) : PageFrameContainer :=
  { s with bitmap := Bitmap.set s.bitmap ipage }

def setBusy (s : PageFrameContainer) (ipage : Nat) : PageFrameContainer :=
  { s with bitmap := Bitmap.clear s.bitmap ipage }

def isFree (s : PageFrameContainer) (ipage : Nat) : Bool :=
  s.bitmap (ipage / 64) &&& Bitmap.mask ipage != 0#64

/-- `if(free_page_count_ > 0) --free_page_count_;` -/
def dropFreePage (s : PageFrameContainer) : PageFrameContainer :=
  if s.freePageCount > 0 then { s with freePageCount := s.freePageCount - 1 } else s

/-! ## Initialisation -/

def alignUpPage (value : Nat) : Nat := alignUp value kPageSize
def alignDownPage (value : Nat) : Nat := alignDown value kPageSize

/-- The first pass over the memory map adds one region to the size and end totals. -/
def measureRegion (maxTrackableEnd : Nat) (s : PageFrameContainer) (b : BootMemoryRegion) :
    PageFrameContainer :=
  if bootMemoryRegionIsUsable b then
    let clippedStart := alignUpPage b.physicalStart
    let regionEnd := u64 (b.physicalStart + b.length)
    let clippedEnd := alignDownPage regionEnd
    let clippedEnd := if clippedEnd > maxTrackableEnd then maxTrackableEnd else clippedEnd
    if clippedEnd ≤ clippedStart then s
    else
      { s with
        memorySize := u64 (s.memorySize + (clippedEnd - clippedStart))
        memoryEndAddress :=
          if s.memoryEndAddress < clippedEnd then clippedEnd else s.memoryEndAddress }
  else s

def allOnes64 : BitVec 64 := 0xFFFFFFFFFFFFFFFF#64

/-- Set the words of `[first, last)` to all ones, as `memsetq` does. -/
def memsetOnes (bitmap : Bitmap.Words) (first last : Nat) : Bitmap.Words :=
  fun w => if first ≤ w ∧ w < last then allOnes64 else bitmap w

/-- Set the bits of `[startPage, endPage)` with word masks and one `memsetq` span. -/
def paintPages (bitmap : Bitmap.Words) (startPage endPage : Nat) : Bitmap.Words :=
  let ifirst := startPage / 64
  let ilast := (endPage - 1) / 64
  if ifirst = ilast then
    let firstBit := startPage % 64
    let lastBit := (endPage - 1) % 64
    let bitCount := lastBit - firstBit + 1
    let mask := if bitCount = 64 then allOnes64 else ((1#64 <<< bitCount) - 1#64) <<< firstBit
    Bitmap.orWord bitmap ifirst mask
  else
    let bitmap := Bitmap.orWord bitmap ifirst (allOnes64 <<< (startPage % 64))
    let bitmap := if ifirst + 1 < ilast then memsetOnes bitmap (ifirst + 1) ilast else bitmap
    let lastBits := endPage % 64
    Bitmap.orWord bitmap ilast
      (if lastBits = 0 then allOnes64 else allOnes64 >>> (64 - lastBits))

/-- The second pass over the memory map frees the pages of one region. -/
def paintRegion (s : PageFrameContainer) (b : BootMemoryRegion) : PageFrameContainer :=
  if bootMemoryRegionIsUsable b then
    let start := alignUpPage b.physicalStart
    let regionEnd := u64 (b.physicalStart + b.length)
    let stop := alignDownPage regionEnd
    let stop := if stop > s.memoryEndAddress then s.memoryEndAddress else stop
    let startPage := start >>> 12
    let endPage := stop >>> 12
    if endPage ≤ startPage then s
    else { s with bitmap := paintPages s.bitmap startPage endPage }
  else s

/-- The inner loop of the counting pass: `(ipage, num_pages)` after at most `bitCount` bits. -/
def countWord (pageCount : Nat) : Nat → BitVec 64 → Nat → Nat → Nat × Nat
  | 0, _, ipage, numPages => (ipage, numPages)
  | bitCount + 1, val, ipage, numPages =>
    if ipage < pageCount then
      countWord pageCount bitCount (val >>> 1) (ipage + 1)
        (if val &&& 1#64 != 0#64 then numPages + 1 else numPages)
    else (ipage, numPages)

/-- The counting pass. Its page index only advances in words with a free page. -/
def countFreePages (pageCount : Nat) (bitmap : Bitmap.Words) :
    (remaining word ipage numPages : Nat) → Nat
  | 0, _, _, numPages => numPages
  | remaining + 1, word, ipage, numPages =>
    if bitmap word != 0#64 then
      let (ipage, numPages) := countWord pageCount 64 (bitmap word) ipage numPages
      countFreePages pageCount bitmap remaining (word + 1) ipage numPages
    else countFreePages pageCount bitmap remaining (word + 1) ipage numPages

def markBusyCounted (s : PageFrameContainer) (ipage : Nat) : PageFrameContainer :=
  if ipage < s.pageCount ∧ s.isFree ipage then (s.setBusy ipage).dropFreePage else s

/-- The number of turns of `for(vp = start; vp < stop; vp += kPageSize)`. -/
def pageTurns (start stop : Nat) : Nat := (stop - start + kPageSize - 1) / kPageSize

/-- The loop ends unless its 64-bit variable wraps before it reaches `stop`. -/
def pageLoopEnds (start stop : Nat) : Bool :=
  stop ≤ start || start + pageTurns start stop * kPageSize < 2 ^ 64

/-- `for(vp = start; vp < stop; vp += kPageSize) mark_busy_counted(vp >> 12);` -/
def markBusyRange (s : PageFrameContainer) (start stop : Nat) : PageFrameContainer :=
  (List.range (pageTurns start stop)).foldl
    (fun s k => s.markBusyCounted ((start + k * kPageSize) >>> 12)) s

/-- Size the bitmap for the tracked memory. -/
def sizeBitmap (s : PageFrameContainer) : PageFrameContainer :=
  let pageCount := s.memoryEndAddress >>> 12
  { s with pageCount := pageCount, bitmapSize := ((pageCount + 7) / 8 + 7) / 8 }

/-- Zero the bitmap, paint the usable regions, and count the free pages. -/
def paintBitmap (s : PageFrameContainer) (memoryRegions : List BootMemoryRegion) :
    PageFrameContainer :=
  let s := { s with bitmap := fun w => if w < s.bitmapSize then 0#64 else s.bitmap w }
  let s := memoryRegions.foldl paintRegion s
  { s with freePageCount := countFreePages s.pageCount s.bitmap s.bitmapSize 0 0 0 }

def bitmapEnd (s : PageFrameContainer) : Nat :=
  u64 (s.bitmapPhysicalAddress + u64 (s.bitmapLimit * 8))

/-- Mark the bitmap's own pages, the early low range and the kernel window busy. -/
def reserveBootPages (s : PageFrameContainer) : PageFrameContainer :=
  let s := s.markBusyRange s.bitmapPhysicalAddress s.bitmapEnd
  let s := s.markBusyRange 0 kEarlyReservedPhysicalEnd
  s.markBusyRange kKernelReservedPhysicalStart kKernelReservedPhysicalEnd

/-- `none` when the loop over the bitmap's own pages never ends. -/
def initializeFrames (s : PageFrameContainer) (memoryRegions : List BootMemoryRegion)
    (bitmapAddress bitmapLimit : Nat) : Option (Bool × PageFrameContainer) :=
  if s.initialized then some (false, s)
  else
    let s := { s with
      memorySize := 0
      memoryEndAddress := 0
      bitmapPhysicalAddress := bitmapAddress
      bitmapLimit := bitmapLimit }
    let maxTrackablePages := u64 (bitmapLimit * 64)
    let maxTrackableEnd := u64 (maxTrackablePages * kPageSize)
    let s := memoryRegions.foldl (measureRegion maxTrackableEnd) s
    if s.memorySize > 0 ∧ s.memoryEndAddress > 0 then
      let s := s.sizeBitmap
      if s.bitmapSize ≤ s.bitmapLimit then
        let s := s.paintBitmap memoryRegions
        if pageLoopEnds s.bitmapPhysicalAddress s.bitmapEnd then
          some (true, { s.reserveBootPages with initialized := true })
        else none
      else some (false, s)
    else some (false, s)

/-! ## Allocation -/

/-- `while(val)`: the page of the lowest set bit of a word. -/
def firstFreeInWord : Nat → BitVec 64 → Nat → Option Nat
  | 0, _, _ => none
  | fuel + 1, val, ipage =>
    if val = 0#64 then none
    else if val &&& 1#64 != 0#64 then some ipage
    else firstFreeInWord fuel (val >>> 1) (ipage + 1)

/-- The word scan of the single-page allocation. A word has 64 bits, so the inner
loop takes at most 64 turns. -/
def firstFreePage (bitmap : Bitmap.Words) : (remaining word : Nat) → Option Nat
  | 0, _ => none
  | remaining + 1, word =>
    if bitmap word != 0#64 then
      match firstFreeInWord 64 (bitmap word) (word * 64) with
      | some ipage => some ipage
      | none => firstFreePage bitmap remaining (word + 1)
    else firstFreePage bitmap remaining (word + 1)

/-- Allocate one page; the result holds its physical address. -/
def allocate (s : PageFrameContainer) : Option (Nat × PageFrameContainer) :=
  if s.initialized then
    match firstFreePage s.bitmap s.bitmapSize 0 with
    | some ipage => some (ipage <<< 12, (s.setBusy ipage).dropFreePage)
    | none => none
  else none

/-- The page scan of the block allocation: `(run_start, i)` of the first full run. -/
def findRun (s : PageFrameContainer) (count : Nat) :
    (remaining i runStart : Nat) → Option (Nat × Nat)
  | 0, _, _ => none
  | remaining + 1, i, runStart =>
    if s.isFree i then
      let runStart := if runStart = s.pageCount then i else runStart
      if i - runStart + 1 = count then some (runStart, i)
      else findRun s count remaining (i + 1) runStart
    else findRun s count remaining (i + 1) s.pageCount

/-- Mark `[start, start + n)` busy, one page a turn. -/
def setBusyRange (s : PageFrameContainer) (start n : Nat) : PageFrameContainer :=
  (List.range n).foldl (fun s k => s.setBusy (start + k)) s

/-- Allocate `count` contiguous pages; the result holds the base address. -/
def allocateRun (s : PageFrameContainer) (count : Nat) : Option (Nat × PageFrameContainer) :=
  if !s.initialized || count = 0 then none
  else
    match findRun s count s.pageCount 0 s.pageCount with
    | some (runStart, i) =>
      let s := s.setBusyRange runStart (i - runStart + 1)
      let s := if s.freePageCount ≥ count then { s with freePageCount := s.freePageCount - count }
        else s
      some (runStart <<< 12, s)
    | none => none

def free (s : PageFrameContainer) (address : Nat) : Bool × PageFrameContainer :=
  if !s.initialized then (false, s)
  else if address % kPageSize ≠ 0 then (false, s)
  else
    let ipage := address >>> 12
    if ipage < s.pageCount then
      if s.bitmap (ipage / 64) &&& Bitmap.mask ipage = 0#64 then
        (true, { s.setFree ipage with freePageCount := u64 (s.freePageCount + 1) })
      else (false, s)
    else (false, s)

/-- The page loop of the reservation, which stops at the first untracked page. -/
def reservePages (s : PageFrameContainer) : (remaining ipage : Nat) → Bool × PageFrameContainer
  | 0, _ => (true, s)
  | remaining + 1, ipage =>
    if ipage ≥ s.pageCount then (false, s)
    else if s.isFree ipage then reservePages (s.setBusy ipage).dropFreePage remaining (ipage + 1)
    else reservePages s remaining (ipage + 1)

def reserveRange (s : PageFrameContainer) (address length : Nat) : Bool × PageFrameContainer :=
  if !s.initialized || length = 0 then (false, s)
  else
    let startPage := address >>> 12
    let endPage := u64 (address + length + kPageSize - 1) >>> 12
    if endPage ≤ startPage then (true, s)
    else s.reservePages (endPage - startPage) startPage

end PageFrameContainer
end Os1
