import Os1.Mm.PageFrame
import Mathlib.Tactic.NormNum

/-! What initialisation leaves in the bitmap and the counter. -/
namespace Os1.PageFrameContainer

open Bitmap

variable {s : PageFrameContainer} {limit p q n : Nat}

theorem isFree_eq_bit (s : PageFrameContainer) (p : Nat) : s.isFree p = bit s.bitmap p :=
  and_mask_ne_zero s.bitmap p

/-! ## Painting -/

theorem getLsbD_allOnes64 (k : Nat) : allOnes64.getLsbD k = decide (k < 64) := by
  have h : allOnes64 = BitVec.allOnes 64 := by decide
  rw [h, BitVec.getLsbD_allOnes]

theorem getLsbD_ones_shiftLeft (a k : Nat) :
    (allOnes64 <<< a).getLsbD k = (decide (k < 64) && decide (a ≤ k)) := by
  rw [BitVec.getLsbD_shiftLeft, getLsbD_allOnes64]
  by_cases hk : k < 64
  · by_cases ha : a ≤ k
    · simp [hk, ha, show k - a < 64 by omega]
    · simp [ha, show k < a by omega]
  · simp [hk]

theorem getLsbD_ones_ushiftRight {l : Nat} (hl : l ≤ 64) (k : Nat) :
    (allOnes64 >>> (64 - l)).getLsbD k = decide (k < l) := by
  rw [BitVec.getLsbD_ushiftRight, getLsbD_allOnes64]
  simp only [decide_eq_decide]
  omega

theorem getLsbD_run_mask {c f : Nat} (hc : c < 64) (k : Nat) :
    (((1#64 <<< c) - 1#64) <<< f).getLsbD k =
      (decide (k < 64) && decide (f ≤ k) && decide (k < f + c)) := by
  have hone : (1#64 <<< c) - 1#64 = BitVec.ofNat 64 (2 ^ c - 1) := by
    rw [← twoPow_sub_one c hc]
    congr 1
    apply BitVec.eq_of_toNat_eq
    simp [Nat.shiftLeft_eq]
  rw [hone, BitVec.getLsbD_shiftLeft, BitVec.getLsbD_ofNat, Nat.testBit_two_pow_sub_one]
  by_cases hk : k < 64
  · by_cases hf : f ≤ k
    · simp [hk, hf, show ¬ k < f by omega, show k - f < 64 by omega,
        show (k - f < c) = (k < f + c) by rw [eq_iff_iff]; omega]
    · simp [hf, show k < f by omega]
  · simp [hk]

theorem bit_orWord (b : Words) (w : Nat) (m : BitVec 64) (i : Nat) :
    bit (orWord b w m) i = (bit b i || (decide (i / 64 = w) && m.getLsbD (i % 64))) := by
  unfold bit orWord
  by_cases h : i / 64 = w <;> simp [h]

theorem bit_memsetOnes (b : Words) (first last i : Nat) :
    bit (memsetOnes b first last) i =
      (bit b i || decide (first ≤ i / 64 ∧ i / 64 < last)) := by
  unfold bit memsetOnes
  by_cases h : first ≤ i / 64 ∧ i / 64 < last
  · simp [h, getLsbD_allOnes64, Nat.mod_lt]
  · simp [h]

/-- The word masks and the `memsetq` span set exactly the bits of the page range. -/
theorem bit_paintPages (b : Words) {startPage endPage : Nat} (h : startPage < endPage) (i : Nat) :
    bit (paintPages b startPage endPage) i =
      (bit b i || decide (startPage ≤ i ∧ i < endPage)) := by
  have hi : i % 64 < 64 := Nat.mod_lt _ (by decide)
  unfold paintPages
  by_cases hw : startPage / 64 = (endPage - 1) / 64
  · simp only [hw, if_true, bit_orWord]
    congr 1
    by_cases hc : (endPage - 1) % 64 - startPage % 64 + 1 = 64
    · rw [if_pos hc, getLsbD_allOnes64, ← Bool.decide_and, decide_eq_decide]
      omega
    · rw [if_neg hc, getLsbD_run_mask (by omega), ← Bool.decide_and, ← Bool.decide_and,
        ← Bool.decide_and, decide_eq_decide]
      omega
  · simp only [hw, if_false]
    have hlast : (if endPage % 64 = 0 then allOnes64 else allOnes64 >>> (64 - endPage % 64)).getLsbD
        (i % 64) = decide (endPage % 64 = 0 ∨ i % 64 < endPage % 64) := by
      by_cases he : endPage % 64 = 0
      · simp [he, getLsbD_allOnes64, hi]
      · rw [if_neg he, getLsbD_ones_ushiftRight (by omega)]
        simp [he]
    -- The span is absent exactly when the two boundary words are adjacent.
    have hspan : bit (if startPage / 64 + 1 < (endPage - 1) / 64 then
          memsetOnes (orWord b (startPage / 64) (allOnes64 <<< (startPage % 64)))
            (startPage / 64 + 1) ((endPage - 1) / 64)
        else orWord b (startPage / 64) (allOnes64 <<< (startPage % 64))) i =
        (bit b i || decide (i / 64 = startPage / 64 ∧ startPage % 64 ≤ i % 64) ||
          decide (startPage / 64 + 1 ≤ i / 64 ∧ i / 64 < (endPage - 1) / 64)) := by
      split
      · rw [bit_memsetOnes, bit_orWord, getLsbD_ones_shiftLeft]
        simp [hi]
      · rename_i hn
        rw [bit_orWord, getLsbD_ones_shiftLeft]
        simp [hi]
        intro h1 h2
        omega
    rw [bit_orWord, hspan, hlast, Bool.or_assoc, Bool.or_assoc]
    congr 1
    rw [← Bool.decide_and, ← Bool.decide_or, ← Bool.decide_or, decide_eq_decide]
    omega

/-- The pages that the second pass frees for one region. -/
def Covers (memoryEnd : Nat) (b : BootMemoryRegion) (p : Nat) : Prop :=
  bootMemoryRegionIsUsable b = true ∧ alignUpPage b.physicalStart >>> 12 ≤ p ∧
    p < min (alignDownPage (u64 (b.physicalStart + b.length))) memoryEnd >>> 12

theorem bit_paintRegion (s : PageFrameContainer) (b : BootMemoryRegion) (p : Nat) :
    bit (s.paintRegion b).bitmap p = true ↔
      bit s.bitmap p = true ∨ Covers s.memoryEndAddress b p := by
  have hmin : ∀ x y : Nat, (if x > y then y else x) = min x y := by
    intro x y
    split <;> omega
  unfold paintRegion Covers
  by_cases hu : bootMemoryRegionIsUsable b = true
  · simp only [hu, if_true, hmin, true_and]
    split
    · constructor
      · exact Or.inl
      · rintro (h | h)
        · exact h
        · omega
    · rw [bit_paintPages _ (by omega)]
      simp
  · simp [hu]

/-- Painting a region skips it or frees a run of pages below the memory end. -/
theorem paintRegion_cases (s : PageFrameContainer) (b : BootMemoryRegion) :
    s.paintRegion b = s ∨ ∃ startPage endPage, startPage < endPage ∧
      endPage ≤ s.memoryEndAddress >>> 12 ∧
      s.paintRegion b = { s with bitmap := paintPages s.bitmap startPage endPage } := by
  unfold paintRegion
  simp only
  have hstop : (if alignDownPage (u64 (b.physicalStart + b.length)) > s.memoryEndAddress then
      s.memoryEndAddress else alignDownPage (u64 (b.physicalStart + b.length))) ≤
      s.memoryEndAddress := by
    split <;> omega
  generalize (if alignDownPage (u64 (b.physicalStart + b.length)) > s.memoryEndAddress then
      s.memoryEndAddress else alignDownPage (u64 (b.physicalStart + b.length))) = stop at hstop
  split
  · split
    · exact Or.inl rfl
    · refine Or.inr ⟨_, _, Nat.lt_of_not_le ‹_›, ?_, rfl⟩
      rw [Nat.shiftRight_eq_div_pow, Nat.shiftRight_eq_div_pow]
      exact Nat.div_le_div_right hstop
  · exact Or.inl rfl

/-- Painting only writes the bitmap. -/
theorem foldl_paintRegion (regions : List BootMemoryRegion) (s : PageFrameContainer) :
    ∃ bitmap, regions.foldl paintRegion s = { s with bitmap := bitmap } ∧
      ∀ p, bit bitmap p = true ↔
        bit s.bitmap p = true ∨ ∃ b ∈ regions, Covers s.memoryEndAddress b p := by
  induction regions generalizing s with
  | nil => exact ⟨s.bitmap, rfl, fun p => by simp⟩
  | cons b regions ih =>
    obtain ⟨bitmap, he, hb⟩ := ih (s.paintRegion b)
    have hstep : ∃ c, s.paintRegion b = { s with bitmap := c } := by
      rcases paintRegion_cases s b with hs | ⟨_, _, -, -, hs⟩
      · exact ⟨s.bitmap, hs⟩
      · exact ⟨_, hs⟩
    obtain ⟨c, hc⟩ := hstep
    refine ⟨bitmap, ?_, ?_⟩
    · rw [List.foldl_cons, he, hc]
    · intro p
      have hmem : (s.paintRegion b).memoryEndAddress = s.memoryEndAddress := by rw [hc]
      rw [hb, bit_paintRegion, hmem]
      simp only [List.mem_cons, exists_eq_or_imp]
      exact or_assoc

/-! ## Counting -/

theorem and_one_ne_zero (v : BitVec 64) : (v &&& 1#64 != 0#64) = v.getLsbD 0 := by
  have h := and_mask_ne_zero (fun _ => v) 0
  simpa [mask, bit] using h

/-- The page index of the counting pass lags behind the real page `base`, so it never
stops the pass before the last set bit. -/
theorem countWord_spec (pageCount k : Nat) (v : BitVec 64) (ipage numPages base : Nat)
    (hlag : ipage ≤ base) (hclear : ∀ j, pageCount ≤ base + j → v.getLsbD j = false) :
    (countWord pageCount k v ipage numPages).1 ≤ base + k ∧
      (countWord pageCount k v ipage numPages).2 =
        numPages + Nat.count (fun j => v.getLsbD j = true) k := by
  induction k generalizing v ipage numPages base with
  | zero => simpa [countWord] using hlag
  | succ k ih =>
    unfold countWord
    by_cases hp : ipage < pageCount
    · rw [if_pos hp]
      have hc : ∀ j, pageCount ≤ base + 1 + j → (v >>> 1).getLsbD j = false := by
        intro j hj
        rw [BitVec.getLsbD_ushiftRight]
        exact hclear (1 + j) (by omega)
      obtain ⟨h1, h2⟩ := ih (v >>> 1) (ipage + 1)
        (if v &&& 1#64 != 0#64 then numPages + 1 else numPages) (base + 1) (by omega) hc
      refine ⟨by omega, ?_⟩
      rw [h2, Nat.count_succ', and_one_ne_zero]
      simp only [BitVec.getLsbD_ushiftRight, Nat.add_comm 1]
      split <;> omega
    · rw [if_neg hp]
      have hz : Nat.count (fun j => v.getLsbD j = true) (k + 1) = 0 := by
        rw [Nat.count_iff_forall_not]
        intro j _
        simp [hclear j (by omega)]
      exact ⟨by omega, by simp [hz]⟩

theorem count_word (b : Words) (w k : Nat) (hk : k ≤ 64) :
    Bitmap.count b (w * 64 + k) =
      Bitmap.count b (w * 64) + Nat.count (fun j => (b w).getLsbD j = true) k := by
  induction k with
  | zero => simp
  | succ k ih =>
    rw [← Nat.add_assoc, count_succ, ih (by omega), Nat.count_succ]
    have hbit : bit b (w * 64 + k) = (b w).getLsbD k := by
      unfold bit
      rw [show (w * 64 + k) / 64 = w by omega, show (w * 64 + k) % 64 = k by omega]
    rw [hbit]
    omega

theorem countFreePages_spec (pageCount : Nat) (b : Words) (remaining w ipage numPages : Nat)
    (hlag : ipage ≤ w * 64)
    (hclear : ∀ p, pageCount ≤ p → p < (w + remaining) * 64 → bit b p = false)
    (hn : numPages = Bitmap.count b (w * 64)) :
    countFreePages pageCount b remaining w ipage numPages =
      Bitmap.count b ((w + remaining) * 64) := by
  induction remaining generalizing w ipage numPages with
  | zero => simpa [countFreePages] using hn
  | succ remaining ih =>
    have hword : ∀ j, pageCount ≤ w * 64 + j → (b w).getLsbD j = false := by
      intro j hj
      by_cases h64 : j < 64
      · have := hclear (w * 64 + j) hj (by rw [Nat.add_mul]; omega)
        unfold bit at this
        rwa [show (w * 64 + j) / 64 = w by omega, show (w * 64 + j) % 64 = j by omega] at this
      · exact BitVec.getLsbD_of_ge _ _ (by omega)
    have hc : ∀ p, pageCount ≤ p → p < (w + 1 + remaining) * 64 → bit b p = false :=
      fun p h1 h2 => hclear p h1 (by rwa [show w + (remaining + 1) = w + 1 + remaining by omega])
    have hnext := count_word b w 64 (le_refl _)
    rw [show w * 64 + 64 = (w + 1) * 64 by omega] at hnext
    unfold countFreePages
    rw [show w + (remaining + 1) = w + 1 + remaining by omega]
    split
    · obtain ⟨h1, h2⟩ := countWord_spec pageCount 64 (b w) ipage numPages (w * 64) hlag hword
      exact ih (w + 1) (countWord pageCount 64 (b w) ipage numPages).1
        (countWord pageCount 64 (b w) ipage numPages).2 (by omega) hc (by rw [h2, hn, hnext])
    · rename_i hz
      have hz : b w = 0#64 := by simpa using hz
      apply ih (w + 1) _ _ (by omega) hc
      rw [hn, hnext, hz]
      simp

/-! ## Counter and bitmap agree -/

/-- The allocator's bookkeeping for at most `limit` pages: the counter is the number of set
bits below the page count, and no bit of the bitmap's words at or above it is set. -/
structure TrackedTo (limit : Nat) (s : PageFrameContainer) : Prop where
  count : s.freePageCount = Bitmap.count s.bitmap s.pageCount
  clearAbove : ∀ p, s.pageCount ≤ p → p < s.bitmapSize * 64 → bit s.bitmap p = false
  fits : s.pageCount ≤ s.bitmapSize * 64
  bounded : s.pageCount ≤ limit

/-- The bookkeeping of a machine with 52-bit physical addresses. -/
abbrev Tracked (s : PageFrameContainer) : Prop := TrackedTo (2 ^ 40) s

/-- The state `t` differs from `s` only in the bitmap and the counter. -/
structure SameShape (s t : PageFrameContainer) : Prop where
  pageCount : t.pageCount = s.pageCount
  bitmapSize : t.bitmapSize = s.bitmapSize
  memoryEnd : t.memoryEndAddress = s.memoryEndAddress
  initialized : t.initialized = s.initialized

theorem SameShape.refl (s : PageFrameContainer) : SameShape s s := ⟨rfl, rfl, rfl, rfl⟩

theorem SameShape.trans {s t u : PageFrameContainer} (h : SameShape s t) (h' : SameShape t u) :
    SameShape s u :=
  ⟨h'.pageCount.trans h.pageCount, h'.bitmapSize.trans h.bitmapSize,
    h'.memoryEnd.trans h.memoryEnd, h'.initialized.trans h.initialized⟩

/-- Take one free page out of the bitmap and the counter. -/
def take (s : PageFrameContainer) (p : Nat) : PageFrameContainer := (s.setBusy p).dropFreePage

theorem take_shape (s : PageFrameContainer) (p : Nat) : SameShape s (s.take p) := by
  unfold take dropFreePage setBusy
  split <;> exact ⟨rfl, rfl, rfl, rfl⟩

theorem take_bitmap (s : PageFrameContainer) (p : Nat) :
    (s.take p).bitmap = clear s.bitmap p := by
  unfold take dropFreePage setBusy
  split <;> rfl

theorem isFree_take (s : PageFrameContainer) (p q : Nat) :
    (s.take p).isFree q = (s.isFree q && !decide (q = p)) := by
  rw [isFree_eq_bit, isFree_eq_bit, take_bitmap, bit_clear]

theorem TrackedTo.take (h : TrackedTo limit s) (hp : p < s.pageCount) (hf : s.isFree p = true) :
    TrackedTo limit (s.take p) := by
  rw [isFree_eq_bit] at hf
  have hpos := count_pos hp hf
  have hcount := count_clear hp hf
  have hs := take_shape s p
  refine ⟨?_, ?_, by rw [hs.pageCount, hs.bitmapSize]; exact h.fits,
    by rw [hs.pageCount]; exact h.bounded⟩
  · have hfree : (s.take p).freePageCount = s.freePageCount - 1 := by
      have hc := h.count
      unfold PageFrameContainer.take dropFreePage setBusy
      rw [if_pos (by simp only; omega)]
    rw [hfree, take_bitmap, hs.pageCount, h.count]
    omega
  · intro q hq hq'
    rw [hs.pageCount] at hq
    rw [hs.bitmapSize] at hq'
    rw [take_bitmap, bit_clear, h.clearAbove q hq hq']
    rfl

theorem markBusyCounted_spec (h : TrackedTo limit s) (p : Nat) :
    TrackedTo limit (s.markBusyCounted p) ∧ SameShape s (s.markBusyCounted p) ∧
      ∀ q, q < s.pageCount →
        (s.markBusyCounted p).isFree q = (s.isFree q && !decide (q = p)) := by
  unfold markBusyCounted
  split
  · rename_i hp
    exact ⟨h.take hp.1 hp.2, take_shape s p, fun q _ => isFree_take s p q⟩
  · rename_i hp
    refine ⟨h, SameShape.refl s, ?_⟩
    intro q hq
    by_cases he : q = p
    · subst he
      have hbusy : s.isFree q = false := by
        by_contra hne
        exact hp ⟨hq, by simpa using hne⟩
      simp [hbusy]
    · simp [he]

/-- Marking a list of pages leaves busy exactly those that were busy or are listed. -/
theorem foldl_markBusyCounted (pages : List Nat) (f : Nat → Nat) (h : TrackedTo limit s) :
    TrackedTo limit (pages.foldl (fun s k => s.markBusyCounted (f k)) s) ∧
      SameShape s (pages.foldl (fun s k => s.markBusyCounted (f k)) s) ∧
      ∀ q, q < s.pageCount →
        ((pages.foldl (fun s k => s.markBusyCounted (f k)) s).isFree q = true ↔
          s.isFree q = true ∧ ∀ k ∈ pages, q ≠ f k) := by
  induction pages generalizing s with
  | nil => exact ⟨h, SameShape.refl s, fun q _ => by simp⟩
  | cons k pages ih =>
    obtain ⟨h1, h2, h3⟩ := markBusyCounted_spec h (f k)
    obtain ⟨i1, i2, i3⟩ := ih h1
    refine ⟨i1, h2.trans i2, ?_⟩
    intro q hq
    rw [List.foldl_cons, i3 q (by rw [h2.pageCount]; exact hq), h3 q hq]
    simp only [Bool.and_eq_true, Bool.not_eq_true', decide_eq_false_iff_not, List.mem_cons,
      forall_eq_or_imp]
    exact and_assoc

/-- The pages visited by `for(vp = start; vp < stop; vp += kPageSize)`. -/
def Visits (start stop p : Nat) : Prop :=
  ∃ k, k < pageTurns start stop ∧ p = (start + k * kPageSize) >>> 12

theorem markBusyRange_spec (h : TrackedTo limit s) (start stop : Nat) :
    TrackedTo limit (s.markBusyRange start stop) ∧ SameShape s (s.markBusyRange start stop) ∧
      ∀ q, q < s.pageCount →
        ((s.markBusyRange start stop).isFree q = true ↔
          s.isFree q = true ∧ ¬ Visits start stop q) := by
  obtain ⟨h1, h2, h3⟩ := foldl_markBusyCounted (List.range (pageTurns start stop))
    (fun k => (start + k * kPageSize) >>> 12) h
  refine ⟨h1, h2, ?_⟩
  intro q hq
  rw [markBusyRange, h3 q hq]
  simp [Visits]

/-! ## Initialisation -/

/-- A tracked end address is page-aligned and at most `limit` pages. -/
def GoodEnd (limit e : Nat) : Prop := e % kPageSize = 0 ∧ e ≤ limit * kPageSize

theorem alignDownPage_aligned (v : Nat) : alignDownPage v % kPageSize = 0 := by
  unfold alignDownPage alignDown kPageSize
  rw [show (0x1000 : Nat) = 2 ^ 12 by norm_num, toNat_and_not_low _ 12 (by decide)]
  exact Nat.mul_mod_left _ _

theorem alignDownPage_le {v : Nat} (hv : v < 2 ^ 64) : alignDownPage v ≤ v :=
  alignDown_le (k := 12) (by decide) hv

/-- The end of the trackable part of a region. -/
def clippedEnd (maxTrackableEnd : Nat) (b : BootMemoryRegion) : Nat :=
  min (alignDownPage (u64 (b.physicalStart + b.length))) maxTrackableEnd

/-- The first pass counts a usable region that keeps a whole trackable page. -/
def Counts (maxTrackableEnd : Nat) (b : BootMemoryRegion) : Prop :=
  bootMemoryRegionIsUsable b = true ∧
    alignUpPage b.physicalStart < clippedEnd maxTrackableEnd b

/-- The first pass over `regions` raises the memory end from `base` to `stop`. -/
structure MeasuredEnd (maxTrackableEnd base : Nat) (regions : List BootMemoryRegion)
    (stop : Nat) : Prop where
  base_le : base ≤ stop
  upper : ∀ b ∈ regions, Counts maxTrackableEnd b → clippedEnd maxTrackableEnd b ≤ stop
  attained : stop = base ∨
    ∃ b ∈ regions, Counts maxTrackableEnd b ∧ clippedEnd maxTrackableEnd b = stop

theorem measureRegion_spec (maxTrackableEnd : Nat) (s : PageFrameContainer)
    (b : BootMemoryRegion) :
    ∃ size stop, measureRegion maxTrackableEnd s b =
        { s with memorySize := size, memoryEndAddress := stop } ∧
      MeasuredEnd maxTrackableEnd s.memoryEndAddress [b] stop := by
  have hclip : (if alignDownPage (u64 (b.physicalStart + b.length)) > maxTrackableEnd then
      maxTrackableEnd else alignDownPage (u64 (b.physicalStart + b.length))) =
      clippedEnd maxTrackableEnd b := by
    unfold clippedEnd
    split <;> omega
  have hskip (hno : ¬ Counts maxTrackableEnd b) :
      MeasuredEnd maxTrackableEnd s.memoryEndAddress [b] s.memoryEndAddress :=
    ⟨le_rfl, fun c hc hcount => (hno (List.mem_singleton.mp hc ▸ hcount)).elim, Or.inl rfl⟩
  unfold measureRegion
  simp only [hclip]
  split
  · rename_i hu
    split
    · exact ⟨_, _, rfl, hskip (fun h => absurd h.2 (by omega))⟩
    · have hcount : Counts maxTrackableEnd b := ⟨hu, by omega⟩
      refine ⟨_, _, rfl, ?_, ?_, ?_⟩
      · split <;> omega
      · intro c hc _
        rw [List.mem_singleton.mp hc]
        split <;> omega
      · split
        · exact Or.inr ⟨b, List.mem_singleton_self b, hcount, rfl⟩
        · exact Or.inl rfl
  · rename_i hu
    exact ⟨_, _, rfl, hskip (fun h => hu h.1)⟩

theorem MeasuredEnd.cons {maxTrackableEnd base mid stop : Nat} {b : BootMemoryRegion}
    {regions : List BootMemoryRegion} (h : MeasuredEnd maxTrackableEnd base [b] mid)
    (h' : MeasuredEnd maxTrackableEnd mid regions stop) :
    MeasuredEnd maxTrackableEnd base (b :: regions) stop := by
  refine ⟨h.base_le.trans h'.base_le, ?_, ?_⟩
  · intro c hc hcount
    rcases List.mem_cons.mp hc with rfl | hc
    · exact (h.upper c (List.mem_singleton_self c) hcount).trans h'.base_le
    · exact h'.upper c hc hcount
  · rcases h'.attained with rfl | ⟨c, hc, he⟩
    · rcases h.attained with he | ⟨c, hc, he⟩
      · exact Or.inl he
      · exact Or.inr ⟨c, List.mem_cons.mpr (Or.inl (List.mem_singleton.mp hc)), he⟩
    · exact Or.inr ⟨c, List.mem_cons_of_mem b hc, he⟩

theorem foldl_measureRegion (maxTrackableEnd : Nat) (regions : List BootMemoryRegion)
    (s : PageFrameContainer) :
    ∃ size stop, regions.foldl (measureRegion maxTrackableEnd) s =
        { s with memorySize := size, memoryEndAddress := stop } ∧
      MeasuredEnd maxTrackableEnd s.memoryEndAddress regions stop := by
  induction regions generalizing s with
  | nil => exact ⟨s.memorySize, s.memoryEndAddress, rfl, le_rfl, by simp, Or.inl rfl⟩
  | cons b regions ih =>
    obtain ⟨size, mid, he, hb⟩ := measureRegion_spec maxTrackableEnd s b
    obtain ⟨size', stop, he', hrest⟩ := ih { s with memorySize := size, memoryEndAddress := mid }
    exact ⟨size', stop, by rw [List.foldl_cons, he, he'], hb.cons hrest⟩

theorem MeasuredEnd.good {maxTrackableEnd stop : Nat} {regions : List BootMemoryRegion}
    (h : MeasuredEnd maxTrackableEnd 0 regions stop) (hmax : maxTrackableEnd % kPageSize = 0)
    (hregions : ∀ b ∈ regions, u64 (b.physicalStart + b.length) ≤ limit * kPageSize) :
    GoodEnd limit stop := by
  rcases h.attained with rfl | ⟨b, hb, -, rfl⟩
  · exact ⟨rfl, Nat.zero_le _⟩
  · have hdown := alignDownPage_le (u64_lt (b.physicalStart + b.length))
    refine ⟨?_, ?_⟩
    · unfold clippedEnd
      rcases min_choice (alignDownPage (u64 (b.physicalStart + b.length))) maxTrackableEnd with
        he | he
      · rw [he]
        exact alignDownPage_aligned _
      · rw [he]
        exact hmax
    · exact (min_le_left _ _).trans (hdown.trans (hregions b hb))

theorem MeasuredEnd.le_max {maxTrackableEnd stop : Nat} {regions : List BootMemoryRegion}
    (h : MeasuredEnd maxTrackableEnd 0 regions stop) : stop ≤ maxTrackableEnd := by
  rcases h.attained with rfl | ⟨b, -, -, rfl⟩
  · exact Nat.zero_le _
  · exact min_le_right _ _

/-- The pages that initialisation takes out of the bitmap: the bitmap's own, the early
low range, and the kernel window. -/
def InitReserved (bitmapAddress bitmapLimit p : Nat) : Prop :=
  Visits bitmapAddress (u64 (bitmapAddress + u64 (bitmapLimit * 8))) p ∨
    Visits 0 kEarlyReservedPhysicalEnd p ∨
    Visits kKernelReservedPhysicalStart kKernelReservedPhysicalEnd p

/-- The state before painting: the bitmap is sized for a page-aligned memory end. -/
def Sized (limit : Nat) (s : PageFrameContainer) : Prop :=
  GoodEnd limit s.memoryEndAddress ∧ s.pageCount = s.memoryEndAddress >>> 12 ∧
    s.bitmapSize = ((s.pageCount + 7) / 8 + 7) / 8

theorem Sized.fits (h : Sized limit s) : s.pageCount ≤ s.bitmapSize * 64 := by
  rw [h.2.2]
  omega

theorem Sized.bounded (h : Sized limit s) : s.pageCount ≤ limit := by
  have := h.1.2
  rw [h.2.1, Nat.shiftRight_eq_div_pow]
  unfold kPageSize at this
  omega

theorem Covers.lt {memoryEnd : Nat} {b : BootMemoryRegion} (h : Covers memoryEnd b p) :
    p < memoryEnd >>> 12 := by
  refine Nat.lt_of_lt_of_le h.2.2 ?_
  rw [Nat.shiftRight_eq_div_pow, Nat.shiftRight_eq_div_pow]
  exact Nat.div_le_div_right (min_le_right _ _)

theorem paintBitmap_spec (h : Sized limit s) (regions : List BootMemoryRegion) :
    TrackedTo limit (s.paintBitmap regions) ∧ SameShape s (s.paintBitmap regions) ∧
      (s.paintBitmap regions).bitmapPhysicalAddress = s.bitmapPhysicalAddress ∧
      (s.paintBitmap regions).bitmapLimit = s.bitmapLimit ∧
      ∀ p, p < s.bitmapSize * 64 → ((s.paintBitmap regions).isFree p = true ↔
        ∃ b ∈ regions, Covers s.memoryEndAddress b p) := by
  obtain ⟨bitmap, hp, hbits⟩ := foldl_paintRegion regions
    { s with bitmap := fun w => if w < s.bitmapSize then 0#64 else s.bitmap w }
  have hcov : ∀ p, p < s.bitmapSize * 64 →
      (bit bitmap p = true ↔ ∃ b ∈ regions, Covers s.memoryEndAddress b p) := by
    intro p hp
    have hw : p / 64 < s.bitmapSize := by omega
    have hzero : bit (fun w => if w < s.bitmapSize then 0#64 else s.bitmap w) p = false := by
      simp only [bit, if_pos hw]
      exact BitVec.getLsbD_zero
    rw [hbits p, hzero]
    simp
  have hclear : ∀ p, s.pageCount ≤ p → p < s.bitmapSize * 64 → bit bitmap p = false := by
    intro p h1 h2
    by_contra hne
    obtain ⟨b, _, hc⟩ := (hcov p h2).mp (by simpa using hne)
    have := hc.lt
    rw [← h.2.1] at this
    omega
  have hcount : countFreePages s.pageCount bitmap s.bitmapSize 0 0 0 =
      Bitmap.count bitmap s.pageCount := by
    rw [countFreePages_spec _ _ _ 0 0 0 (by simp) (by simpa using hclear) (by simp [Bitmap.count])]
    simp only [Nat.zero_add]
    exact count_of_clear h.fits hclear
  have he : s.paintBitmap regions =
      { s with bitmap := bitmap, freePageCount := Bitmap.count bitmap s.pageCount } := by
    simp only [paintBitmap, hp, hcount]
  rw [he]
  refine ⟨⟨rfl, hclear, h.fits, h.bounded⟩, ⟨rfl, rfl, rfl, rfl⟩, rfl, rfl, ?_⟩
  intro p hp
  rw [isFree_eq_bit]
  exact hcov p hp

theorem reserveBootPages_spec (h : TrackedTo limit s) :
    TrackedTo limit s.reserveBootPages ∧ SameShape s s.reserveBootPages ∧
      ∀ p, p < s.pageCount → (s.reserveBootPages.isFree p = true ↔
        s.isFree p = true ∧ ¬ InitReserved s.bitmapPhysicalAddress s.bitmapLimit p) := by
  obtain ⟨a1, a2, a3⟩ := markBusyRange_spec h s.bitmapPhysicalAddress s.bitmapEnd
  obtain ⟨b1, b2, b3⟩ := markBusyRange_spec a1 0 kEarlyReservedPhysicalEnd
  obtain ⟨c1, c2, c3⟩ := markBusyRange_spec b1 kKernelReservedPhysicalStart
    kKernelReservedPhysicalEnd
  refine ⟨c1, (a2.trans b2).trans c2, ?_⟩
  intro p hp
  have ha := a3 p hp
  have hb := b3 p (by rw [a2.pageCount]; exact hp)
  have hc := c3 p (by rw [(a2.trans b2).pageCount]; exact hp)
  rw [reserveBootPages, hc, hb, ha, InitReserved, bitmapEnd, not_or, not_or, and_assoc, and_assoc]

/-- Setting the flag at the end of initialisation keeps every other field. -/
theorem TrackedTo.publish (h : TrackedTo limit s) :
    TrackedTo limit { s with initialized := true } :=
  ⟨h.count, h.clearAbove, h.fits, h.bounded⟩

/-- The end of the memory that a bitmap of `bitmapLimit` words describes. -/
def maxTrackableEnd (bitmapLimit : Nat) : Nat := u64 (u64 (bitmapLimit * 64) * kPageSize)

theorem maxTrackableEnd_aligned (bitmapLimit : Nat) :
    maxTrackableEnd bitmapLimit % kPageSize = 0 := by
  unfold maxTrackableEnd u64 kPageSize
  omega

theorem maxTrackableEnd_le (bitmapLimit : Nat) :
    maxTrackableEnd bitmapLimit ≤ bitmapLimit * 64 * kPageSize :=
  (Nat.mod_le _ _).trans (Nat.mul_le_mul_right _ (Nat.mod_le _ _))

/-- The container after the first pass. -/
def measured (s : PageFrameContainer) (bitmapAddress bitmapLimit size stop : Nat) :
    PageFrameContainer :=
  { s with
    memorySize := size
    memoryEndAddress := stop
    bitmapPhysicalAddress := bitmapAddress
    bitmapLimit := bitmapLimit }

variable {s₀ : PageFrameContainer} {regions : List BootMemoryRegion}
  {bitmapAddress bitmapLimit size stop : Nat}

theorem sizeBitmap_fits (hstop : stop ≤ maxTrackableEnd bitmapLimit) :
    (s₀.measured bitmapAddress bitmapLimit size stop).sizeBitmap.bitmapSize ≤ bitmapLimit := by
  have hmax := maxTrackableEnd_le bitmapLimit
  change ((stop >>> 12 + 7) / 8 + 7) / 8 ≤ bitmapLimit
  rw [Nat.shiftRight_eq_div_pow]
  unfold kPageSize at hmax
  omega

/-- A call of `initialize` changes nothing, or stops after the first pass, or paints the
bitmap. The bitmap always fits its limit because the regions were clipped to it. -/
theorem initializeFrames_cases {r : Bool}
    (h : s₀.initializeFrames regions bitmapAddress bitmapLimit = some (r, s)) :
    (s₀.initialized = true ∧ r = false ∧ s = s₀) ∨
      s₀.initialized = false ∧ ∃ size stop,
        MeasuredEnd (maxTrackableEnd bitmapLimit) 0 regions stop ∧
        (r = false ∧ s = s₀.measured bitmapAddress bitmapLimit size stop ∨
          r = true ∧ 0 < stop ∧
            s = { (((s₀.measured bitmapAddress bitmapLimit size stop).sizeBitmap.paintBitmap
              regions).reserveBootPages) with initialized := true }) := by
  unfold initializeFrames at h
  split at h
  · rename_i hi
    simp only [Option.some.injEq, Prod.mk.injEq] at h
    exact Or.inl ⟨hi, h.1.symm, h.2.symm⟩
  rename_i hi
  obtain ⟨size, stop, hm, hend⟩ := foldl_measureRegion (maxTrackableEnd bitmapLimit) regions
    (s₀.measured bitmapAddress bitmapLimit 0 0)
  refine Or.inr ⟨by simpa using hi, size, stop, hend, ?_⟩
  have hpass : regions.foldl (measureRegion (u64 (u64 (bitmapLimit * 64) * kPageSize)))
      { s₀ with memorySize := 0, memoryEndAddress := 0, bitmapPhysicalAddress := bitmapAddress,
                bitmapLimit := bitmapLimit } =
      s₀.measured bitmapAddress bitmapLimit size stop := hm
  simp only [hpass] at h
  change (if size > 0 ∧ stop > 0 then
    if (s₀.measured bitmapAddress bitmapLimit size stop).sizeBitmap.bitmapSize ≤ bitmapLimit then
      _ else _ else _) = _ at h
  rw [if_pos (sizeBitmap_fits hend.le_max)] at h
  split at h
  · rename_i hpos
    split at h
    · simp only [Option.some.injEq, Prod.mk.injEq] at h
      exact Or.inr ⟨h.1.symm, hpos.2, h.2.symm⟩
    · simp at h
  · simp only [Option.some.injEq, Prod.mk.injEq] at h
    exact Or.inl ⟨h.1.symm, h.2.symm⟩

theorem initializeFrames_tracked
    (hregions : ∀ b ∈ regions, u64 (b.physicalStart + b.length) ≤ limit * kPageSize)
    (h : s₀.initializeFrames regions bitmapAddress bitmapLimit = some (true, s)) :
    TrackedTo limit s ∧ s.initialized = true ∧ s.memoryEndAddress = s.pageCount * kPageSize ∧
      MeasuredEnd (maxTrackableEnd bitmapLimit) 0 regions s.memoryEndAddress ∧
      0 < s.memoryEndAddress ∧ ∀ p, p < s.pageCount → (s.isFree p = true ↔
        (∃ b ∈ regions, Covers s.memoryEndAddress b p) ∧
          ¬ InitReserved bitmapAddress bitmapLimit p) := by
  rcases initializeFrames_cases h with ⟨-, hr, -⟩ | ⟨-, size, stop, hend, ⟨hr, -⟩ | ⟨-, hpos, hs⟩⟩
  · simp at hr
  · simp at hr
  have hgood := hend.good (maxTrackableEnd_aligned bitmapLimit) hregions
  generalize hu : (s₀.measured bitmapAddress bitmapLimit size stop).sizeBitmap = u at hs
  have hsized : Sized limit u := by
    subst hu
    exact ⟨hgood, rfl, rfl⟩
  have haddr : u.bitmapPhysicalAddress = bitmapAddress ∧ u.bitmapLimit = bitmapLimit ∧
      u.memoryEndAddress = stop := by
    subst hu
    exact ⟨rfl, rfl, rfl⟩
  obtain ⟨p1, p2, p3, p4, p5⟩ := paintBitmap_spec hsized regions
  obtain ⟨r1, r2, r3⟩ := reserveBootPages_spec p1
  have hsh := p2.trans r2
  generalize (u.paintBitmap regions).reserveBootPages = v at hs hsh r1 r3
  have hpub := r1.publish
  rw [← hs] at hpub
  have hpages : s.pageCount = u.pageCount ∧ s.memoryEndAddress = u.memoryEndAddress := by
    rw [hs]
    exact ⟨hsh.pageCount, hsh.memoryEnd⟩
  have hfrees : ∀ p, s.isFree p = v.isFree p := by
    intro p
    rw [hs]
    rfl
  rw [hpages.2, haddr.2.2]
  refine ⟨hpub, by rw [hs], ?_, hend, hpos, ?_⟩
  · have hend := hsized.1.1
    have hpc := hsized.2.1
    rw [Nat.shiftRight_eq_div_pow] at hpc
    rw [haddr.2.2] at hend hpc
    rw [hpages.1]
    unfold kPageSize at *
    omega
  · intro p hp
    rw [hpages.1] at hp
    have hfit := hsized.fits
    have hfree := r3 p (by rw [p2.pageCount]; exact hp)
    rw [p5 p (by omega), p3, p4, haddr.1, haddr.2.1, haddr.2.2] at hfree
    rw [hfrees]
    exact hfree

theorem initializeFrames_spec
    (hregions : ∀ b ∈ regions, b.physicalStart + b.length ≤ 2 ^ 52)
    (h : s₀.initializeFrames regions bitmapAddress bitmapLimit = some (true, s)) :
    Tracked s ∧ s.initialized = true ∧ s.memoryEndAddress = s.pageCount * kPageSize ∧
      ∀ p, p < s.pageCount → (s.isFree p = true ↔
        (∃ b ∈ regions, Covers s.memoryEndAddress b p) ∧
          ¬ InitReserved bitmapAddress bitmapLimit p) := by
  have hlimit : ∀ b ∈ regions, u64 (b.physicalStart + b.length) ≤ 2 ^ 40 * kPageSize :=
    fun b hb => (Nat.mod_le _ _).trans ((hregions b hb).trans (by decide))
  obtain ⟨ht, hi, he, -, -, hfree⟩ := initializeFrames_tracked hlimit h
  exact ⟨ht, hi, he, hfree⟩

/-- A container booted from one usable region of sixteen pages at 2 MiB. -/
def bootedFrames : PageFrameContainer :=
  (((⟨0, 0, 0, 0, fun _ => 0#64, 0, 0, 0, false⟩ : PageFrameContainer).initializeFrames
    [⟨0x200000, 0x10000, .usable⟩] 0x300000 64).map (·.2)).getD
      ⟨0, 0, 0, 0, fun _ => 0#64, 0, 0, 0, false⟩

theorem bootedFrames_init :
    (⟨0, 0, 0, 0, fun _ => 0#64, 0, 0, 0, false⟩ : PageFrameContainer).initializeFrames
      [⟨0x200000, 0x10000, .usable⟩] 0x300000 64 = some (true, bootedFrames) := rfl

theorem bootedFrames_tracked : Tracked bootedFrames :=
  (initializeFrames_spec (by simp) bootedFrames_init).1

end Os1.PageFrameContainer
