import Os1.Mm.PageFrameInit

/-! One specification for each operation of the initialised allocator. -/
namespace Os1.PageFrameContainer

open Bitmap

variable {s t : PageFrameContainer} {limit p q n a : Nat}

/-! ## Single pages -/

theorem ushiftRight_one_eq_zero {v : BitVec 64} (h0 : v.getLsbD 0 = false)
    (h : v >>> 1 = 0#64) : v = 0#64 := by
  apply BitVec.eq_of_getLsbD_eq
  intro i hi
  cases i with
  | zero => simpa using h0
  | succ i =>
    have := congrArg (fun w => w.getLsbD i) h
    simpa [BitVec.getLsbD_ushiftRight, Nat.add_comm 1 i] using this

/-- The inner loop finds the lowest set bit of any word of at most `fuel` bits. -/
theorem firstFreeInWord_spec (fuel : Nat) (v : BitVec 64) (base : Nat)
    (hfuel : ∀ j, fuel ≤ j → v.getLsbD j = false) :
    (v = 0#64 ∧ firstFreeInWord fuel v base = none) ∨
      ∃ j, firstFreeInWord fuel v base = some (base + j) ∧ v.getLsbD j = true ∧
        ∀ i, i < j → v.getLsbD i = false := by
  induction fuel generalizing v base with
  | zero =>
    left
    refine ⟨BitVec.eq_of_getLsbD_eq (fun i _ => ?_), rfl⟩
    rw [hfuel i (Nat.zero_le i)]
    exact BitVec.getLsbD_zero.symm
  | succ fuel ih =>
    unfold firstFreeInWord
    by_cases hv : v = 0#64
    · exact Or.inl ⟨hv, by rw [if_pos hv]⟩
    · right
      rw [if_neg hv, and_one_ne_zero]
      cases h0 : v.getLsbD 0 with
      | true => exact ⟨0, by simp, h0, by omega⟩
      | false =>
        rw [if_neg (by simp)]
        have hsh : ∀ j, (v >>> 1).getLsbD j = v.getLsbD (j + 1) := by
          intro j
          rw [BitVec.getLsbD_ushiftRight, Nat.add_comm]
        rcases ih (v >>> 1) (base + 1) (fun j hj => by rw [hsh]; exact hfuel _ (by omega)) with
          ⟨hz, _⟩ | ⟨j, hj, hbit, hlow⟩
        · exact (hv (ushiftRight_one_eq_zero h0 hz)).elim
        · refine ⟨j + 1, by rw [hj]; congr 1; omega, by rw [← hsh]; exact hbit, ?_⟩
          intro i hi
          cases i with
          | zero => exact h0
          | succ i => rw [← hsh]; exact hlow i (by omega)

theorem bit_of_word (b : Words) (w j : Nat) (hj : j < 64) :
    bit b (w * 64 + j) = (b w).getLsbD j := by
  unfold bit
  rw [show (w * 64 + j) / 64 = w by omega, show (w * 64 + j) % 64 = j by omega]

/-- The word scan finds the lowest set bit at or above word `w`. -/
theorem firstFreePage_spec (b : Words) (remaining w : Nat) :
    (firstFreePage b remaining w = none ∧
        ∀ p, w * 64 ≤ p → p < (w + remaining) * 64 → bit b p = false) ∨
      ∃ p, firstFreePage b remaining w = some p ∧ w * 64 ≤ p ∧ p < (w + remaining) * 64 ∧
        bit b p = true ∧ ∀ q, w * 64 ≤ q → q < p → bit b q = false := by
  induction remaining generalizing w with
  | zero => exact Or.inl ⟨rfl, by intro p h1 h2; omega⟩
  | succ remaining ih =>
    have hword : ∀ p, w * 64 ≤ p → p < w * 64 + 64 → bit b p = (b w).getLsbD (p - w * 64) := by
      intro p h1 h2
      rw [← bit_of_word b w _ (by omega), show w * 64 + (p - w * 64) = p by omega]
    -- An empty word passes the search on to the words above it.
    have hskip : b w = 0#64 →
        firstFreePage b (remaining + 1) w = firstFreePage b remaining (w + 1) →
        (firstFreePage b (remaining + 1) w = none ∧
          ∀ p, w * 64 ≤ p → p < (w + (remaining + 1)) * 64 → bit b p = false) ∨
        ∃ p, firstFreePage b (remaining + 1) w = some p ∧ w * 64 ≤ p ∧
          p < (w + (remaining + 1)) * 64 ∧ bit b p = true ∧
          ∀ q, w * 64 ≤ q → q < p → bit b q = false := by
      intro hz he
      have hlow : ∀ p, w * 64 ≤ p → p < w * 64 + 64 → bit b p = false := by
        intro p h1 h2
        rw [hword p h1 h2, hz]
        exact BitVec.getLsbD_zero
      rw [he]
      rcases ih (w + 1) with ⟨hn, hc⟩ | ⟨p, hp, h1, h2, hb, hl⟩
      · refine Or.inl ⟨hn, ?_⟩
        intro p h1 h2
        by_cases hp : p < w * 64 + 64
        · exact hlow p h1 hp
        · exact hc p (by omega) (by omega)
      · refine Or.inr ⟨p, hp, by omega, by omega, hb, ?_⟩
        intro q h3 h4
        by_cases hq : q < w * 64 + 64
        · exact hlow q h3 hq
        · exact hl q (by omega) h4
    by_cases hz : b w = 0#64
    · exact hskip hz (by rw [firstFreePage, hz]; rfl)
    · rcases firstFreeInWord_spec 64 (b w) (w * 64)
        (fun j hj => BitVec.getLsbD_of_ge _ _ hj) with ⟨hz', _⟩ | ⟨j, hj, hb, hl⟩
      · exact (hz hz').elim
      · have hj64 : j < 64 := by
          by_contra hge
          rw [BitVec.getLsbD_of_ge _ _ (by omega)] at hb
          simp at hb
        refine Or.inr ⟨w * 64 + j, ?_, by omega, by omega, ?_, ?_⟩
        · rw [firstFreePage, if_pos (by simpa using hz), hj]
        · rw [bit_of_word b w j hj64]
          exact hb
        · intro q h1 h2
          rw [hword q h1 (by omega)]
          exact hl _ (by omega)

/-- A successful allocation takes the lowest free page. -/
theorem allocate_some (h : TrackedTo limit s) (ha : s.allocate = some (a, t)) :
    ∃ p, a = p * kPageSize ∧ p < s.pageCount ∧ s.isFree p = true ∧ t = s.take p ∧
      ∀ q, q < p → s.isFree q = false := by
  unfold allocate at ha
  split at ha
  swap
  · simp at ha
  rcases firstFreePage_spec s.bitmap s.bitmapSize 0 with ⟨hn, _⟩ | ⟨p, hp, _, h2, hb, hl⟩
  · simp [hn] at ha
  · rw [hp] at ha
    simp only [Option.some.injEq, Prod.mk.injEq] at ha
    refine ⟨p, ?_, ?_, by rw [isFree_eq_bit]; exact hb, ha.2.symm, ?_⟩
    · rw [← ha.1, Nat.shiftLeft_eq, kPageSize]
    · by_contra hge
      rw [h.clearAbove p (by omega) (by omega)] at hb
      simp at hb
    · intro q hq
      rw [isFree_eq_bit]
      exact hl q (by omega) hq

/-- A failed allocation of an initialised allocator finds no free page at all. -/
theorem allocate_none (h : TrackedTo limit s) (hi : s.initialized = true) (ha : s.allocate = none) :
    ∀ p, p < s.pageCount → s.isFree p = false := by
  intro p hp
  unfold allocate at ha
  rw [if_pos hi] at ha
  rcases firstFreePage_spec s.bitmap s.bitmapSize 0 with ⟨_, hc⟩ | ⟨q, hq, _⟩
  · have := h.fits
    rw [isFree_eq_bit]
    exact hc p (by omega) (by omega)
  · simp [hq] at ha

/-! ## Contiguous runs -/

/-- `n` consecutive free pages start at page `p`. -/
def FreeRun (s : PageFrameContainer) (n p : Nat) : Prop :=
  p + n ≤ s.pageCount ∧ ∀ q, p ≤ q → q < p + n → s.isFree q = true

/-- The scan at page `i`: the free pages just below `i` start at `cur`, are fewer than
`count`, and no run of `count` free pages ends at or below `i`. -/
structure Scan (s : PageFrameContainer) (count i cur : Nat) : Prop where
  le : cur ≤ i
  short : i < cur + count
  free : ∀ q, cur ≤ q → q < i → s.isFree q = true
  longest : ∀ p, p ≤ i → (∀ q, p ≤ q → q < i → s.isFree q = true) → cur ≤ p
  missed : ∀ p, p + count ≤ i → ∃ q, p ≤ q ∧ q < p + count ∧ s.isFree q = false

/-- The page that `run_start` stands for: `page_count_` means that no run is open. -/
def openRun (s : PageFrameContainer) (i runStart : Nat) : Nat :=
  if runStart = s.pageCount then i else runStart

theorem Scan.start (h : 0 < n) : Scan s n 0 0 :=
  ⟨le_rfl, by omega, by omega, by omega, by omega⟩

theorem Scan.busy {i cur : Nat} (h : Scan s n i cur) (hb : s.isFree i = false) :
    Scan s n (i + 1) (i + 1) := by
  have hn := h.short
  have hle := h.le
  refine ⟨le_rfl, by omega, by omega, ?_, ?_⟩
  · intro p hp hfree
    by_contra hlt
    have := hfree i (by omega) (by omega)
    rw [hb] at this
    simp at this
  · intro p hp
    by_cases hpi : p + n ≤ i
    · exact h.missed p hpi
    · exact ⟨i, by omega, by omega, hb⟩

theorem Scan.extend {i cur : Nat} (h : Scan s n i cur) (hf : s.isFree i = true)
    (hne : i + 1 ≠ cur + n) : Scan s n (i + 1) cur := by
  have hn := h.short
  have hle := h.le
  have hlong : ∀ p, p ≤ i + 1 → (∀ q, p ≤ q → q < i + 1 → s.isFree q = true) → cur ≤ p := by
    intro p hp hfree
    by_cases hpi : p ≤ i
    · exact h.longest p hpi (fun q h1 h2 => hfree q h1 (by omega))
    · omega
  refine ⟨by omega, by omega, ?_, hlong, ?_⟩
  · intro q h1 h2
    by_cases hq : q = i
    · rw [hq]
      exact hf
    · exact h.free q h1 (by omega)
  · intro p hp
    by_cases hpi : p + n ≤ i
    · exact h.missed p hpi
    -- A run that ends at `i` would start at or after `cur`, where there are too few pages.
    by_contra hall
    push Not at hall
    have := hlong p (by omega) (fun q h1 h2 => by simpa using hall q h1 (by omega))
    omega

/-- The block search returns the first run of `count` free pages and misses none. -/
theorem findRun_spec (count remaining i runStart : Nat) (hi : i + remaining = s.pageCount)
    (hscan : Scan s count i (openRun s i runStart)) :
    (findRun s count remaining i runStart = none ∧ ∀ p, ¬ FreeRun s count p) ∨
      ∃ r, findRun s count remaining i runStart = some (r, r + count - 1) ∧ 0 < count ∧
        FreeRun s count r ∧ ∀ p, FreeRun s count p → r ≤ p := by
  induction remaining generalizing i runStart with
  | zero =>
    refine Or.inl ⟨rfl, ?_⟩
    rintro p ⟨hp, hfree⟩
    obtain ⟨q, h1, h2, hb⟩ := hscan.missed p (by omega)
    simp [hfree q h1 h2] at hb
  | succ remaining ih =>
    unfold findRun
    by_cases hf : s.isFree i = true
    · rw [if_pos hf]
      have hcur := hscan.le
      have hshort := hscan.short
      simp only
      change _ ∨ ∃ r, (if i - openRun s i runStart + 1 = count then _ else _) = _ ∧ _
      change (if i - openRun s i runStart + 1 = count then _ else _) = _ ∧ _ ∨ _
      split
      · rename_i hlen
        refine Or.inr ⟨openRun s i runStart, ?_, by omega, ⟨by omega, ?_⟩, ?_⟩
        · change some (openRun s i runStart, i) = _
          congr 2
          omega
        · intro q h1 h2
          by_cases hq : q = i
          · rw [hq]
            exact hf
          · exact hscan.free q h1 (by omega)
        · rintro p ⟨hp, hfree⟩
          by_contra hlt
          obtain ⟨q, h1, h2, hb⟩ := hscan.missed p (by omega)
          simp [hfree q h1 h2] at hb
      · rename_i hlen
        refine ih (i + 1) (openRun s i runStart) (by omega) ?_
        have hopen : openRun s (i + 1) (openRun s i runStart) = openRun s i runStart :=
          if_neg (by omega)
        rw [hopen]
        exact hscan.extend hf (by omega)
    · rw [if_neg hf]
      refine ih (i + 1) s.pageCount (by omega) ?_
      have hopen : openRun s (i + 1) s.pageCount = i + 1 := if_pos rfl
      rw [hopen]
      exact hscan.busy (by simpa using hf)

theorem setBusyRange_succ (s : PageFrameContainer) (start n : Nat) :
    s.setBusyRange start (n + 1) = (s.setBusyRange start n).setBusy (start + n) := by
  unfold setBusyRange
  rw [List.range_succ, List.foldl_append]
  rfl

theorem setBusyRange_shape (s : PageFrameContainer) (start n : Nat) :
    SameShape s (s.setBusyRange start n) ∧
      (s.setBusyRange start n).freePageCount = s.freePageCount := by
  induction n with
  | zero => exact ⟨SameShape.refl s, rfl⟩
  | succ n ih =>
    rw [setBusyRange_succ]
    exact ⟨ih.1.trans ⟨rfl, rfl, rfl, rfl⟩, ih.2⟩

theorem bit_setBusyRange (s : PageFrameContainer) (start n q : Nat) :
    bit (s.setBusyRange start n).bitmap q =
      (bit s.bitmap q && !decide (start ≤ q ∧ q < start + n)) := by
  induction n with
  | zero =>
    have hno : ¬ (start ≤ q ∧ q < start + 0) := by omega
    rw [decide_eq_false hno]
    simp [setBusyRange]
  | succ n ih =>
    rw [setBusyRange_succ, setBusy, bit_clear, ih, Bool.and_assoc, ← Bool.not_or,
      ← Bool.decide_or]
    congr 2
    rw [decide_eq_decide]
    omega

theorem count_setBusyRange (start n : Nat) (hn : start + n ≤ s.pageCount)
    (hf : ∀ q, start ≤ q → q < start + n → s.isFree q = true) :
    Bitmap.count (s.setBusyRange start n).bitmap s.pageCount + n =
      Bitmap.count s.bitmap s.pageCount := by
  induction n with
  | zero => rfl
  | succ n ih =>
    have hprev := ih (by omega) (fun q h1 h2 => hf q h1 (by omega))
    have hbit : bit (s.setBusyRange start n).bitmap (start + n) = true := by
      have := hf (start + n) (by omega) (by omega)
      rw [isFree_eq_bit] at this
      simp [bit_setBusyRange, this]
    have := count_clear (n := s.pageCount) (by omega) hbit
    rw [setBusyRange_succ]
    simp only [setBusy]
    omega

theorem setBusyRange_eq (s : PageFrameContainer) (start n : Nat) :
    s.setBusyRange start n = { s with bitmap := (s.setBusyRange start n).bitmap } := by
  induction n with
  | zero => rfl
  | succ n ih =>
    rw [setBusyRange_succ, ih]
    rfl

/-- The container after `n` pages from `p` on are taken out of it. -/
def takeRun (s : PageFrameContainer) (p n : Nat) : PageFrameContainer :=
  { s.setBusyRange p n with freePageCount := s.freePageCount - n }

theorem takeRun_shape (s : PageFrameContainer) (p n : Nat) : SameShape s (s.takeRun p n) :=
  have h := (setBusyRange_shape s p n).1
  ⟨h.pageCount, h.bitmapSize, h.memoryEnd, h.initialized⟩

theorem isFree_takeRun (s : PageFrameContainer) (p n q : Nat) :
    (s.takeRun p n).isFree q = (s.isFree q && !decide (p ≤ q ∧ q < p + n)) := by
  simp only [isFree_eq_bit, takeRun, bit_setBusyRange]

theorem FreeRun.le_freePageCount (h : TrackedTo limit s) (hr : FreeRun s n p) :
    n ≤ s.freePageCount := by
  have := count_setBusyRange p n hr.1 hr.2
  rw [h.count]
  omega

theorem TrackedTo.takeRun (h : TrackedTo limit s) (hr : FreeRun s n p) :
    TrackedTo limit (s.takeRun p n) := by
  have hs := takeRun_shape s p n
  have hcount := count_setBusyRange p n hr.1 hr.2
  refine ⟨?_, ?_, by rw [hs.pageCount, hs.bitmapSize]; exact h.fits,
    by rw [hs.pageCount]; exact h.bounded⟩
  · rw [hs.pageCount]
    change s.freePageCount - n = Bitmap.count (s.setBusyRange p n).bitmap s.pageCount
    rw [h.count]
    omega
  · intro q h5 h6
    rw [hs.pageCount] at h5
    rw [hs.bitmapSize] at h6
    change bit (s.setBusyRange p n).bitmap q = false
    simp [bit_setBusyRange, h.clearAbove q h5 h6]

/-- The block allocation takes the first run, or fails because there is none. -/
theorem allocateRun_cases (h : TrackedTo limit s) (hi : s.initialized = true) (n : Nat) :
    (s.allocateRun n = none ∧ (n = 0 ∨ ∀ p, ¬ FreeRun s n p)) ∨
      ∃ p, s.allocateRun n = some (p * kPageSize, s.takeRun p n) ∧ 0 < n ∧
        FreeRun s n p ∧ ∀ q, FreeRun s n q → p ≤ q := by
  by_cases hn : n = 0
  · exact Or.inl ⟨by simp [allocateRun, hn], Or.inl hn⟩
  have hguard : (!s.initialized || decide (n = 0)) = false := by simp [hi, hn]
  have hscan : Scan s n 0 (openRun s 0 s.pageCount) := by
    rw [show openRun s 0 s.pageCount = 0 from if_pos rfl]
    exact Scan.start (by omega)
  unfold allocateRun
  rw [hguard, if_neg (by simp)]
  rcases findRun_spec n s.pageCount 0 s.pageCount (by omega) hscan with
    ⟨he, hno⟩ | ⟨r, he, hpos, hr, hfirst⟩
  · exact Or.inl ⟨by rw [he], Or.inr hno⟩
  · refine Or.inr ⟨r, ?_, hpos, hr, hfirst⟩
    have hlen : r + n - 1 - r + 1 = n := by omega
    have hge : (s.setBusyRange r n).freePageCount ≥ n := by
      rw [(setBusyRange_shape s r n).2]
      exact hr.le_freePageCount h
    rw [he]
    simp only [hlen, if_pos hge, Option.some.injEq, Prod.mk.injEq]
    refine ⟨by rw [Nat.shiftLeft_eq, kPageSize], ?_⟩
    rw [(setBusyRange_shape s r n).2]
    rfl

/-- A successful block allocation takes `count` adjacent free pages. -/
theorem allocateRun_some (h : TrackedTo limit s) (ha : s.allocateRun n = some (a, t)) :
    ∃ p, a = p * kPageSize ∧ 0 < n ∧ p + n ≤ s.pageCount ∧
      (∀ q, p ≤ q → q < p + n → s.isFree q = true) ∧ TrackedTo limit t ∧ SameShape s t ∧
      ∀ q, t.isFree q = (s.isFree q && !decide (p ≤ q ∧ q < p + n)) := by
  have hi : s.initialized = true := by
    by_contra hi
    simp [allocateRun, hi] at ha
  rcases allocateRun_cases h hi n with ⟨hnone, -⟩ | ⟨p, he, hn, hr, -⟩
  · simp [hnone] at ha
  · rw [he, Option.some.injEq, Prod.mk.injEq] at ha
    obtain ⟨rfl, rfl⟩ := ha
    exact ⟨p, rfl, hn, hr.1, hr.2, h.takeRun hr, takeRun_shape s p n, isFree_takeRun s p n⟩

/-! ## Freeing and reserving -/

/-- Whether a page is given back by a call of `free`. -/
def Frees (s : PageFrameContainer) (address : Nat) : Prop :=
  s.initialized = true ∧ address % kPageSize = 0 ∧ address >>> 12 < s.pageCount ∧
    s.isFree (address >>> 12) = false

theorem free_of_frees (hf : Frees s a) : s.free a =
    (true, { s.setFree (a >>> 12) with freePageCount := u64 (s.freePageCount + 1) }) := by
  obtain ⟨h1, h2, h3, h4⟩ := hf
  have hz : s.bitmap (a >>> 12 / 64) &&& mask (a >>> 12) = 0#64 := by
    simpa [isFree] using h4
  simp [free, h1, h2, h3, hz]

theorem free_of_not_frees (hf : ¬ Frees s a) : s.free a = (false, s) := by
  unfold free
  split
  · rfl
  split
  · rfl
  simp only
  split
  · split
    · rename_i h1 h2 h3 h4
      exact (hf ⟨by simpa using h1, by simpa using h2, h3, by simp [isFree, h4]⟩).elim
    · rfl
  · rfl

theorem free_fst (s : PageFrameContainer) (a : Nat) : (s.free a).1 = true ↔ Frees s a := by
  by_cases hf : Frees s a
  · simp [free_of_frees hf, hf]
  · simp [free_of_not_frees hf, hf]

theorem free_spec (h : TrackedTo limit s) (a : Nat) (hlimit : limit < 2 ^ 64 := by decide) :
    TrackedTo limit (s.free a).2 ∧ SameShape s (s.free a).2 := by
  by_cases hf : Frees s a
  · have h3 := hf.2.2.1
    have h4 := hf.2.2.2
    rw [free_of_frees hf]
    have hbit : bit s.bitmap (a >>> 12) = false := by rw [← isFree_eq_bit]; exact h4
    have hcount := count_set h3 hbit
    have hle := count_le (set s.bitmap (a >>> 12)) s.pageCount
    have hb := h.bounded
    refine ⟨⟨?_, ?_, h.fits, h.bounded⟩, ⟨rfl, rfl, rfl, rfl⟩⟩
    · simp only [setFree]
      rw [u64_of_lt (by rw [h.count]; omega), hcount, h.count]
    · intro q h5 h6
      simp only [setFree] at h5 h6 ⊢
      rw [bit_set, h.clearAbove q h5 h6]
      simp
      omega
  · rw [free_of_not_frees hf]
    exact ⟨h, SameShape.refl s⟩

theorem isFree_free (s : PageFrameContainer) (a q : Nat) :
    (s.free a).2.isFree q = true ↔ s.isFree q = true ∨ Frees s a ∧ q = a >>> 12 := by
  by_cases hf : Frees s a
  · rw [free_of_frees hf]
    simp [isFree_eq_bit, setFree, bit_set, hf]
  · simp [free_of_not_frees hf, hf]

theorem reservePages_spec (h : TrackedTo limit s) (remaining ipage : Nat) :
    TrackedTo limit (s.reservePages remaining ipage).2 ∧
      SameShape s (s.reservePages remaining ipage).2 ∧
      (∀ q, (s.reservePages remaining ipage).2.isFree q = true → s.isFree q = true) ∧
      ((s.reservePages remaining ipage).1 = true → ∀ q, ipage ≤ q → q < ipage + remaining →
        q < s.pageCount ∧ (s.reservePages remaining ipage).2.isFree q = false) := by
  induction remaining generalizing s ipage with
  | zero => exact ⟨h, SameShape.refl s, fun _ hq => hq, fun _ q h1 h2 => by omega⟩
  | succ remaining ih =>
    unfold reservePages
    by_cases hp : ipage ≥ s.pageCount
    · rw [if_pos hp]
      exact ⟨h, SameShape.refl s, fun _ hq => hq, by simp⟩
    rw [if_neg hp]
    by_cases hf : s.isFree ipage = true
    · rw [if_pos hf]
      have htake := h.take (by omega) hf
      have hsh := take_shape s ipage
      obtain ⟨i1, i2, i3, i4⟩ := ih htake (ipage + 1)
      refine ⟨i1, hsh.trans i2, ?_, ?_⟩
      · intro q hq
        have := i3 q hq
        rw [isFree_take] at this
        simp only [Bool.and_eq_true] at this
        exact this.1
      · intro hr q h1 h2
        by_cases he : q = ipage
        · subst he
          refine ⟨by omega, ?_⟩
          by_contra hne
          have := i3 q (by simpa only [take, Bool.not_eq_false] using hne)
          rw [isFree_take] at this
          simp at this
        · have := i4 hr q (by omega) (by omega)
          rwa [hsh.pageCount] at this
    · rw [if_neg hf]
      obtain ⟨i1, i2, i3, i4⟩ := ih h (ipage + 1)
      refine ⟨i1, i2, i3, ?_⟩
      intro hr q h1 h2
      by_cases he : q = ipage
      · subst he
        refine ⟨by omega, ?_⟩
        by_contra hne
        exact hf (i3 q (by simpa using hne))
      · exact i4 hr q (by omega) (by omega)

/-- The pages a reservation asks for, when its 64-bit arithmetic does not wrap. -/
def Requested (address length q : Nat) : Prop :=
  address >>> 12 ≤ q ∧ q < (address + length + kPageSize - 1) >>> 12

theorem reserveRange_spec (h : TrackedTo limit s) (address length : Nat) :
    TrackedTo limit (s.reserveRange address length).2 ∧
      SameShape s (s.reserveRange address length).2 ∧
      (∀ q, (s.reserveRange address length).2.isFree q = true → s.isFree q = true) ∧
      ((s.reserveRange address length).1 = true → address + length + kPageSize - 1 < 2 ^ 64 →
        ∀ q, Requested address length q →
          q < s.pageCount ∧ (s.reserveRange address length).2.isFree q = false) := by
  unfold reserveRange
  split
  · exact ⟨h, SameShape.refl s, fun _ hq => hq, by simp⟩
  simp only
  split
  · rename_i hle
    refine ⟨h, SameShape.refl s, fun _ hq => hq, ?_⟩
    intro _ hw q hq
    rw [u64_of_lt hw] at hle
    unfold Requested at hq
    omega
  · rename_i hlt
    obtain ⟨h1, h2, h3, h4⟩ := reservePages_spec h
      (u64 (address + length + kPageSize - 1) >>> 12 - address >>> 12) (address >>> 12)
    refine ⟨h1, h2, h3, ?_⟩
    intro hr hw q hq
    rw [u64_of_lt hw] at hr hlt ⊢
    rw [u64_of_lt hw] at h4
    exact h4 hr q hq.1 (by have := hq.2; omega)

end Os1.PageFrameContainer
