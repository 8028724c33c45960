import Mathlib.Tactic.Ring
import Os1.Mm.PageFrameFit

/-! Reservations of physical ranges whose address and length are any 64-bit values. -/
namespace Os1.PageFrameContainer

def memoryEnd (s : PageFrameContainer) : Nat := s.memoryEndAddress

def reserveTrackedPhysicalRange (frames : PageFrameContainer) (physicalStart length : Nat) :
    PageFrameContainer :=
  if length = 0 ∨ physicalStart ≥ frames.memoryEnd then frames
  else
    let clampedEnd :=
      if u64 (physicalStart + length) < frames.memoryEnd then u64 (physicalStart + length)
      else frames.memoryEnd
    if clampedEnd > physicalStart then
      (frames.reserveRange physicalStart (clampedEnd - physicalStart)).2
    else frames

/-- The frame has a byte of the range, whose end may lie above the last 64-bit address. -/
def Overlaps (address length p : Nat) : Prop :=
  ∃ x, address ≤ x ∧ x < address + length ∧ x / kPageSize = p

/-- What a reservation promises. -/
structure ReservesExactly (s : PageFrameContainer) (address length : Nat) : Prop where
  busy : (s.reserveRange address length).1 = true → ∀ p < s.pageCount,
    Overlaps address length p → (s.reserveRange address length).2.isFree p = false
  others : (s.reserveRange address length).1 = true → ∀ p, ¬ Overlaps address length p →
    (s.reserveRange address length).2.isFree p = s.isFree p
  failed : (s.reserveRange address length).1 = false → ∀ p,
    (s.reserveRange address length).2.isFree p = s.isFree p

def ReservesTracked (s : PageFrameContainer) (physicalStart length : Nat) : Prop :=
  ∀ p, p * kPageSize < s.memoryEnd → Overlaps physicalStart length p →
    (s.reserveTrackedPhysicalRange physicalStart length).isFree p = false

/-! ## The reservation loop -/

variable {s t : PageFrameContainer} {address length : Nat}

theorem overlaps_iff {p : Nat} : Overlaps address length p ↔
    0 < length ∧ address / kPageSize ≤ p ∧ p * kPageSize < address + length := by
  unfold Overlaps kPageSize
  constructor
  · rintro ⟨x, hx, hlt, rfl⟩
    omega
  · rintro ⟨hpos, hle, hlt⟩
    by_cases hin : address ≤ p * 4096
    · exact ⟨p * 4096, hin, hlt, by omega⟩
    · exact ⟨address, le_rfl, by omega, by omega⟩

theorem reservePages_exact (remaining ipage : Nat) :
    ((s.reservePages remaining ipage).1 = true ↔ remaining = 0 ∨ ipage + remaining ≤ s.pageCount) ∧
      ∀ q, (s.reservePages remaining ipage).2.isFree q = true ↔
        s.isFree q = true ∧ ¬ (ipage ≤ q ∧ q < ipage + remaining ∧ q < s.pageCount) := by
  induction remaining generalizing s ipage with
  | zero =>
    refine ⟨by simp [reservePages], fun q => ?_⟩
    rw [reservePages, iff_self_and]
    omega
  | succ remaining ih =>
    unfold reservePages
    by_cases hp : ipage ≥ s.pageCount
    · rw [if_pos hp]
      refine ⟨by simp only [Bool.false_eq_true, false_iff]; omega, fun q => ?_⟩
      rw [iff_self_and]
      omega
    rw [if_neg hp]
    by_cases hf : s.isFree ipage = true
    · rw [if_pos hf]
      obtain ⟨hok, hfree⟩ := ih (s := s.take ipage) (ipage + 1)
      rw [(take_shape s ipage).pageCount] at hok hfree
      refine ⟨hok.trans (by omega), fun q => (hfree q).trans ?_⟩
      rw [isFree_take, Bool.and_eq_true, Bool.not_eq_true', decide_eq_false_iff_not, and_assoc]
      exact and_congr_right fun _ => by omega
    · rw [if_neg hf]
      obtain ⟨hok, hfree⟩ := ih (s := s) (ipage + 1)
      refine ⟨hok.trans (by omega), fun q => (hfree q).trans (and_congr_right fun hq => ?_)⟩
      have hne : q ≠ ipage := fun heq => hf (heq ▸ hq)
      omega

/-- The frame behind the last one that the loop of a reservation visits. -/
def reserveStop (address length : Nat) : Nat := u64 (address + length + kPageSize - 1) / kPageSize

theorem reserveRange_eq (hi : s.initialized = true) (hl : length ≠ 0) :
    s.reserveRange address length =
      if reserveStop address length ≤ address / kPageSize then (true, s)
      else s.reservePages (reserveStop address length - address / kPageSize)
        (address / kPageSize) := by
  have hshift : ∀ x, x >>> 12 = x / kPageSize := fun x => Nat.shiftRight_eq_div_pow x 12
  unfold reserveRange reserveStop
  rw [if_neg (by simp [hi, hl])]
  simp only [hshift]

theorem reserveRange_exact (address : Nat) (hi : s.initialized = true) (hl : length ≠ 0) :
    ((s.reserveRange address length).1 = true ↔
      reserveStop address length ≤ address / kPageSize ∨
        reserveStop address length ≤ s.pageCount) ∧
      ∀ q, (s.reserveRange address length).2.isFree q = true ↔ s.isFree q = true ∧
        ¬ (address / kPageSize ≤ q ∧ q < reserveStop address length ∧ q < s.pageCount) := by
  rw [reserveRange_eq hi hl]
  split
  · rename_i hle
    refine ⟨by simp [hle], fun q => ?_⟩
    rw [iff_self_and]
    omega
  · rename_i hlt
    obtain ⟨hok, hfree⟩ := reservePages_exact (s := s)
      (reserveStop address length - address / kPageSize) (address / kPageSize)
    refine ⟨hok.trans (by omega), fun q => (hfree q).trans (and_congr_right fun _ => ?_)⟩
    omega

/-! ## The end of tracked memory -/

/-- Memory ends with the last tracked frame of an initialised container. -/
theorem Reachable.memoryEnd_eq (h : Reachable s) (hi : s.initialized = true) :
    s.memoryEnd = s.pageCount * kPageSize ∧ s.pageCount < 2 ^ 52 := by
  induction h with
  | boot words => cases hi
  | @init s t r words regions bitmapAddress bitmapLimit h hwords hinit ih =>
    rcases initializeFrames_cases hinit with
      ⟨hs, -, rfl⟩ | ⟨hs, size, stop, hend, ⟨rfl, rfl⟩ | ⟨rfl, -, -⟩⟩
    · exact ih hs
    · exact absurd (hs.symm.trans hi) (by decide)
    · have hwide : ∀ b ∈ regions, u64 (b.physicalStart + b.length) ≤ 2 ^ 52 * kPageSize :=
        fun b _ => (u64_lt _).le
      obtain ⟨-, -, hmem, hstop, -, -⟩ := initializeFrames_tracked hwide hinit
      have hlt : t.memoryEndAddress < 2 ^ 64 := lt_of_le_of_lt hstop.le_max (u64_lt _)
      refine ⟨hmem, ?_⟩
      unfold kPageSize at hmem
      omega
  | @call s op h ih =>
    rcases h.books with ⟨hs, ht⟩ | ⟨hs, -⟩
    · obtain ⟨-, hshape⟩ := Ledger.step_tracked (l := Ledger.start s) ht (by decide) op
      obtain ⟨hmem, hlt⟩ := ih hs
      exact ⟨hshape.memoryEnd.trans (hmem.trans (by rw [hshape.pageCount]; rfl)),
        hshape.pageCount ▸ hlt⟩
    · rw [step_uninitialized hs] at hi
      exact absurd (hs.symm.trans hi) (by decide)

/-! ## Ranges that wrap or end above memory -/

/-- The frames of the range are all visited when it ends in tracked memory. -/
theorem reserveStop_of_le (hend : s.memoryEnd = s.pageCount * kPageSize ∧ s.pageCount < 2 ^ 52)
    (hle : address + length ≤ s.memoryEnd) (q : Nat) :
    q < reserveStop address length ↔ q * kPageSize < address + length := by
  unfold reserveStop u64 kPageSize at *
  omega

/-- A range that ends above tracked memory does not stop at a tracked frame behind its first one,
unless its end wraps. -/
theorem reserveStop_of_lt (hend : s.memoryEnd = s.pageCount * kPageSize ∧ s.pageCount < 2 ^ 52)
    (hlt : s.memoryEnd < address + length) (ha : address / kPageSize < s.pageCount)
    (hl : length < 2 ^ 64) :
    s.pageCount < reserveStop address length ∧ address + length < 2 ^ 64 ∨
      (reserveStop address length ≤ address / kPageSize ∧
          address + length ≤ 2 ^ 64 + address / kPageSize * kPageSize ∨
        reserveStop address length = address / kPageSize + 1 ∧
          2 ^ 64 + address / kPageSize * kPageSize < address + length) := by
  unfold reserveStop u64 kPageSize at *
  omega

/-- No free frame of tracked memory from the one of the address on, unless the range ends in tracked
memory, or that frame is the only one and the range reaches it again behind the last address. -/
def Reservable (s : PageFrameContainer) (address length : Nat) : Prop :=
  ∀ p, address / kPageSize ≤ p → p < s.pageCount → s.isFree p = true →
    address + length ≤ s.memoryEnd ∨
      p = address / kPageSize ∧ 2 ^ 64 + p * kPageSize < address + length

theorem reservesExactly_zero : ReservesExactly s address 0 := by
  have hzero : s.reserveRange address 0 = (false, s) := by simp [reserveRange]
  exact ⟨by simp [hzero], by simp [hzero], by simp [hzero]⟩

theorem reservesExactly_of_le (hi : s.initialized = true) (hl : length ≠ 0)
    (hend : s.memoryEnd = s.pageCount * kPageSize ∧ s.pageCount < 2 ^ 52)
    (hle : address + length ≤ s.memoryEnd) : ReservesExactly s address length := by
  obtain ⟨hok, hfree⟩ := reserveRange_exact address hi hl
  have hstop := reserveStop_of_le hend hle
  have htrue : (s.reserveRange address length).1 = true := by
    refine hok.mpr (Or.inr (not_lt.mp fun hlt => ?_))
    have := (hstop s.pageCount).mp hlt
    omega
  refine ⟨fun _ p hp ho => ?_, fun _ p ho => Bool.eq_iff_iff.mpr ?_, fun hf => ?_⟩
  · obtain ⟨-, hfirst, hlast⟩ := overlaps_iff.mp ho
    rw [← Bool.not_eq_true, hfree]
    exact fun h => h.2 ⟨hfirst, (hstop p).mpr hlast, hp⟩
  · rw [hfree, and_iff_left_iff_imp]
    rintro - ⟨hfirst, hlast, -⟩
    exact ho (overlaps_iff.mpr ⟨Nat.pos_of_ne_zero hl, hfirst, (hstop p).mp hlast⟩)
  · rw [htrue] at hf
    cases hf

/-- Every tracked frame from the first one on belongs to a range that ends above memory. -/
theorem overlaps_of_lt {p : Nat} (hl : length ≠ 0)
    (hend : s.memoryEnd = s.pageCount * kPageSize ∧ s.pageCount < 2 ^ 52)
    (hlt : s.memoryEnd < address + length) (hp : p < s.pageCount) :
    Overlaps address length p ↔ address / kPageSize ≤ p := by
  rw [overlaps_iff]
  unfold kPageSize at *
  omega

theorem reservesExactly_iff_of_lt (hi : s.initialized = true) (hl : length ≠ 0)
    (hend : s.memoryEnd = s.pageCount * kPageSize ∧ s.pageCount < 2 ^ 52)
    (hlt : s.memoryEnd < address + length) (ha : address / kPageSize < s.pageCount)
    (hword : length < 2 ^ 64) : ReservesExactly s address length ↔ Reservable s address length := by
  obtain ⟨hok, hfree⟩ := reserveRange_exact address hi hl
  have hstop := reserveStop_of_lt hend hlt ha hword
  have hoverlaps {p : Nat} := overlaps_of_lt (p := p) hl hend hlt
  constructor
  · intro h p hfirst hp hf
    by_contra hnot
    by_cases hvisited : p < reserveStop address length
    · -- The loop takes the frame and then fails above memory.
      have hfalse : (s.reserveRange address length).1 = false := by
        rw [← Bool.not_eq_true, hok]
        unfold kPageSize at *
        omega
      have hkept := (h.failed hfalse p).trans hf
      exact ((hfree p).mp hkept).2 ⟨hfirst, hvisited, hp⟩
    · -- The end has wrapped and the frame is left out.
      have htrue : (s.reserveRange address length).1 = true := hok.mpr (by omega)
      have hbusy := h.busy htrue p hp ((hoverlaps hp).mpr hfirst)
      exact absurd ((hfree p).mpr ⟨hf, fun hin => hvisited hin.2.1⟩) (by simp [hbusy])
  · intro h
    refine ⟨fun _ p hp ho => ?_, fun _ p ho => Bool.eq_iff_iff.mpr ?_,
      fun hfalse p => Bool.eq_iff_iff.mpr ?_⟩
    · rw [← Bool.not_eq_true, hfree]
      rintro ⟨hf, hout⟩
      have hfirst := (hoverlaps hp).mp ho
      rcases h p hfirst hp hf with hle | ⟨rfl, hagain⟩ <;> omega
    · rw [hfree, and_iff_left_iff_imp]
      rintro - ⟨hfirst, -, hp⟩
      exact ho ((hoverlaps hp).mpr hfirst)
    · rw [← Bool.not_eq_true, hok] at hfalse
      rw [hfree, and_iff_left_iff_imp]
      rintro hf ⟨hfirst, -, hp⟩
      rcases h p hfirst hp hf with hle | ⟨rfl, hagain⟩ <;> omega

theorem reservesExactly_iff (h : Reachable s) (hi : s.initialized = true)
    (hword : length < 2 ^ 64) : ReservesExactly s address length ↔ Reservable s address length := by
  have hend := h.memoryEnd_eq hi
  by_cases hl : length = 0
  · subst hl
    refine iff_of_true reservesExactly_zero fun p hfirst hp _ => Or.inl ?_
    unfold kPageSize at *
    omega
  by_cases hle : address + length ≤ s.memoryEnd
  · exact iff_of_true (reservesExactly_of_le hi hl hend hle) fun _ _ _ _ => Or.inl hle
  by_cases ha : address / kPageSize < s.pageCount
  · exact reservesExactly_iff_of_lt hi hl hend (by omega) ha hword
  refine iff_of_true ?_ fun p hfirst hp => by omega
  obtain ⟨-, hfree⟩ := reserveRange_exact address hi hl
  have hsame : ∀ p, (s.reserveRange address length).2.isFree p = s.isFree p := by
    intro p
    rw [Bool.eq_iff_iff, hfree, and_iff_left_iff_imp]
    omega
  refine ⟨fun _ p hp ho => ?_, fun _ p _ => hsame p, fun _ => hsame⟩
  exact absurd (overlaps_iff.mp ho).2.1 (by omega)

/-! ## The boot-time reservation -/

/-- A range that stays below the last address is clipped to memory and reserved. -/
theorem reserveTracked_busy (h : Reachable s) (hi : s.initialized = true) (hl : length ≠ 0)
    (ha : address < s.memoryEnd) (hwrap : address + length < 2 ^ 64) {p : Nat}
    (hp : p < s.pageCount) (ho : Overlaps address length p) :
    (s.reserveTrackedPhysicalRange address length).isFree p = false := by
  have hend := h.memoryEnd_eq hi
  obtain ⟨-, hfirst, hlast⟩ := overlaps_iff.mp ho
  have hclamp : ∃ stop, address < stop ∧ stop ≤ s.memoryEnd ∧ p * kPageSize < stop ∧
      s.reserveTrackedPhysicalRange address length =
        (s.reserveRange address (stop - address)).2 := by
    unfold reserveTrackedPhysicalRange
    rw [if_neg (by omega), u64_of_lt hwrap]
    refine ⟨if address + length < s.memoryEnd then address + length else s.memoryEnd, ?_, ?_, ?_,
      if_pos ?_⟩
    all_goals
      unfold kPageSize at *
      split <;> omega
  obtain ⟨stop, hpos, hle, hin, heq⟩ := hclamp
  have hsum : address + (stop - address) = stop := by omega
  rw [heq, ← Bool.not_eq_true,
    (reserveRange_exact address hi (by omega : stop - address ≠ 0)).2]
  refine fun hf => hf.2 ⟨hfirst, ?_, hp⟩
  exact (reserveStop_of_le hend (by omega) p).mpr (by omega)

/-- A range that wraps is not reserved at all. -/
theorem reserveTracked_wrapped (ha : address < 2 ^ 64) (hword : length < 2 ^ 64)
    (hwrap : 2 ^ 64 ≤ address + length) :
    s.reserveTrackedPhysicalRange address length = s := by
  have hsum : u64 (address + length) = address + length - 2 ^ 64 := by
    unfold u64
    omega
  unfold reserveTrackedPhysicalRange
  split
  · rfl
  · rw [hsum]
    exact if_neg (by split <;> omega)

theorem reservesTracked_iff (h : Reachable s) (hi : s.initialized = true) (ha : address < 2 ^ 64)
    (hword : length < 2 ^ 64) : ReservesTracked s address length ↔
      ∀ p, address / kPageSize ≤ p → p < s.pageCount → s.isFree p = true →
        address + length < 2 ^ 64 := by
  have hend := h.memoryEnd_eq hi
  have htracked : ∀ p, p * kPageSize < s.memoryEnd ↔ p < s.pageCount := fun p => by
    unfold kPageSize at *
    omega
  by_cases hwrap : address + length < 2 ^ 64
  · refine iff_of_true (fun p hp ho => ?_) fun _ _ _ _ => hwrap
    obtain ⟨hpos, hfirst, -⟩ := overlaps_iff.mp ho
    refine reserveTracked_busy h hi (by omega) ?_ hwrap ((htracked p).mp hp) ho
    unfold kPageSize at *
    omega
  · unfold ReservesTracked
    rw [reserveTracked_wrapped ha hword (by omega)]
    constructor
    · intro hbusy p hfirst hp hf
      have ho : Overlaps address length p := overlaps_iff.mpr ⟨by omega, hfirst, by
        unfold kPageSize at *
        omega⟩
      exact absurd hf (by simp [hbusy p ((htracked p).mpr hp) ho])
    · intro hnone p hp ho
      rw [← Bool.not_eq_true]
      exact fun hf => hwrap (hnone p (overlaps_iff.mp ho).2.1 ((htracked p).mp hp) hf)

/-- Both reservations keep their promise exactly when the end of the range neither wraps nor, in
`reserve_range`, lies above memory, as long as there is a free frame to lose. -/
theorem reserve_exact_iff (h : Reachable s) (hi : s.initialized = true)
    (address length : BitVec 64) :
    (ReservesExactly s address.toNat length.toNat ↔
      ∀ p, address.toNat / kPageSize ≤ p → p < s.pageCount → s.isFree p = true →
        address.toNat + length.toNat ≤ s.memoryEnd ∨
          p = address.toNat / kPageSize ∧ 2 ^ 64 + p * kPageSize < address.toNat + length.toNat) ∧
    (ReservesTracked s address.toNat length.toNat ↔
      ∀ p, address.toNat / kPageSize ≤ p → p < s.pageCount → s.isFree p = true →
        address.toNat + length.toNat < 2 ^ 64) :=
  ⟨reservesExactly_iff h hi length.isLt, reservesTracked_iff h hi address.isLt length.isLt⟩

/-- Two pages of the booted container are reserved, and nothing else. -/
theorem reserve_exact_iff_booted :
    ReservesExactly bootedFrames 0x201000 0x1001 ∧
      ReservesTracked bootedFrames 0x201000 0x1001 := by
  obtain ⟨hrange, htracked⟩ := reserve_exact_iff reachable_booted rfl 0x201000#64 0x1001#64
  exact ⟨hrange.mpr fun _ _ _ _ => Or.inl (by decide +kernel),
    htracked.mpr fun _ _ _ _ => by decide⟩

/-- The last frame of memory is free. A range over it and the frame behind it is refused, but the
frame is busy then. A range from it that wraps to its own start is accepted by both calls, but the
frame stays free. -/
theorem refused_range_is_kept :
    ((bootedFrames.reserveRange 0x20F000 0x2000).1 = false ∧
      ¬ ReservesExactly bootedFrames 0x20F000 0x2000) ∧
    ((bootedFrames.reserveRange 0x20F000 (2 ^ 64 - 0x1000)).1 = true ∧
      ¬ ReservesExactly bootedFrames 0x20F000 (2 ^ 64 - 0x1000)) ∧
    ¬ ReservesTracked bootedFrames 0x20F000 (2 ^ 64 - 0x1000) := by
  have hfree : bootedFrames.isFree 0x20F = true := by decide +kernel
  have hfalse : (bootedFrames.reserveRange 0x20F000 0x2000).1 = false := by decide +kernel
  have hlost : (bootedFrames.reserveRange 0x20F000 0x2000).2.isFree 0x20F = false := by
    decide +kernel
  have htrue : (bootedFrames.reserveRange 0x20F000 (2 ^ 64 - 0x1000)).1 = true := by
    decide +kernel
  have hleft : (bootedFrames.reserveRange 0x20F000 (2 ^ 64 - 0x1000)).2.isFree 0x20F = true ∧
      (bootedFrames.reserveTrackedPhysicalRange 0x20F000 (2 ^ 64 - 0x1000)).isFree 0x20F =
        true := by
    decide +kernel
  have hover : Overlaps 0x20F000 (2 ^ 64 - 0x1000) 0x20F :=
    ⟨0x20F000, by decide, by decide, by decide⟩
  refine ⟨⟨hfalse, fun h => ?_⟩, ⟨htrue, fun h => ?_⟩, fun h => ?_⟩
  · cases hlost.symm.trans ((h.failed hfalse 0x20F).trans hfree)
  · cases hleft.1.symm.trans (h.busy htrue 0x20F (by decide +kernel) hover)
  · cases hleft.2.symm.trans (h 0x20F (by decide +kernel) hover)

end Os1.PageFrameContainer
