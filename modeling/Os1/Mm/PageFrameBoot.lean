import Os1.Mm.PageFrameInit

/-! What `initialize` leaves in the bitmap, in terms of the memory map it was given. -/
namespace Os1.PageFrameContainer

open Bitmap

variable {s s₀ : PageFrameContainer} {regions : List BootMemoryRegion}
  {b : BootMemoryRegion} {bitmapAddress bitmapLimit p q w : Nat}

/-! ## Words that are written -/

theorem paintPages_above {words : Words} {startPage endPage : Nat} (h : startPage < endPage)
    (hw : endPage ≤ w * 64) : paintPages words startPage endPage w = words w := by
  have hlast : w ≠ (endPage - 1) / 64 := by omega
  have hfirst : w ≠ startPage / 64 := by omega
  unfold paintPages
  simp only
  split
  · simp [orWord, hfirst]
  · have hspan : ∀ c : Words,
        (if startPage / 64 + 1 < (endPage - 1) / 64 then
          memsetOnes c (startPage / 64 + 1) ((endPage - 1) / 64) else c) w = c w := by
      intro c
      split
      · exact if_neg (by omega)
      · rfl
    simp only [orWord, hlast, if_false, hspan, hfirst]

theorem paintRegion_above (h : s.memoryEndAddress >>> 12 ≤ w * 64) (b : BootMemoryRegion) :
    (s.paintRegion b).bitmap w = s.bitmap w ∧
      (s.paintRegion b).memoryEndAddress = s.memoryEndAddress := by
  rcases paintRegion_cases s b with hs | ⟨startPage, endPage, hlt, hle, hs⟩
  · rw [hs]
    exact ⟨rfl, rfl⟩
  · rw [hs]
    exact ⟨paintPages_above hlt (hle.trans h), rfl⟩

theorem foldl_paintRegion_above (regions : List BootMemoryRegion)
    (h : s.memoryEndAddress >>> 12 ≤ w * 64) :
    (regions.foldl paintRegion s).bitmap w = s.bitmap w := by
  induction regions generalizing s with
  | nil => rfl
  | cons b regions ih =>
    obtain ⟨hb, hm⟩ := paintRegion_above h b
    exact (ih (by rw [hm]; exact h)).trans hb

theorem markBusyCounted_above (h : s.pageCount ≤ w * 64) (p : Nat) :
    (s.markBusyCounted p).bitmap w = s.bitmap w ∧
      (s.markBusyCounted p).pageCount = s.pageCount := by
  unfold markBusyCounted
  split
  · rename_i hp
    refine ⟨?_, (take_shape s p).pageCount⟩
    change (s.take p).bitmap w = s.bitmap w
    rw [take_bitmap]
    exact if_neg (by omega)
  · exact ⟨rfl, rfl⟩

theorem markBusyRange_above (h : s.pageCount ≤ w * 64) (start stop : Nat) :
    (s.markBusyRange start stop).bitmap w = s.bitmap w ∧
      (s.markBusyRange start stop).pageCount = s.pageCount := by
  unfold markBusyRange
  generalize List.range (pageTurns start stop) = turns
  induction turns generalizing s with
  | nil => exact ⟨rfl, rfl⟩
  | cons k turns ih =>
    obtain ⟨hb, hp⟩ := markBusyCounted_above h ((start + k * kPageSize) >>> 12)
    obtain ⟨ib, ip⟩ := ih (s := s.markBusyCounted ((start + k * kPageSize) >>> 12))
      (by rw [hp]; exact h)
    exact ⟨ib.trans hb, ip.trans hp⟩

theorem reserveBootPages_above (h : s.pageCount ≤ w * 64) :
    s.reserveBootPages.bitmap w = s.bitmap w := by
  unfold reserveBootPages
  simp only
  obtain ⟨b1, p1⟩ := markBusyRange_above h s.bitmapPhysicalAddress s.bitmapEnd
  generalize s.markBusyRange s.bitmapPhysicalAddress s.bitmapEnd = s₁ at b1 p1 ⊢
  rw [← p1] at h
  obtain ⟨b2, p2⟩ := markBusyRange_above h 0 kEarlyReservedPhysicalEnd
  generalize s₁.markBusyRange 0 kEarlyReservedPhysicalEnd = s₂ at b2 p2 ⊢
  rw [← p2] at h
  rw [(markBusyRange_above h _ _).1, b2, b1]

theorem paintBitmap_above (hm : s.memoryEndAddress >>> 12 ≤ w * 64) (hw : s.bitmapSize ≤ w) :
    (s.paintBitmap regions).bitmap w = s.bitmap w :=
  (foldl_paintRegion_above regions
    (s := { s with bitmap := fun w => if w < s.bitmapSize then 0#64 else s.bitmap w }) hm).trans
    (if_neg (by omega))

theorem initializeFrames_above {r : Bool}
    (h : s₀.initializeFrames regions bitmapAddress bitmapLimit = some (r, s))
    (hw : bitmapLimit ≤ w) : s.bitmap w = s₀.bitmap w := by
  rcases initializeFrames_cases h with
    ⟨-, -, rfl⟩ | ⟨-, size, stop, hend, ⟨-, rfl⟩ | ⟨-, -, hs⟩⟩
  · rfl
  · rfl
  · generalize hu : (s₀.measured bitmapAddress bitmapLimit size stop).sizeBitmap = u at hs
    have hsize : u.bitmapSize ≤ bitmapLimit := by
      rw [← hu]
      exact sizeBitmap_fits hend.le_max
    have hend : u.memoryEndAddress >>> 12 ≤ u.bitmapSize * 64 ∧
        u.pageCount = u.memoryEndAddress >>> 12 ∧ u.bitmap = s₀.bitmap := by
      subst hu
      refine ⟨?_, rfl, rfl⟩
      change stop >>> 12 ≤ ((stop >>> 12 + 7) / 8 + 7) / 8 * 64
      omega
    have hcount : (u.paintBitmap regions).pageCount = u.pageCount := by
      obtain ⟨c, hc, -⟩ := foldl_paintRegion regions
        { u with bitmap := fun w => if w < u.bitmapSize then 0#64 else u.bitmap w }
      simp only [paintBitmap, hc]
    have hpages : u.memoryEndAddress >>> 12 ≤ w * 64 := by omega
    have hlast : s.bitmap = (u.paintBitmap regions).reserveBootPages.bitmap := by rw [hs]
    rw [hlast, reserveBootPages_above (by rw [hcount, hend.2.1]; exact hpages),
      paintBitmap_above hpages (hsize.trans hw), hend.2.2]

/-! ## Pages that are free -/

/-- The page lies wholly inside the region. -/
def InRegion (b : BootMemoryRegion) (p : Nat) : Prop :=
  b.physicalStart ≤ p * kPageSize ∧ (p + 1) * kPageSize ≤ b.physicalStart + b.length

/-- The page meets the address range `[start, stop)`. -/
def Meets (start stop p : Nat) : Prop := p * kPageSize < stop ∧ start < (p + 1) * kPageSize

/-- The end of a region, rounded down to a page and clipped to what the bitmap describes. -/
def trackableEnd (bitmapLimit : Nat) (b : BootMemoryRegion) : Nat :=
  min ((b.physicalStart + b.length) / kPageSize) (bitmapLimit * 64) * kPageSize

theorem visits_iff {start : Nat} (hstart : start % kPageSize = 0) (stop p : Nat) :
    Visits start stop p ↔ Meets start stop p := by
  unfold Visits Meets pageTurns
  simp only [Nat.shiftRight_eq_div_pow]
  unfold kPageSize at *
  constructor
  · rintro ⟨k, hk, rfl⟩
    omega
  · intro h
    exact ⟨p - start / 0x1000, by omega, by omega⟩

theorem alignUpPage_eq {v : Nat} (hv : v ≤ 2 ^ 52) :
    alignUpPage v = (v + 0xFFF) / kPageSize * kPageSize :=
  alignUp_eq (k := 12) (by decide) (by omega)

theorem alignDownPage_eq {v : Nat} (hv : v ≤ 2 ^ 52) :
    alignDownPage v = v / kPageSize * kPageSize :=
  alignDown_eq (k := 12) (by decide) (by omega)

theorem maxTrackableEnd_eq (h : bitmapLimit < 2 ^ 34) :
    maxTrackableEnd bitmapLimit = bitmapLimit * 64 * kPageSize := by
  have hpages : u64 (bitmapLimit * 64) = bitmapLimit * 64 := u64_of_lt (by omega)
  unfold maxTrackableEnd kPageSize
  rw [hpages, u64_of_lt (by omega)]

section

variable (hb : b.physicalStart + b.length ≤ 2 ^ 52)
include hb

theorem covers_iff (memoryEnd p : Nat) :
    Covers memoryEnd b p ↔
      bootMemoryRegionIsUsable b = true ∧ InRegion b p ∧ p < memoryEnd / kPageSize := by
  unfold Covers InRegion
  rw [u64_of_lt (by omega), alignUpPage_eq (by omega), alignDownPage_eq hb]
  simp only [Nat.shiftRight_eq_div_pow]
  unfold kPageSize
  refine and_congr_right fun _ => ?_
  omega

theorem clippedEnd_eq (hlimit : bitmapLimit < 2 ^ 34) :
    clippedEnd (maxTrackableEnd bitmapLimit) b = trackableEnd bitmapLimit b := by
  unfold clippedEnd trackableEnd
  rw [maxTrackableEnd_eq hlimit, u64_of_lt (by omega), alignDownPage_eq hb]
  unfold kPageSize
  omega

theorem counts_iff (hlimit : bitmapLimit < 2 ^ 34) :
    Counts (maxTrackableEnd bitmapLimit) b ↔
      bootMemoryRegionIsUsable b = true ∧ ∃ p, InRegion b p ∧ p < bitmapLimit * 64 := by
  unfold Counts
  rw [clippedEnd_eq hb hlimit, alignUpPage_eq (by omega)]
  unfold trackableEnd InRegion kPageSize
  refine and_congr_right fun _ => ⟨fun h => ⟨(b.physicalStart + 0xFFF) / 0x1000, ?_⟩, ?_⟩
  · omega
  · rintro ⟨p, hp⟩
    omega

end

/-- The pages that initialisation reserves, for pages of the 52-bit address space. An
end of the bitmap that wraps around leaves only pages above that space. -/
theorem initReserved_iff (haddr : bitmapAddress % kPageSize = 0) (hword : bitmapAddress < 2 ^ 64)
    (hlimit : bitmapLimit < 2 ^ 34) (hp : p < 2 ^ 40) :
    InitReserved bitmapAddress bitmapLimit p ↔
      Meets bitmapAddress (bitmapAddress + bitmapLimit * 8) p ∨
        Meets 0 kEarlyReservedPhysicalEnd p ∨
        Meets kKernelReservedPhysicalStart kKernelReservedPhysicalEnd p := by
  unfold InitReserved
  rw [visits_iff haddr, visits_iff rfl, visits_iff rfl]
  refine or_congr ?_ Iff.rfl
  unfold Meets u64 kPageSize at *
  omega

section

variable (hregions : ∀ b ∈ regions, b.physicalStart + b.length ≤ 2 ^ 52)
  (hlimit : bitmapLimit < 2 ^ 34)
  (h : s₀.initializeFrames regions bitmapAddress bitmapLimit = some (true, s))
include hregions hlimit h

theorem initializeFrames_free_iff (haddr : bitmapAddress % kPageSize = 0)
    (hword : bitmapAddress < 2 ^ 64) (p : Nat) :
    p < s.pageCount ∧ s.isFree p = true ↔
      (∃ b ∈ regions, bootMemoryRegionIsUsable b = true ∧ InRegion b p) ∧
        p < bitmapLimit * 64 ∧ ¬ Meets bitmapAddress (bitmapAddress + bitmapLimit * 8) p ∧
        ¬ Meets 0 kEarlyReservedPhysicalEnd p ∧
        ¬ Meets kKernelReservedPhysicalStart kKernelReservedPhysicalEnd p := by
  have hwide : ∀ b ∈ regions, u64 (b.physicalStart + b.length) ≤ 2 ^ 40 * kPageSize :=
    fun b hb => (Nat.mod_le _ _).trans ((hregions b hb).trans (by decide))
  obtain ⟨ht, -, hpages, hend, -, hfree⟩ := initializeFrames_tracked hwide h
  have hres (hp : p < s.pageCount) :=
    initReserved_iff haddr hword hlimit (hp.trans_le ht.bounded)
  constructor
  · rintro ⟨hp, hf⟩
    obtain ⟨⟨b, hb, hc⟩, hnot⟩ := (hfree p hp).mp hf
    obtain ⟨hu, hin, -⟩ := (covers_iff (hregions b hb) _ _).mp hc
    rw [hres hp, not_or, not_or] at hnot
    have hmax := hend.le_max
    rw [hpages, maxTrackableEnd_eq hlimit] at hmax
    exact ⟨⟨b, hb, hu, hin⟩, hp.trans_le (Nat.le_of_mul_le_mul_right hmax (by decide)), hnot⟩
  · rintro ⟨⟨b, hb, hu, hin⟩, hlim, hnot⟩
    -- The region holds a trackable page, so the first pass has raised the end above it.
    have hle := hend.upper b hb ((counts_iff (hregions b hb) hlimit).mpr ⟨hu, p, hin, hlim⟩)
    rw [clippedEnd_eq (hregions b hb) hlimit, hpages] at hle
    have hp : p < s.pageCount := by
      have hstop := Nat.le_of_mul_le_mul_right hle (by decide)
      have hlast := hin.2
      unfold kPageSize at hstop hlast
      omega
    have hcount : s.memoryEndAddress / kPageSize = s.pageCount := by
      rw [hpages]
      exact Nat.mul_div_cancel _ (by decide)
    refine ⟨hp, (hfree p hp).mpr ⟨⟨b, hb, ?_⟩, ?_⟩⟩
    · rw [covers_iff (hregions b hb), hcount]
      exact ⟨hu, hin, hp⟩
    · rw [hres hp, not_or, not_or]
      exact hnot

theorem initializeFrames_memoryEnd :
    IsGreatest { e | ∃ b ∈ regions, bootMemoryRegionIsUsable b = true ∧
      (∃ p, InRegion b p ∧ p < bitmapLimit * 64) ∧ e = trackableEnd bitmapLimit b }
      s.memoryEndAddress := by
  have hwide : ∀ b ∈ regions, u64 (b.physicalStart + b.length) ≤ 2 ^ 40 * kPageSize :=
    fun b hb => (Nat.mod_le _ _).trans ((hregions b hb).trans (by decide))
  obtain ⟨-, -, -, hend, hpos, -⟩ := initializeFrames_tracked hwide h
  constructor
  · rcases hend.attained with hz | ⟨b, hb, hc, he⟩
    · omega
    · obtain ⟨hu, hin⟩ := (counts_iff (hregions b hb) hlimit).mp hc
      exact ⟨b, hb, hu, hin, by rw [← he, clippedEnd_eq (hregions b hb) hlimit]⟩
  · rintro e ⟨b, hb, hu, hin, rfl⟩
    rw [← clippedEnd_eq (hregions b hb) hlimit]
    exact hend.upper b hb ((counts_iff (hregions b hb) hlimit).mpr ⟨hu, hin⟩)

end

/-- After an accepted memory map a tracked page is free exactly when one usable region
holds all of it, the bitmap can describe it, and no boot reservation meets it. The memory
end is the largest clipped region end, and no word past the bitmap's limit is written. -/
theorem initialize_exact (hregions : ∀ b ∈ regions, b.physicalStart + b.length ≤ 2 ^ 52)
    (hlimit : bitmapLimit < 2 ^ 34) (haddr : bitmapAddress % kPageSize = 0)
    (hword : bitmapAddress < 2 ^ 64)
    (h : s₀.initializeFrames regions bitmapAddress bitmapLimit = some (true, s)) :
    (∀ p, p < s.pageCount ∧ s.isFree p = true ↔
      (∃ b ∈ regions, bootMemoryRegionIsUsable b = true ∧ InRegion b p) ∧
        p < bitmapLimit * 64 ∧ ¬ Meets bitmapAddress (bitmapAddress + bitmapLimit * 8) p ∧
        ¬ Meets 0 kEarlyReservedPhysicalEnd p ∧
        ¬ Meets kKernelReservedPhysicalStart kKernelReservedPhysicalEnd p) ∧
      IsGreatest { e | ∃ b ∈ regions, bootMemoryRegionIsUsable b = true ∧
        (∃ p, InRegion b p ∧ p < bitmapLimit * 64) ∧ e = trackableEnd bitmapLimit b }
        s.memoryEndAddress ∧
      ∀ w, bitmapLimit ≤ w → s.bitmap w = s₀.bitmap w :=
  ⟨initializeFrames_free_iff hregions hlimit h haddr hword,
    initializeFrames_memoryEnd hregions hlimit h, fun _ hw => initializeFrames_above h hw⟩

/-- Sixteen pages at 2 MiB: the first is free, and the memory ends after the last. -/
theorem initialize_exact_booted :
    bootedFrames.isFree 0x200 = true ∧ IsGreatest { e | ∃ b ∈
        [(⟨0x200000, 0x10000, .usable⟩ : BootMemoryRegion)],
        bootMemoryRegionIsUsable b = true ∧
        (∃ p, InRegion b p ∧ p < 64 * 64) ∧ e = trackableEnd 64 b }
      bootedFrames.memoryEndAddress := by
  have hall := initialize_exact (by simp) (by decide) (by decide) (by decide) bootedFrames_init
  refine ⟨((hall.1 0x200).mpr ⟨⟨_, List.mem_singleton_self _, by decide, ?_⟩, ?_⟩).2, hall.2.1⟩
  · unfold InRegion kPageSize
    decide
  · unfold Meets kPageSize kEarlyReservedPhysicalEnd kKernelReservedPhysicalStart
      kKernelReservedPhysicalEnd
    decide

end Os1.PageFrameContainer
