import Os1.Mm.PageFrameSpec

/-!
# Runs of the page-frame allocator

A ledger keeps, next to the allocator, who holds which page: the pages of every live
allocation, the pages of every reservation that returned true without wrapping, and
those of the latter that no live allocation held at the time.
-/

namespace Os1

open PageFrameContainer

inductive FrameOp
  | allocate
  | allocateRun (count : Nat)
  | free (address : Nat)
  | reserveRange (address length : Nat)

structure Ledger where
  frames : PageFrameContainer
  live : List (List Nat)
  reserved : Set Nat
  pinned : Set Nat

namespace Ledger

variable {l : Ledger} {s : PageFrameContainer} {limit : Nat}

def start (s : PageFrameContainer) : Ledger := ⟨s, [], ∅, ∅⟩

/-- No live allocation holds the page. -/
def Unheld (l : Ledger) (p : Nat) : Prop := ∀ pages ∈ l.live, p ∉ pages

/-- One call, with its effect on who holds which page. -/
def step (l : Ledger) : FrameOp → Ledger
  | .allocate =>
    match l.frames.allocate with
    | some (a, frames) => { l with frames := frames, live := [a >>> 12] :: l.live }
    | none => l
  | .allocateRun count =>
    match l.frames.allocateRun count with
    | some (a, frames) =>
      { l with frames := frames, live := (List.range count).map (a >>> 12 + ·) :: l.live }
    | none => l
  | .free a =>
    { l with
      frames := (l.frames.free a).2
      live := if (l.frames.free a).1 then
          l.live.map (fun pages => pages.filter (fun p => p ≠ a >>> 12))
        else l.live }
  | .reserveRange a n =>
    { l with
      frames := (l.frames.reserveRange a n).2
      reserved := l.reserved ∪ { p | (l.frames.reserveRange a n).1 = true ∧
        a + n + kPageSize - 1 < 2 ^ 64 ∧ Requested a n p }
      pinned := l.pinned ∪ { p | ((l.frames.reserveRange a n).1 = true ∧
        a + n + kPageSize - 1 < 2 ^ 64 ∧ Requested a n p) ∧ Unheld l p } }

def run (l : Ledger) (ops : List FrameOp) : Ledger := ops.foldl step l

/-- Every `free` of the run gives back a page that is allocated at that time. -/
def FreesLive : Ledger → List FrameOp → Prop
  | _, [] => True
  | l, .free a :: ops =>
    (a % kPageSize = 0 ∧ ¬ Unheld l (a >>> 12)) ∧ FreesLive (l.step (.free a)) ops
  | l, op :: ops => FreesLive (l.step op) ops

/-! ## The counter -/

theorem step_tracked (h : TrackedTo limit l.frames) (hlimit : limit < 2 ^ 64) (op : FrameOp) :
    TrackedTo limit (l.step op).frames ∧ SameShape l.frames (l.step op).frames := by
  cases op with
  | allocate =>
    cases ha : l.frames.allocate with
    | none => simpa only [step, ha] using ⟨h, SameShape.refl _⟩
    | some r =>
      obtain ⟨p, -, hp, hf, he, -⟩ := allocate_some h ha
      simp only [step, ha, he]
      exact ⟨h.take hp hf, take_shape _ p⟩
  | allocateRun count =>
    cases ha : l.frames.allocateRun count with
    | none => simpa only [step, ha] using ⟨h, SameShape.refl _⟩
    | some r =>
      obtain ⟨p, -, -, -, -, ht, hs, -⟩ := allocateRun_some h ha
      simpa only [step, ha] using ⟨ht, hs⟩
  | free a => exact free_spec h a hlimit
  | reserveRange a n =>
    have := reserveRange_spec h a n
    exact ⟨this.1, this.2.1⟩

theorem run_tracked (h : Tracked l.frames) (ops : List FrameOp) :
    Tracked (l.run ops).frames ∧ SameShape l.frames (l.run ops).frames := by
  induction ops generalizing l with
  | nil => exact ⟨h, SameShape.refl _⟩
  | cons op ops ih =>
    obtain ⟨h1, h2⟩ := step_tracked h (by decide) op
    obtain ⟨i1, i2⟩ := ih h1
    exact ⟨i1, h2.trans i2⟩

/-! ## Who holds which page -/

/-- The ledger invariant over the pages `initial` taken at initialisation: held, pinned and
initially reserved pages are busy, and the first kind meets neither of the others. -/
structure Held (initial : Nat → Prop) (l : Ledger) : Prop where
  tracked : Tracked l.frames
  disjoint : l.live.Pairwise List.Disjoint
  busy : ∀ pages ∈ l.live, ∀ p ∈ pages, p < l.frames.pageCount ∧ l.frames.isFree p = false
  apart : ∀ pages ∈ l.live, ∀ p ∈ pages, ¬ initial p ∧ p ∉ l.pinned
  pinnedBusy : ∀ p ∈ l.pinned, l.frames.isFree p = false
  initialBusy : ∀ p, initial p → p < l.frames.pageCount → l.frames.isFree p = false

variable {initial : Nat → Prop}

theorem held_of_smaller {frames : PageFrameContainer} (h : Held initial l)
    (ht : Tracked frames) (hs : SameShape l.frames frames)
    (hle : ∀ q, frames.isFree q = true → l.frames.isFree q = true) :
    Held initial { l with frames := frames } := by
  have hbusy : ∀ q, l.frames.isFree q = false → frames.isFree q = false := by
    intro q hq
    by_contra hne
    rw [hle q (by simpa using hne)] at hq
    simp at hq
  refine ⟨ht, h.disjoint, ?_, h.apart, fun p hp => hbusy p (h.pinnedBusy p hp), ?_⟩
  · intro pages hm p hp
    rw [hs.pageCount]
    exact ⟨(h.busy pages hm p hp).1, hbusy p (h.busy pages hm p hp).2⟩
  · intro p hp hlt
    rw [hs.pageCount] at hlt
    exact hbusy p (h.initialBusy p hp hlt)

/-- Pages that were free before an allocation belong to nobody. -/
theorem held_allocated {frames : PageFrameContainer} {pages : List Nat} (h : Held initial l)
    (ht : Tracked frames) (hs : SameShape l.frames frames)
    (hle : ∀ q, frames.isFree q = true → l.frames.isFree q = true)
    (hnew : ∀ p ∈ pages, p < l.frames.pageCount ∧ l.frames.isFree p = true ∧
      frames.isFree p = false) :
    Held initial { l with frames := frames, live := pages :: l.live } := by
  have hsm := held_of_smaller h ht hs hle
  refine ⟨ht, ?_, ?_, ?_, hsm.pinnedBusy, hsm.initialBusy⟩
  · refine List.pairwise_cons.mpr ⟨?_, h.disjoint⟩
    intro other ho p hp hp'
    have := (h.busy other ho p hp').2
    rw [(hnew p hp).2.1] at this
    simp at this
  · intro other ho p hp
    rcases List.mem_cons.mp ho with rfl | ho
    · exact ⟨by rw [hs.pageCount]; exact (hnew p hp).1, (hnew p hp).2.2⟩
    · exact hsm.busy other ho p hp
  · intro other ho p hp
    rcases List.mem_cons.mp ho with rfl | ho
    · have hfree := (hnew p hp).2.1
      constructor
      · intro hi
        rw [h.initialBusy p hi (hnew p hp).1] at hfree
        simp at hfree
      · intro hi
        rw [h.pinnedBusy p hi] at hfree
        simp at hfree
    · exact h.apart other ho p hp

theorem held_step_allocate (h : Held initial l) : Held initial (l.step .allocate) := by
  cases ha : l.frames.allocate with
  | none => simpa only [step, ha] using h
  | some r =>
    obtain ⟨a, frames⟩ := r
    obtain ⟨p, hap, hp, hf, he, -⟩ := allocate_some h.tracked ha
    have hpage : a >>> 12 = p := by
      rw [hap, Nat.shiftRight_eq_div_pow]
      unfold kPageSize
      omega
    simp only [step, ha, hpage]
    subst he
    refine held_allocated h (h.tracked.take hp hf) (take_shape _ p) ?_ ?_
    · intro q hq
      rw [isFree_take] at hq
      simp only [Bool.and_eq_true] at hq
      exact hq.1
    · intro q hq
      obtain rfl : q = p := by simpa using hq
      exact ⟨hp, hf, by simp [isFree_take]⟩

theorem held_step_allocateRun (h : Held initial l) (count : Nat) :
    Held initial (l.step (.allocateRun count)) := by
  cases ha : l.frames.allocateRun count with
  | none => simpa only [step, ha] using h
  | some r =>
    obtain ⟨a, frames⟩ := r
    obtain ⟨p, hap, -, hfit, hfree, ht, hs, hq⟩ := allocateRun_some h.tracked ha
    have hpage : a >>> 12 = p := by
      rw [hap, Nat.shiftRight_eq_div_pow]
      unfold kPageSize
      omega
    simp only [step, ha, hpage]
    refine held_allocated h ht hs ?_ ?_
    · intro q hq'
      rw [hq] at hq'
      simp only [Bool.and_eq_true] at hq'
      exact hq'.1
    · intro q hmem
      obtain ⟨k, hk, rfl⟩ := List.mem_map.mp hmem
      rw [List.mem_range] at hk
      refine ⟨by omega, hfree _ (by omega) (by omega), ?_⟩
      rw [hq]
      simp [hk]

theorem held_step_free {a : Nat} (h : Held initial l)
    (hlive : a % kPageSize = 0 ∧ ¬ Unheld l (a >>> 12)) :
    Held initial (l.step (.free a)) := by
  obtain ⟨ht, hs⟩ := free_spec h.tracked a
  by_cases hok : (l.frames.free a).1 = true
  swap
  · have hsame : (l.frames.free a).2 = l.frames := by
      rw [free_of_not_frees (fun hf => hok ((free_fst _ _).mpr hf))]
    simpa [step, hok, hsame] using h
  -- The page given back is held, so it is neither pinned nor taken at initialisation.
  obtain ⟨pages, hm, hp⟩ : ∃ pages ∈ l.live, a >>> 12 ∈ pages := by
    simpa [Unheld] using hlive.2
  have hap := h.apart pages hm _ hp
  have hbusy : ∀ q, l.frames.isFree q = false → q ≠ a >>> 12 →
      (l.frames.free a).2.isFree q = false := by
    intro q hq hne
    by_contra hc
    rcases (isFree_free _ _ _).mp (by simpa using hc) with hf | ⟨-, hf⟩
    · rw [hf] at hq
      simp at hq
    · exact hne hf
  have hmem : ∀ other ∈ l.live.map (fun pages => pages.filter (fun p => p ≠ a >>> 12)),
      ∀ p ∈ other, p ≠ a >>> 12 ∧ ∃ o ∈ l.live, p ∈ o := by
    intro other ho p hp
    obtain ⟨o, hol, rfl⟩ := List.mem_map.mp ho
    have := List.mem_filter.mp hp
    exact ⟨by simpa using this.2, o, hol, this.1⟩
  simp only [step, hok, if_true]
  refine ⟨ht, ?_, ?_, ?_, ?_, ?_⟩
  · refine List.Pairwise.map _ ?_ h.disjoint
    intro x y hxy p hpx hpy
    exact hxy (List.mem_filter.mp hpx).1 (List.mem_filter.mp hpy).1
  · intro other ho p hp
    obtain ⟨hne, o, ho, hpo⟩ := hmem other ho p hp
    rw [hs.pageCount]
    exact ⟨(h.busy o ho p hpo).1, hbusy p (h.busy o ho p hpo).2 hne⟩
  · intro other ho p hp
    obtain ⟨-, o, ho, hpo⟩ := hmem other ho p hp
    exact h.apart o ho p hpo
  · intro p hp
    exact hbusy p (h.pinnedBusy p hp) (fun he => hap.2 (he ▸ hp))
  · intro p hi hlt
    rw [hs.pageCount] at hlt
    exact hbusy p (h.initialBusy p hi hlt) (fun he => hap.1 (he ▸ hi))

theorem held_step_reserveRange (h : Held initial l) (a n : Nat) :
    Held initial (l.step (.reserveRange a n)) := by
  obtain ⟨ht, hs, hle, hreq⟩ := reserveRange_spec h.tracked a n
  have hsm := held_of_smaller h ht hs hle
  refine ⟨ht, h.disjoint, hsm.busy, ?_, ?_, hsm.initialBusy⟩
  · intro pages hm p hp
    refine ⟨(h.apart pages hm p hp).1, ?_⟩
    rintro (hpin | ⟨-, hun⟩)
    · exact (h.apart pages hm p hp).2 hpin
    · exact hun pages hm hp
  · rintro p (hpin | ⟨⟨hok, hw, hr⟩, -⟩)
    · exact hsm.pinnedBusy p hpin
    · exact (hreq hok hw p hr).2

theorem held_run (h : Held initial l) (ops : List FrameOp) (hf : FreesLive l ops) :
    Held initial (l.run ops) := by
  induction ops generalizing l with
  | nil => exact h
  | cons op ops ih =>
    cases op with
    | allocate => exact ih (held_step_allocate h) hf
    | allocateRun count => exact ih (held_step_allocateRun h count) hf
    | free a => exact ih (held_step_free h hf.1) hf.2
    | reserveRange a n => exact ih (held_step_reserveRange h a n) hf

/-! ## Runs from an accepted memory map -/

variable {regions : List BootMemoryRegion} {bitmapAddress bitmapLimit : Nat}
  {s₀ : PageFrameContainer}

theorem held_start (hregions : ∀ b ∈ regions, b.physicalStart + b.length ≤ 2 ^ 52)
    (hinit : s₀.initializeFrames regions bitmapAddress bitmapLimit = some (true, s)) :
    Held (InitReserved bitmapAddress bitmapLimit) (start s) := by
  obtain ⟨ht, -, -, hfree⟩ := initializeFrames_spec hregions hinit
  refine ⟨ht, List.Pairwise.nil, by simp [start], by simp [start], by simp [start], ?_⟩
  intro p hi hlt
  change s.isFree p = false
  by_contra hne
  exact ((hfree p hlt).mp (by simpa using hne)).2 hi

/-- After any calls with any arguments the free count is the number of set bits and no
bit past the page count is set. If only allocated pages are freed, live allocations are
disjoint, lie below the memory end, and hold no page that was reserved at initialisation
or that a reservation found unheld. -/
theorem frames_run_accounted
    (hregions : ∀ b ∈ regions, b.physicalStart + b.length ≤ 2 ^ 52)
    (hinit : s₀.initializeFrames regions bitmapAddress bitmapLimit = some (true, s))
    (ops : List FrameOp) :
    let l := (start s).run ops
    (l.frames.freePageCount = Bitmap.count l.frames.bitmap l.frames.pageCount ∧
      ∀ p, l.frames.pageCount ≤ p → p < l.frames.bitmapSize * 64 →
        Bitmap.bit l.frames.bitmap p = false) ∧
    (FreesLive (start s) ops →
      l.live.Pairwise List.Disjoint ∧
      ∀ pages ∈ l.live, ∀ p ∈ pages, (p + 1) * kPageSize ≤ l.frames.memoryEndAddress ∧
        ¬ InitReserved bitmapAddress bitmapLimit p ∧ p ∉ l.pinned) := by
  obtain ⟨ht, -, hend, -⟩ := initializeFrames_spec hregions hinit
  obtain ⟨hrun, hshape⟩ := run_tracked (l := start s) ht ops
  refine ⟨⟨hrun.count, hrun.clearAbove⟩, ?_⟩
  intro hf
  have hheld := held_run (held_start hregions hinit) ops hf
  refine ⟨hheld.disjoint, ?_⟩
  intro pages hm p hp
  refine ⟨?_, hheld.apart pages hm p hp⟩
  have hlt := (hheld.busy pages hm p hp).1
  rw [hshape.pageCount] at hlt
  rw [hshape.memoryEnd]
  change p < s.pageCount at hlt
  change (p + 1) * kPageSize ≤ s.memoryEndAddress
  rw [hend]
  exact Nat.mul_le_mul_right _ hlt

/-- Boot from one usable region of two pages. -/
def twoPageFrames : PageFrameContainer :=
  (((⟨0, 0, 0, 0, fun _ => 0#64, 0, 0, 0, false⟩ : PageFrameContainer).initializeFrames
    [⟨0x200000, 0x2000, .usable⟩] 0x300000 64).map (·.2)).getD
      ⟨0, 0, 0, 0, fun _ => 0#64, 0, 0, 0, false⟩

theorem twoPageFrames_init :
    (⟨0, 0, 0, 0, fun _ => 0#64, 0, 0, 0, false⟩ : PageFrameContainer).initializeFrames
      [⟨0x200000, 0x2000, .usable⟩] 0x300000 64 = some (true, twoPageFrames) := rfl

/-- Two allocations and one release on the two-page container. -/
theorem frames_run_accounted_two_pages :
    let l := (start twoPageFrames).run [.allocate, .allocateRun 1, .free 0x200000]
    l.live = [[513], []] ∧ l.live.Pairwise List.Disjoint ∧
      l.frames.freePageCount = Bitmap.count l.frames.bitmap l.frames.pageCount ∧
      514 * kPageSize ≤ l.frames.memoryEndAddress := by
  have hregions : ∀ b ∈ [(⟨0x200000, 0x2000, .usable⟩ : BootMemoryRegion)],
      b.physicalStart + b.length ≤ 2 ^ 52 := by simp
  have h := frames_run_accounted hregions twoPageFrames_init
    [.allocate, .allocateRun 1, .free 0x200000]
  have hlive : ((start twoPageFrames).run [.allocate, .allocateRun 1, .free 0x200000]).live =
      [[513], []] := by decide +kernel
  have hf : FreesLive (start twoPageFrames) [.allocate, .allocateRun 1, .free 0x200000] := by
    simp only [FreesLive, and_true]
    refine And.intro (by decide) ?_
    intro hun
    exact hun [512] (by decide +kernel) (by decide)
  have hsafe := h.2 hf
  exact ⟨hlive, hsafe.1, h.1.1, (hsafe.2 [513] (by rw [hlive]; simp) 513 (by simp)).1⟩

/-- A reservation of an allocated page returns true, so a live allocation holds a page that a
reservation without wrapping returned true for. -/
theorem reserved_page_held_by_live_allocation :
    (⟨0, 0, 0, 0, fun _ => 0#64, 0, 0, 0, false⟩ : PageFrameContainer).initializeFrames
      [⟨0x200000, 0x2000, .usable⟩] 0x300000 64 = some (true, twoPageFrames) ∧
    FreesLive (start twoPageFrames) [.allocate, .reserveRange 0x200000 0x1000] ∧
    [512] ∈ ((start twoPageFrames).run [.allocate, .reserveRange 0x200000 0x1000]).live ∧
    512 ∈ ((start twoPageFrames).run [.allocate, .reserveRange 0x200000 0x1000]).reserved := by
  refine ⟨twoPageFrames_init, trivial, by decide +kernel,
    Or.inr ⟨by decide +kernel, by decide, ?_⟩⟩
  simp [Requested, kPageSize]

end Ledger
end Os1
