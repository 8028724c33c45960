import Os1.Mm.PageFrameLedger

/-!
# First fit

Every state of the allocator comes from the zeroed object by calls of its operations. In
each of them the two searches find the lowest fitting run of free pages.
-/

namespace Os1.PageFrameContainer

open Bitmap

variable {s t : PageFrameContainer} {n p q : Nat}

/-- The states that calls with any arguments reach. An `initialize` that has not succeeded
before finds any words at the bitmap address it is given. -/
inductive Reachable : PageFrameContainer → Prop
  | boot (words : Words) : Reachable ⟨0, 0, 0, 0, words, 0, 0, 0, false⟩
  | init {s t : PageFrameContainer} {r : Bool} (words : Words)
      (regions : List BootMemoryRegion) (bitmapAddress bitmapLimit : Nat) (h : Reachable s)
      (hwords : s.initialized = true → words = s.bitmap)
      (hinit : ({ s with bitmap := words } : PageFrameContainer).initializeFrames regions
        bitmapAddress bitmapLimit = some (r, t)) : Reachable t
  | call {s : PageFrameContainer} (op : FrameOp) (h : Reachable s) :
      Reachable ((Ledger.start s).step op).frames

/-- An uninitialised container tracks no page; an initialised one keeps its books. -/
def Books (s : PageFrameContainer) : Prop :=
  s.initialized = true ∧ TrackedTo (2 ^ 52) s ∨ s.initialized = false ∧ s.pageCount = 0

theorem step_uninitialized (h : s.initialized = false) (op : FrameOp) :
    ((Ledger.start s).step op).frames = s := by
  cases op with
  | allocate => simp [Ledger.step, Ledger.start, allocate, h]
  | allocateRun count => simp [Ledger.step, Ledger.start, allocateRun, h]
  | free a => simp [Ledger.step, Ledger.start, free, h]
  | reserveRange a n => simp [Ledger.step, Ledger.start, reserveRange, h]

theorem Books.of_initializeFrames {regions : List BootMemoryRegion}
    {bitmapAddress bitmapLimit : Nat} {r : Bool} (h : Books s)
    (hinit : s.initializeFrames regions bitmapAddress bitmapLimit = some (r, t)) : Books t := by
  rcases initializeFrames_cases hinit with
    ⟨-, -, rfl⟩ | ⟨hi, size, stop, hend, ⟨rfl, rfl⟩ | ⟨rfl, -, -⟩⟩
  · exact h
  · rcases h with ⟨hi', -⟩ | ⟨-, hp⟩
    · simp [hi] at hi'
    · exact Or.inr ⟨hi, hp⟩
  · have hwide : ∀ b ∈ regions, u64 (b.physicalStart + b.length) ≤ 2 ^ 52 * kPageSize :=
      fun b _ => (u64_lt _).le
    obtain ⟨ht, hi', -⟩ := initializeFrames_tracked hwide hinit
    exact Or.inl ⟨hi', ht⟩

theorem Reachable.books (h : Reachable s) : Books s := by
  induction h with
  | boot words => exact Or.inr ⟨rfl, rfl⟩
  | @init s t r words regions bitmapAddress bitmapLimit h hwords hinit ih =>
    refine Books.of_initializeFrames ?_ hinit
    rcases ih with ⟨hi, ht⟩ | hu
    · rw [hwords hi]
      exact Or.inl ⟨hi, ht⟩
    · exact Or.inr hu
  | @call s op h ih =>
    rcases ih with ⟨hi, ht⟩ | ⟨hi, hp⟩
    · obtain ⟨ht', hs⟩ := Ledger.step_tracked (l := Ledger.start s) ht (by decide) op
      exact Or.inl ⟨hs.initialized.trans hi, ht'⟩
    · rw [step_uninitialized hi]
      exact Or.inr ⟨hi, hp⟩

theorem freeRun_one : FreeRun s 1 p ↔ p < s.pageCount ∧ s.isFree p = true := by
  constructor
  · intro h
    exact ⟨by have := h.1; omega, h.2 p le_rfl (by omega)⟩
  · rintro ⟨hp, hf⟩
    exact ⟨by omega, fun q h1 h2 => by rw [show q = p by omega]; exact hf⟩

theorem takeRun_one {limit : Nat} (h : TrackedTo limit s) (hr : FreeRun s 1 p) :
    s.takeRun p 1 = s.take p := by
  have hpos := hr.le_freePageCount h
  unfold takeRun take dropFreePage
  rw [setBusyRange_succ, if_pos (show (s.setBusy p).freePageCount > 0 from hpos)]
  rfl

/-- The word scan and the run scan of one page agree. -/
theorem allocateRun_one {limit : Nat} (h : TrackedTo limit s) (hi : s.initialized = true) :
    s.allocateRun 1 = s.allocate := by
  cases ha : s.allocate with
  | none =>
    have hbusy := allocate_none h hi ha
    rcases allocateRun_cases h hi 1 with ⟨he, -⟩ | ⟨p, -, -, hr, -⟩
    · exact he
    · obtain ⟨hp, hf⟩ := freeRun_one.mp hr
      simp [hbusy p hp] at hf
  | some r =>
    obtain ⟨p, hp, hlt, hf, ht, hlow⟩ := allocate_some h ha
    have hrun : FreeRun s 1 p := freeRun_one.mpr ⟨hlt, hf⟩
    rcases allocateRun_cases h hi 1 with ⟨-, hno⟩ | ⟨q, he, -, hr, hfirst⟩
    · exact absurd hrun (hno.resolve_left (by decide) p)
    · have hle := hfirst p hrun
      have hq := (freeRun_one.mp hr).2
      have heq : q = p := by
        by_contra hne
        simp [hlow q (by omega)] at hq
      subst heq
      rw [he, takeRun_one h hr, ← hp, ← ht]

/-- The single-page allocation is the block allocation of one page. The block allocation
returns the lowest run, takes exactly its pages, and fails only where there is none. -/
theorem allocate_first_fit (h : Reachable s) :
    s.allocateRun 1 = s.allocate ∧
      ∀ n, (s.allocateRun n = none ↔ n = 0 ∨ ∀ p, ¬ FreeRun s n p) ∧
        ∀ a t, s.allocateRun n = some (a, t) →
          ∃ p, a = p * kPageSize ∧ FreeRun s n p ∧ (∀ q, FreeRun s n q → p ≤ q) ∧
            (∀ q, t.isFree q = (s.isFree q && !decide (p ≤ q ∧ q < p + n))) ∧
            t.freePageCount + n = s.freePageCount ∧
            t = { s with bitmap := t.bitmap, freePageCount := t.freePageCount } := by
  rcases h.books with ⟨hi, ht⟩ | ⟨hi, hp⟩
  · refine ⟨allocateRun_one ht hi, fun n => ?_⟩
    rcases allocateRun_cases ht hi n with ⟨he, hno⟩ | ⟨p, he, hn, hr, hfirst⟩
    · exact ⟨⟨fun _ => hno, fun _ => he⟩, by simp [he]⟩
    · refine ⟨⟨by simp [he], ?_⟩, ?_⟩
      · rintro (h0 | hno)
        · omega
        · exact absurd hr (hno p)
      · intro a t hat
        rw [he, Option.some.injEq, Prod.mk.injEq] at hat
        obtain ⟨rfl, rfl⟩ := hat
        refine ⟨p, rfl, hr, hfirst, isFree_takeRun s p n, ?_, ?_⟩
        · exact Nat.sub_add_cancel (hr.le_freePageCount ht)
        · unfold takeRun
          rw [setBusyRange_eq]
  · have hno : ∀ n, 0 < n → ∀ p, ¬ FreeRun s n p := by
      intro n hn p hr
      have := hr.1
      omega
    have hfail : ∀ n, s.allocateRun n = none := fun n => by simp [allocateRun, hi]
    refine ⟨by simp [hfail, allocate, hi], fun n => ⟨⟨fun _ => ?_, fun _ => hfail n⟩, ?_⟩⟩
    · exact (Nat.eq_zero_or_pos n).imp_right (hno n)
    · simp [hfail]

theorem reachable_booted : Reachable bootedFrames :=
  .init _ _ _ _ (.boot (fun _ => 0#64)) (fun h => by cases h) bootedFrames_init

/-- Sixteen pages are free after boot: seventeen in a row do not exist, and the run of one
is the single page. -/
theorem allocate_first_fit_booted :
    Reachable bootedFrames ∧ bootedFrames.allocateRun 1 = bootedFrames.allocate ∧
      (bootedFrames.allocateRun 17 = none ↔ 17 = 0 ∨ ∀ p, ¬ FreeRun bootedFrames 17 p) :=
  have h := allocate_first_fit reachable_booted
  ⟨reachable_booted, h.1, (h.2 17).1⟩

end Os1.PageFrameContainer
