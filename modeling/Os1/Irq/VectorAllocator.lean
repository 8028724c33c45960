import Os1.Lib.Bitmap

/-! The interrupt vectors handed out at run time, and those of the inter-processor interrupts. -/
namespace Os1.Irq

def tIrq0 : BitVec 8 := 32#8
def tSyscall : BitVec 8 := 0x80#8
def kDynamicIrqVectorBase : BitVec 8 := 0x50#8
def kDynamicIrqVectorLimit : BitVec 8 := 0xEF#8

/-- `interrupt_vector_is_external` -/
def interruptVectorIsExternal (vector : BitVec 8) : Bool :=
  decide (tIrq0 ≤ vector) && vector != tSyscall

/-- `irq_vector_is_allocatable` -/
def irqVectorIsAllocatable (vector : BitVec 8) : Bool :=
  decide (kDynamicIrqVectorBase ≤ vector) && decide (vector ≤ kDynamicIrqVectorLimit) &&
    vector != tSyscall

/-- `vector_index`, asked of allocatable vectors only. -/
def vectorIndex (vector : BitVec 8) : Nat := vector.toNat - kDynamicIrqVectorBase.toNat

/-- `irq_vector_is_allocated` -/
def irqVectorIsAllocated (bitmap : Bitmap.Words) (vector : BitVec 8) : Bool :=
  irqVectorIsAllocatable vector && Bitmap.bit bitmap (vectorIndex vector)

/-- The loop of `irq_allocate_vector`, with the number of candidates left. -/
def firstFreeVector (bitmap : Bitmap.Words) : Nat → Nat → Option (BitVec 8)
  | 0, _ => none
  | left + 1, candidate =>
    let current := BitVec.ofNat 8 candidate
    if !irqVectorIsAllocatable current || irqVectorIsAllocated bitmap current then
      firstFreeVector bitmap left (candidate + 1)
    else some current

/-- `irq_allocate_vector` -/
def irqAllocateVector (bitmap : Bitmap.Words) : Option (BitVec 8 × Bitmap.Words) :=
  let left := kDynamicIrqVectorLimit.toNat + 1 - kDynamicIrqVectorBase.toNat
  (firstFreeVector bitmap left kDynamicIrqVectorBase.toNat).map fun current =>
    (current, Bitmap.set bitmap (vectorIndex current))

/-- `irq_reserve_vector` -/
def irqReserveVector (bitmap : Bitmap.Words) (vector : BitVec 8) : Bool × Bitmap.Words :=
  if !irqVectorIsAllocatable vector || irqVectorIsAllocated bitmap vector then (false, bitmap)
  else (true, Bitmap.set bitmap (vectorIndex vector))

/-- `irq_free_vector` -/
def irqFreeVector (bitmap : Bitmap.Words) (vector : BitVec 8) : Bool × Bitmap.Words :=
  if !irqVectorIsAllocatable vector || !irqVectorIsAllocated bitmap vector then (false, bitmap)
  else (true, Bitmap.clear bitmap (vectorIndex vector))

/-- The vectors that `ipi_initialize` keeps, once it has both. -/
structure IpiVectors where
  reschedule : BitVec 8
  tlbShootdown : BitVec 8
  deriving DecidableEq, Repr

namespace IpiVectors

def vectors : Option IpiVectors → List (BitVec 8)
  | none => []
  | some ipi => [ipi.reschedule, ipi.tlbShootdown]

end IpiVectors

/-- `ipi_initialize` -/
def ipiInitialize (bitmap : Bitmap.Words) (ipi : Option IpiVectors) :
    Bool × Bitmap.Words × Option IpiVectors :=
  match ipi with
  | some vectors =>
    let ready (bitmap : Bitmap.Words) (vector : BitVec 8) : Bool × Bitmap.Words :=
      if irqVectorIsAllocated bitmap vector then (true, bitmap) else irqReserveVector bitmap vector
    let (rescheduleReady, bitmap) := ready bitmap vectors.reschedule
    let (tlbReady, bitmap) := ready bitmap vectors.tlbShootdown
    (rescheduleReady && tlbReady, bitmap, ipi)
  | none =>
    match irqAllocateVector bitmap with
    | none => (false, bitmap, none)
    | some (reschedule, bitmap) =>
      match irqAllocateVector bitmap with
      | none => (false, bitmap, none)
      | some (tlbShootdown, bitmap) => (true, bitmap, some ⟨reschedule, tlbShootdown⟩)

variable {bitmap bitmap' : Bitmap.Words} {v w : BitVec 8}

theorem allocatable_of_allocated (h : irqVectorIsAllocated bitmap v = true) :
    irqVectorIsAllocatable v = true :=
  (Bool.and_eq_true_iff.mp h).1

theorem vectorIndex_inj (hv : irqVectorIsAllocatable v = true)
    (hw : irqVectorIsAllocatable w = true) (h : vectorIndex v = vectorIndex w) : v = w := by
  simp only [irqVectorIsAllocatable, Bool.and_eq_true, decide_eq_true_eq, BitVec.le_def] at hv hw
  apply BitVec.eq_of_toNat_eq
  simp only [vectorIndex] at h
  omega

theorem allocated_set (hv : irqVectorIsAllocatable v = true) :
    irqVectorIsAllocated (Bitmap.set bitmap (vectorIndex v)) w ↔
      w = v ∨ irqVectorIsAllocated bitmap w := by
  simp only [irqVectorIsAllocated, Bitmap.bit_set, Bool.and_eq_true, Bool.or_eq_true,
    decide_eq_true_eq]
  constructor
  · rintro ⟨hw, hbit | heq⟩
    · exact .inr ⟨hw, hbit⟩
    · exact .inl (vectorIndex_inj hw hv heq)
  · rintro (rfl | ⟨hw, hbit⟩)
    · exact ⟨hv, .inr rfl⟩
    · exact ⟨hw, .inl hbit⟩

theorem allocated_clear (hv : irqVectorIsAllocatable v = true) :
    irqVectorIsAllocated (Bitmap.clear bitmap (vectorIndex v)) w ↔
      irqVectorIsAllocated bitmap w ∧ w ≠ v := by
  simp only [irqVectorIsAllocated, Bitmap.bit_clear, Bool.and_eq_true, Bool.not_eq_true',
    decide_eq_false_iff_not]
  constructor
  · rintro ⟨hw, hbit, hne⟩
    exact ⟨⟨hw, hbit⟩, fun heq => hne (by rw [heq])⟩
  · rintro ⟨⟨hw, hbit⟩, hne⟩
    exact ⟨hw, hbit, fun heq => hne (vectorIndex_inj hw hv heq)⟩

theorem firstFreeVector_spec {left candidate : Nat}
    (h : firstFreeVector bitmap left candidate = some v) :
    irqVectorIsAllocatable v = true ∧ irqVectorIsAllocated bitmap v = false := by
  induction left generalizing candidate with
  | zero => cases h
  | succ left ih =>
    rw [firstFreeVector] at h
    split at h
    · exact ih h
    · next hfree =>
      cases h
      simpa using hfree

/-- A vector that is handed out was free, and is the only one whose mark changes. -/
theorem irqAllocateVector_spec (h : irqAllocateVector bitmap = some (v, bitmap')) :
    irqVectorIsAllocatable v = true ∧ irqVectorIsAllocated bitmap v = false ∧
      ∀ w, irqVectorIsAllocated bitmap' w ↔ w = v ∨ irqVectorIsAllocated bitmap w := by
  obtain ⟨current, hfirst, heq⟩ := Option.map_eq_some_iff.mp h
  cases heq
  obtain ⟨hv, hfree⟩ := firstFreeVector_spec hfirst
  exact ⟨hv, hfree, fun w => allocated_set hv⟩

/-- Freeing clears the mark of an allocated vector and is without effect on any other. -/
theorem irqFreeVector_spec (bitmap : Bitmap.Words) (v w : BitVec 8) :
    irqVectorIsAllocated (irqFreeVector bitmap v).2 w ↔
      irqVectorIsAllocated bitmap w ∧ w ≠ v := by
  unfold irqFreeVector
  split
  · next hnone =>
    refine ⟨fun hw => ⟨hw, ?_⟩, And.left⟩
    rintro rfl
    simp [hw, allocatable_of_allocated hw] at hnone
  · next hsome =>
    simp only [Bool.or_eq_true, Bool.not_eq_true', not_or, Bool.not_eq_false] at hsome
    exact allocated_clear hsome.1

end Os1.Irq
