import Mathlib.Data.Nat.Count

/-! Bitmaps held in 64-bit words, read and written one bit at a time. -/
namespace Os1.Bitmap

/-- The words of a bitmap, by word index. -/
abbrev Words := Nat → BitVec 64

variable {b : Words} {i j k n : Nat}

def bit (b : Words) (i : Nat) : Bool := (b (i / 64)).getLsbD (i % 64)

/-- The one-bit mask of a position inside its word. -/
def mask (i : Nat) : BitVec 64 := 1#64 <<< (i % 64)

/-- Or a mask into one word. -/
def orWord (b : Words) (w : Nat) (m : BitVec 64) : Words :=
  fun v => if v = w then b v ||| m else b v

def set (b : Words) (i : Nat) : Words := orWord b (i / 64) (mask i)

def clear (b : Words) (i : Nat) : Words :=
  fun v => if v = i / 64 then b v &&& ~~~mask i else b v

theorem getLsbD_mask (i k : Nat) : (mask i).getLsbD k = decide (k = i % 64) := by
  have hi : i % 64 < 64 := Nat.mod_lt _ (by decide)
  have hone : (1#64).getLsbD (k - i % 64) = decide (k - i % 64 = 0) := by
    simp
  rw [mask, BitVec.getLsbD_shiftLeft, hone]
  by_cases h1 : k < i % 64
  · simp [h1, show k ≠ i % 64 by omega]
  · by_cases h2 : k = i % 64
    · simp [h2, hi]
    · simp [h2, show ¬ k - i % 64 = 0 by omega]

/-- Two positions agree in word and offset only when they are equal. -/
theorem eq_of_div_mod (hd : i / 64 = j / 64) (hm : i % 64 = j % 64) : i = j := by
  omega

theorem bit_set (b : Words) (i j : Nat) : bit (set b i) j = (bit b j || decide (j = i)) := by
  unfold bit set orWord
  by_cases hw : j / 64 = i / 64
  · have heq : (j % 64 = i % 64) ↔ j = i :=
      ⟨fun hm => eq_of_div_mod hw hm, fun h => by rw [h]⟩
    simp [hw, getLsbD_mask, heq]
  · have hne : j ≠ i := fun h => hw (by rw [h])
    simp [hw, hne]

theorem bit_clear (b : Words) (i j : Nat) :
    bit (clear b i) j = (bit b j && !decide (j = i)) := by
  unfold bit clear
  by_cases hw : j / 64 = i / 64
  · have heq : (j % 64 = i % 64) ↔ j = i :=
      ⟨fun hm => eq_of_div_mod hw hm, fun h => by rw [h]⟩
    have hlt : j % 64 < 64 := Nat.mod_lt _ (by decide)
    simp only [hw, if_true, BitVec.getLsbD_and, BitVec.getLsbD_not, getLsbD_mask, heq, hlt,
      decide_true,
      Bool.true_and]
  · have hne : j ≠ i := fun h => hw (by rw [h])
    simp [hw, hne]

/-- Testing a word against the mask of a position reads that position's bit. -/
theorem and_mask_ne_zero (b : Words) (i : Nat) :
    (b (i / 64) &&& mask i != 0#64) = bit b i := by
  have hi : i % 64 < 64 := Nat.mod_lt _ (by decide)
  unfold bit
  cases h : (b (i / 64)).getLsbD (i % 64) with
  | false =>
    have hz : b (i / 64) &&& mask i = 0#64 := by
      apply BitVec.eq_of_getLsbD_eq
      intro k hk
      by_cases hki : k = i % 64
      · simp [hki, h]
      · simp [getLsbD_mask, hki]
    simp [hz]
  | true =>
    have hz : b (i / 64) &&& mask i ≠ 0#64 := by
      intro hz
      have := congrArg (fun w => w.getLsbD (i % 64)) hz
      simp [getLsbD_mask, h] at this
    simpa using hz

/-- The number of set positions below `n`. -/
def count (b : Words) (n : Nat) : Nat := Nat.count (fun i => bit b i = true) n

theorem count_succ (b : Words) (n : Nat) :
    count b (n + 1) = count b n + if bit b n = true then 1 else 0 := by
  simp [count, Nat.count_succ]

theorem count_congr {c : Words} (h : ∀ i, i < n → bit b i = bit c i) : count b n = count c n := by
  induction n with
  | zero => rfl
  | succ n ih =>
    rw [count_succ, count_succ, ih (fun i hi => h i (by omega)), h n (by omega)]

/-- Positions that are clear add nothing to the count. -/
theorem count_of_clear (hnk : n ≤ k) (h : ∀ i, n ≤ i → i < k → bit b i = false) :
    count b k = count b n := by
  induction k, hnk using Nat.le_induction with
  | base => rfl
  | succ k hk ih =>
    rw [count_succ, ih (fun i hi hik => h i hi (by omega)), h k hk (by omega)]
    simp

theorem count_set (hi : i < n) (h : bit b i = false) : count (set b i) n = count b n + 1 := by
  induction n with
  | zero => omega
  | succ n ih =>
    rw [count_succ, count_succ]
    by_cases hn : n = i
    · subst hn
      have hlow : count (set b n) n = count b n :=
        count_congr (fun j hj => by simp [bit_set, show j ≠ n by omega])
      simp [hlow, bit_set, h]
    · rw [ih (by omega)]
      simp only [bit_set, hn, decide_false, Bool.or_false]
      omega

theorem count_clear (hi : i < n) (h : bit b i = true) : count (clear b i) n + 1 = count b n := by
  induction n with
  | zero => omega
  | succ n ih =>
    rw [count_succ, count_succ]
    by_cases hn : n = i
    · subst hn
      have hlow : count (clear b n) n = count b n :=
        count_congr (fun j hj => by simp [bit_clear, show j ≠ n by omega])
      simp [hlow, bit_clear, h]
    · have := ih (by omega)
      simp only [bit_clear, hn, decide_false, Bool.not_false, Bool.and_true]
      omega

theorem count_le (b : Words) (n : Nat) : count b n ≤ n := Nat.count_le _

/-- A set position below the bound makes the count positive. -/
theorem count_pos (hi : i < n) (h : bit b i = true) : 0 < count b n := by
  have := count_clear hi h
  omega

end Os1.Bitmap
