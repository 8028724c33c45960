import Mathlib.Data.Nat.Bitwise

/-! Unsigned 64-bit arithmetic on naturals, and power-of-two alignment. -/
namespace Os1

/-- The value a 64-bit register keeps. -/
def u64 (n : Nat) : Nat := n % 2 ^ 64

theorem u64_lt (n : Nat) : u64 n < 2 ^ 64 := Nat.mod_lt _ (by decide)

theorem u64_of_lt {n : Nat} (h : n < 2 ^ 64) : u64 n = n := Nat.mod_eq_of_lt h

/-- Round `value` down to the nearest `alignment` boundary. -/
def alignDown (value alignment : Nat) : Nat :=
  (BitVec.ofNat 64 value &&& ~~~(BitVec.ofNat 64 alignment - 1#64)).toNat

/-- Round `value` up to the nearest `alignment` boundary. -/
def alignUp (value alignment : Nat) : Nat :=
  (BitVec.ofNat 64 (value + alignment - 1) &&& ~~~(BitVec.ofNat 64 alignment - 1#64)).toNat

theorem twoPow_sub_one (k : Nat) (hk : k < 64) :
    BitVec.ofNat 64 (2 ^ k) - 1#64 = BitVec.ofNat 64 (2 ^ k - 1) := by
  have hpos : 0 < 2 ^ k := Nat.two_pow_pos k
  have hlt : 2 ^ k < 2 ^ 64 := Nat.pow_lt_pow_right (by decide) hk
  apply BitVec.eq_of_toNat_eq
  simp only [BitVec.toNat_sub, BitVec.toNat_ofNat]
  omega

/-- Clearing the low `k` bits of a word leaves a multiple of `2 ^ k`. -/
theorem toNat_and_not_low (v : BitVec 64) (k : Nat) (hk : k < 64) :
    (v &&& ~~~(BitVec.ofNat 64 (2 ^ k) - 1#64)).toNat = v.toNat / 2 ^ k * 2 ^ k := by
  rw [twoPow_sub_one k hk]
  apply Nat.eq_of_testBit_eq
  intro i
  have hv : v.toNat.testBit i = v.getLsbD i := rfl
  by_cases hi : i < 64
  · have hl : (v &&& ~~~(BitVec.ofNat 64 (2 ^ k - 1))).toNat.testBit i =
        (v.getLsbD i && !decide (i < k)) := by
      change (v &&& ~~~(BitVec.ofNat 64 (2 ^ k - 1))).getLsbD i = _
      simp only [BitVec.getLsbD_and, BitVec.getLsbD_not, BitVec.getLsbD_ofNat, hi, decide_true,
        Bool.true_and, Nat.testBit_two_pow_sub_one]
    rw [hl, Nat.testBit_mul_two_pow, Nat.testBit_div_two_pow]
    by_cases hik : i < k
    · simp [hik]
    · rw [show i - k + k = i by omega, hv]
      simp [hik, show k ≤ i by omega]
  · have hbig : ∀ w : BitVec 64, w.toNat.testBit i = false := by
      intro w
      change w.getLsbD i = false
      exact BitVec.getLsbD_of_ge w i (by omega)
    rw [hbig, Nat.testBit_mul_two_pow, Nat.testBit_div_two_pow]
    by_cases hik : i < k
    · omega
    · rw [show i - k + k = i by omega, hbig]
      simp

theorem alignDown_eq {value k : Nat} (hk : k < 64) (hv : value < 2 ^ 64) :
    alignDown value (2 ^ k) = value / 2 ^ k * 2 ^ k := by
  rw [alignDown, toNat_and_not_low _ k hk, BitVec.toNat_ofNat, Nat.mod_eq_of_lt hv]

theorem alignUp_eq {value k : Nat} (hk : k < 64) (hv : value + 2 ^ k ≤ 2 ^ 64) :
    alignUp value (2 ^ k) = (value + 2 ^ k - 1) / 2 ^ k * 2 ^ k := by
  have hpos : 0 < 2 ^ k := Nat.two_pow_pos k
  rw [alignUp, toNat_and_not_low _ k hk, BitVec.toNat_ofNat, Nat.mod_eq_of_lt (by omega)]

theorem alignDown_le {value k : Nat} (hk : k < 64) (hv : value < 2 ^ 64) :
    alignDown value (2 ^ k) ≤ value := by
  rw [alignDown_eq hk hv]
  exact Nat.div_mul_le_self _ _

end Os1
