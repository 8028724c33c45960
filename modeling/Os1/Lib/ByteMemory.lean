import Mathlib.Data.Nat.Bitwise
import Mathlib.Tactic.Ring

/-! Byte-addressed memory with little-endian loads and stores. -/
namespace Os1

/-- The bytes of a memory, by address. -/
abbrev Memory := Nat → BitVec 8

namespace Memory

variable {m m' : Memory} {a b n k v x : Nat}

/-- The little-endian value of the `n` bytes at `a`. -/
def load (m : Memory) (a : Nat) : Nat → Nat
  | 0 => 0
  | n + 1 => (m a).toNat + 256 * load m (a + 1) n

/-- Write the low `n` bytes of `v` at `a`, lowest byte first. -/
def store (m : Memory) (a n v : Nat) : Memory :=
  fun x => if a ≤ x ∧ x < a + n then BitVec.ofNat 8 (v / 256 ^ (x - a)) else m x

/-- Set `n` bytes at `a` to one value. -/
def fill (m : Memory) (a n : Nat) (byte : BitVec 8) : Memory :=
  fun x => if a ≤ x ∧ x < a + n then byte else m x

theorem load_congr (h : ∀ x, a ≤ x → x < a + n → m x = m' x) : load m a n = load m' a n := by
  induction n generalizing a with
  | zero => rfl
  | succ n ih =>
    rw [load, load, h a (by omega) (by omega), ih (fun x h1 h2 => h x (by omega) (by omega))]

/-- The same bytes at another address load as the same number. -/
theorem load_shift (h : ∀ i < n, m' (b + i) = m (a + i)) : load m' b n = load m a n := by
  induction n generalizing a b with
  | zero => rfl
  | succ n ih =>
    have h0 : m' b = m a := h 0 (by omega)
    rw [load, load, h0, ih fun i hi => ?_]
    rw [Nat.add_assoc, Nat.add_assoc]
    exact h (1 + i) (by omega)

theorem load_lt (m : Memory) (a n : Nat) : load m a n < 256 ^ n := by
  induction n generalizing a with
  | zero => simp [load]
  | succ n ih =>
    have hb : (m a).toNat < 256 := (m a).isLt
    have := ih (a + 1)
    rw [load, Nat.pow_succ]
    omega

/-- Bytes that spell a number load as that number. -/
theorem load_eq_mod (h : ∀ i, i < n → m (a + i) = BitVec.ofNat 8 (v / 256 ^ i)) :
    load m a n = v % 256 ^ n := by
  induction n generalizing a v with
  | zero => simp [load, Nat.mod_one]
  | succ n ih =>
    have h0 : m a = BitVec.ofNat 8 v := by simpa using h 0 (by omega)
    have htail : load m (a + 1) n = v / 256 % 256 ^ n := by
      apply ih
      intro i hi
      rw [show a + 1 + i = a + (i + 1) by omega, h (i + 1) (by omega), Nat.pow_succ',
        Nat.div_div_eq_div_mul]
    have hsplit : v % 256 ^ (n + 1) = v % 256 + 256 * (v / 256 % 256 ^ n) := by
      rw [Nat.pow_succ', Nat.mod_mul]
    rw [load, h0, htail, BitVec.toNat_ofNat, hsplit]

theorem store_apply_of_not_mem (h : ¬ (a ≤ x ∧ x < a + n)) : store m a n v x = m x := if_neg h

theorem fill_apply_of_not_mem {byte : BitVec 8} (h : ¬ (a ≤ x ∧ x < a + n)) :
    fill m a n byte x = m x := if_neg h

theorem fill_apply_of_mem {byte : BitVec 8} (h : a ≤ x ∧ x < a + n) : fill m a n byte x = byte :=
  if_pos h

theorem load_store_self (m : Memory) (a n v : Nat) : load (store m a n v) a n = v % 256 ^ n := by
  apply load_eq_mod
  intro i hi
  rw [store, if_pos (by omega), show a + i - a = i by omega]

theorem load_store_of_disjoint (h : b + k ≤ a ∨ a + n ≤ b) :
    load (store m a n v) b k = load m b k := by
  apply load_congr
  intro x h1 h2
  exact store_apply_of_not_mem (by omega)

theorem load_fill_of_disjoint {byte : BitVec 8} (h : b + k ≤ a ∨ a + n ≤ b) :
    load (fill m a n byte) b k = load m b k := by
  apply load_congr
  intro x h1 h2
  exact fill_apply_of_not_mem (by omega)

theorem load_of_zero (h : ∀ x, a ≤ x → x < a + n → m x = 0#8) : load m a n = 0 := by
  induction n generalizing a with
  | zero => rfl
  | succ n ih =>
    rw [load, h a (by omega) (by omega), ih (fun x h1 h2 => h x (by omega) (by omega))]
    rfl

theorem eq_zero_of_load (h : load m a n = 0) : ∀ x, a ≤ x → x < a + n → m x = 0#8 := by
  induction n generalizing a with
  | zero => intro x h1 h2; omega
  | succ n ih =>
    intro x h1 h2
    rw [load] at h
    have hb : (m a).toNat = 0 := by omega
    by_cases hx : x = a
    · subst hx
      exact BitVec.eq_of_toNat_eq hb
    · exact ih (a := a + 1) (by omega) x (by omega) (by omega)

/-! ## 64-bit words -/

def load64 (m : Memory) (a : Nat) : BitVec 64 := BitVec.ofNat 64 (load m a 8)

def store64 (m : Memory) (a : Nat) (w : BitVec 64) : Memory := store m a 8 w.toNat

theorem load64_congr (h : ∀ x, a ≤ x → x < a + 8 → m x = m' x) : load64 m a = load64 m' a := by
  rw [load64, load64, load_congr h]

theorem load64_shift (h : ∀ i < 8, m' (b + i) = m (a + i)) : load64 m' b = load64 m a := by
  rw [load64, load64, load_shift h]

@[simp] theorem load64_store64_self (m : Memory) (a : Nat) (w : BitVec 64) :
    load64 (store64 m a w) a = w := by
  apply BitVec.eq_of_toNat_eq
  have hw : w.toNat < 2 ^ 64 := w.isLt
  rw [load64, store64, load_store_self, BitVec.toNat_ofNat]
  norm_num
  omega

theorem load64_store64_of_disjoint {w : BitVec 64} (h : b + 8 ≤ a ∨ a + 8 ≤ b) :
    load64 (store64 m a w) b = load64 m b := by
  rw [load64, store64, load_store_of_disjoint h, load64]

theorem load64_fill_of_disjoint {byte : BitVec 8} (h : b + 8 ≤ a ∨ a + n ≤ b) :
    load64 (fill m a n byte) b = load64 m b := by
  rw [load64, load_fill_of_disjoint h, load64]

theorem load64_fill_zero (h1 : a ≤ b) (h2 : b + 8 ≤ a + n) :
    load64 (fill m a n 0#8) b = 0#64 := by
  rw [load64, load_of_zero]
  intro x h3 h4
  exact fill_apply_of_mem (by omega)

theorem eq_zero_of_load64 (h : load64 m a = 0#64) : ∀ x, a ≤ x → x < a + 8 → m x = 0#8 := by
  apply eq_zero_of_load
  have hlt := load_lt m a 8
  have := congrArg BitVec.toNat h
  rw [load64, BitVec.toNat_ofNat, Nat.mod_eq_of_lt (by norm_num at hlt ⊢; exact hlt)] at this
  exact this

theorem load64_of_zero (h : ∀ x, a ≤ x → x < a + 8 → m x = 0#8) : load64 m a = 0#64 := by
  rw [load64, load_of_zero h]

theorem store64_apply_of_not_mem {w : BitVec 64} (h : ¬ (a ≤ x ∧ x < a + 8)) :
    store64 m a w x = m x := store_apply_of_not_mem h

theorem store64_apply_of_mem {w : BitVec 64} (h : a ≤ x ∧ x < a + 8) :
    store64 m a w x = BitVec.ofNat 8 (w.toNat / 256 ^ (x - a)) := if_pos h

/-- Storing zero clears exactly the eight bytes of the word. -/
theorem store64_zero (m : Memory) (a : Nat) : store64 m a 0#64 = fill m a 8 0#8 := by
  funext x
  simp [store64, store, fill]

/-! ## Byte strings -/

/-- Write the first `n` bytes of a string at `a`. -/
def write (m : Memory) (a n : Nat) (bytes : Nat → BitVec 8) : Memory :=
  fun x => if a ≤ x ∧ x < a + n then bytes (x - a) else m x

theorem write_zero (bytes : Nat → BitVec 8) : write m a 0 bytes = m := by
  funext x
  exact if_neg (by omega)

/-- The bytes of a string can be written one after the other. -/
theorem write_succ (bytes : Nat → BitVec 8) :
    write m a (n + 1) bytes = Function.update (write m a n bytes) (a + n) (bytes n) := by
  funext x
  by_cases hx : x = a + n
  · subst hx
    simp [write]
  · rw [Function.update_of_ne hx]
    simp only [write]
    grind

attribute [irreducible] load store fill load64 store64 write

end Memory
end Os1
