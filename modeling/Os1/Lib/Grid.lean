import Mathlib.Tactic.Ring

/-! Cells of a grid, numbered row by row, and loops over a range of indices. -/
namespace Os1

variable {width height : Nat} {σ : Type*}

theorem gridIndex_lt {r c : Nat} (hr : r < height) (hc : c < width) :
    r * width + c < width * height := by
  calc r * width + c < r * width + width := Nat.add_lt_add_left hc _
    _ = width * (r + 1) := by ring
    _ ≤ width * height := Nat.mul_le_mul_left _ hr

theorem gridIndex_inj {r c r' c' : Nat} (hc : c < width) (hc' : c' < width)
    (heq : r * width + c = r' * width + c') : r = r' ∧ c = c' := by
  have hpos : 0 < width := by omega
  have hdiv := congrArg (· / width) heq
  have hmod := congrArg (· % width) heq
  simp only [Nat.mul_comm _ width, Nat.mul_add_div hpos, Nat.mul_add_mod, Nat.div_eq_of_lt hc,
    Nat.div_eq_of_lt hc', Nat.mod_eq_of_lt hc, Nat.mod_eq_of_lt hc', Nat.add_zero] at hdiv hmod
  exact ⟨hdiv, hmod⟩

/-- A loop over `0, 1, …, n - 1` keeps what each of its turns advances. -/
theorem foldl_range_rule {P : Nat → σ → Prop} {step : σ → Nat → σ} {start : σ} (n : Nat)
    (hstart : P 0 start) (hstep : ∀ i s, i < n → P i s → P (i + 1) (step s i)) :
    P n ((List.range n).foldl step start) := by
  induction n with
  | zero => exact hstart
  | succ n ih =>
    rw [List.range_succ, List.foldl_append]
    exact hstep n _ (Nat.lt_succ_self n) (ih fun i s hi h => hstep i s (by omega) h)

end Os1
