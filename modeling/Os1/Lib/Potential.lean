import Mathlib.Algebra.BigOperators.Ring.Finset
import Mathlib.Data.Set.Card
import Mathlib.Tactic.Ring

/-! A potential that marked steps lower by a fixed amount bounds their number. -/
namespace Os1.Potential

variable {potential : ℕ → ℕ} {marked : Set ℕ} {amount : ℕ}

/-- After `n` steps the marked ones among them have been paid for. -/
theorem paid [DecidablePred (· ∈ marked)]
    (hmarked : ∀ n ∈ marked, potential (n + 1) + amount ≤ potential n)
    (hother : ∀ n ∉ marked, potential (n + 1) ≤ potential n) (n : ℕ) :
    amount * ((Finset.range n).filter (· ∈ marked)).card + potential n ≤ potential 0 := by
  induction n with
  | zero => simp
  | succ n ih =>
    rw [Finset.range_add_one, Finset.filter_insert]
    split
    · rename_i hn
      rw [Finset.card_insert_of_notMem (by simp), Nat.mul_succ]
      have := hmarked n hn
      omega
    · rename_i hn
      have := hother n hn
      omega

/-- Marked steps are finitely many, and the initial potential pays for all of them. -/
theorem finite_marked (potential : ℕ → ℕ) (hamount : 0 < amount)
    (hmarked : ∀ n ∈ marked, potential (n + 1) + amount ≤ potential n)
    (hother : ∀ n ∉ marked, potential (n + 1) ≤ potential n) :
    marked.Finite ∧ amount * marked.ncard ≤ potential 0 := by
  classical
  -- A finite set of marked steps lies below some step, where it has been paid for.
  have hbound : ∀ steps : Finset ℕ, ↑steps ⊆ marked → amount * steps.card ≤ potential 0 := by
    intro steps hsteps
    obtain ⟨n, hn⟩ := steps.exists_nat_subset_range
    have hsub : steps ⊆ (Finset.range n).filter (· ∈ marked) := fun k hk =>
      Finset.mem_filter.mpr ⟨hn hk, hsteps hk⟩
    calc amount * steps.card
        ≤ amount * ((Finset.range n).filter (· ∈ marked)).card :=
          Nat.mul_le_mul_left _ (Finset.card_le_card hsub)
      _ ≤ potential 0 := le_of_add_le_left (paid hmarked hother n)
  have hfinite : marked.Finite := by
    by_contra hinf
    obtain ⟨steps, hsub, hcard⟩ := Set.Infinite.exists_subset_card_eq hinf (potential 0 + 1)
    have hle := hbound steps hsub
    rw [hcard] at hle
    have := Nat.le_mul_of_pos_left (potential 0 + 1) hamount
    omega
  refine ⟨hfinite, ?_⟩
  rw [Set.ncard_eq_toFinset_card marked hfinite]
  exact hbound hfinite.toFinset (by simp)

/-! ## Sums of squares -/

theorem sq_move {m n : ℕ} (h : n + 2 ≤ m) : (m - 1) ^ 2 + (n + 1) ^ 2 + 2 ≤ m ^ 2 + n ^ 2 := by
  obtain ⟨k, rfl⟩ := Nat.exists_eq_add_of_le h
  have hpred : n + 2 + k - 1 = n + 1 + k := by omega
  calc (n + 2 + k - 1) ^ 2 + (n + 1) ^ 2 + 2
      = (n + 1 + k) ^ 2 + (n + 1) ^ 2 + 2 := by rw [hpred]
    _ ≤ (n + 1 + k) ^ 2 + (n + 1) ^ 2 + 2 + 2 * k := Nat.le_add_right _ _
    _ = (n + 2 + k) ^ 2 + n ^ 2 := by ring

/-- A unit that goes to a place with at least two less lowers the sum of squares, also when that
place is not among those that are summed. -/
theorem sum_sq_move {ι : Type*} [DecidableEq ι] {places : Finset ι} {f g : ι → ℕ} {a b : ι}
    (ha : a ∈ places) (hab : a ≠ b) (hle : f b + 2 ≤ f a) (hga : g a = f a - 1)
    (hgb : g b = f b + 1) (hrest : ∀ i, i ≠ a → i ≠ b → g i = f i) :
    ∑ i ∈ places, g i ^ 2 + 2 ≤ ∑ i ∈ places, f i ^ 2 := by
  have hsq := sq_move hle
  rw [← Finset.add_sum_erase places _ ha, ← Finset.add_sum_erase places (fun i => f i ^ 2) ha, hga]
  by_cases hb : b ∈ places
  · have hb' : b ∈ places.erase a := Finset.mem_erase.mpr ⟨hab.symm, hb⟩
    have hsame : ∑ i ∈ (places.erase a).erase b, g i ^ 2 =
        ∑ i ∈ (places.erase a).erase b, f i ^ 2 := by
      refine Finset.sum_congr rfl fun i hi => ?_
      obtain ⟨hib, hi⟩ := Finset.mem_erase.mp hi
      rw [hrest i (Finset.mem_erase.mp hi).1 hib]
    rw [← Finset.add_sum_erase _ _ hb', ← Finset.add_sum_erase _ (fun i => f i ^ 2) hb', hgb, hsame]
    omega
  · have hsame : ∑ i ∈ places.erase a, g i ^ 2 = ∑ i ∈ places.erase a, f i ^ 2 := by
      refine Finset.sum_congr rfl fun i hi => ?_
      obtain ⟨hia, hi⟩ := Finset.mem_erase.mp hi
      rw [hrest i hia fun hib => hb (hib ▸ hi)]
    have hgrow : f b ^ 2 ≤ (f b + 1) ^ 2 := Nat.pow_le_pow_left (Nat.le_succ _) 2
    omega

end Os1.Potential
