import Mathlib.Data.List.Basic

/-!
# Rings with a cycle bit

Item `k` of a stream goes to slot `k % m`. The writer marks the slot with a bit that flips
on every lap, and the reader takes the slot of its next item when the bit has the value of
that item's lap.
-/

namespace Os1.CycleRing

variable {α : Type*} {m w o k : Nat}

/-- The bit that item `k` is marked with. A cleared ring looks like the lap before the first. -/
def lap (m k : Nat) : Bool := k / m % 2 = 0

/-- The next item is in the next slot of the lap, or in the first slot of the next lap. -/
theorem succ_cases (hm : 0 < m) (k : Nat) :
    (k % m + 1 < m ∧ (k + 1) % m = k % m + 1 ∧ lap m (k + 1) = lap m k) ∨
      (k % m + 1 = m ∧ (k + 1) % m = 0 ∧ lap m (k + 1) = !lap m k) := by
  have hlt := Nat.mod_lt k hm
  have hsplit := Nat.div_add_mod k m
  by_cases hlast : k % m + 1 < m
  · have huniq := (Nat.div_mod_unique hm).mpr
      ⟨(by omega : k % m + 1 + m * (k / m) = k + 1), hlast⟩
    exact Or.inl ⟨hlast, huniq.2, by unfold lap; rw [huniq.1]⟩
  · have hnext : 0 + m * (k / m + 1) = k + 1 := by
      rw [Nat.mul_add_one]
      omega
    have huniq := (Nat.div_mod_unique hm).mpr ⟨hnext, hm⟩
    refine Or.inr ⟨by omega, huniq.2, ?_⟩
    unfold lap
    rw [huniq.1, ← decide_not]
    exact decide_eq_decide.mpr (by omega)

/-- Two items less than a lap apart are in different slots. -/
theorem mod_ne (h : k < w) (h' : w < k + m) : k % m ≠ w % m := by
  intro heq
  have hdvd : m ∣ w - k := Nat.dvd_of_mod_eq_zero (Nat.sub_mod_eq_zero_of_mod_eq heq.symm)
  exact absurd (Nat.le_of_dvd (by omega) hdvd) (by omega)

/-- Of two items at most a lap apart the later one is further in the same lap, or it is not
further in the next one. -/
theorem same_or_next_lap (hm : 0 < m) (h : o < w) (h' : w ≤ o + m) :
    (lap m w = lap m o ∧ o % m < w % m) ∨ (lap m w = !lap m o ∧ w % m ≤ o % m) := by
  have hw := Nat.div_add_mod w m
  have ho := Nat.div_add_mod o m
  have hge : o / m ≤ w / m := Nat.div_le_div_right (Nat.le_of_lt h)
  have hle : w / m ≤ o / m + 1 := by
    rw [← Nat.add_div_right o hm]
    exact Nat.div_le_div_right h'
  rcases Nat.eq_or_lt_of_le hge with heq | hlt
  · rw [← heq] at hw
    exact Or.inl ⟨by unfold lap; rw [heq], by omega⟩
  · have heq : w / m = o / m + 1 := by omega
    rw [heq, Nat.mul_add_one] at hw
    refine Or.inr ⟨?_, by omega⟩
    unfold lap
    rw [heq, ← decide_not]
    exact decide_eq_decide.mpr (by omega)

/-- The ring after `w` of the logged items were handed over and `o` of them taken: the slots
before the writer's have the bit of its lap, the others that of the lap before, and every item
that was not taken is in its slot. -/
structure Handed (m : Nat) (bit : Nat → Bool) (value : Nat → α) (log : List α) (w o : Nat) :
    Prop where
  le : o ≤ w
  room : w ≤ o + m
  bits : ∀ j < m, bit j = if j < w % m then lap m w else !lap m w
  held : ∀ k, o ≤ k → k < w → log[k]? = some (value (k % m))

namespace Handed

variable {bit bit' : Nat → Bool} {value value' : Nat → α} {log : List α}

theorem start (hbit : ∀ j < m, bit j = false) : Handed m bit value [] 0 0 :=
  ⟨Nat.le_refl 0, by omega, fun j hj => by rw [hbit j hj]; simp [lap], by omega⟩

/-- The bit of the reader's slot tells whether its next item was handed over. -/
theorem ready_iff (hm : 0 < m) (h : Handed m bit value log w o) :
    bit (o % m) = lap m o ↔ o < w := by
  rw [h.bits _ (Nat.mod_lt o hm)]
  rcases Nat.eq_or_lt_of_le h.le with rfl | hlt
  · simp
  · rcases same_or_next_lap hm hlt h.room with ⟨hlap, hmod⟩ | ⟨hlap, hmod⟩
    · simp [hlap, hmod, hlt]
    · simp [hlap, hlt, Nat.not_lt.mpr hmod]

theorem take (h : Handed m bit value log w o) (hlt : o < w) :
    Handed m bit value log w (o + 1) :=
  ⟨hlt, by have := h.room; omega, h.bits, fun k h1 h2 => h.held k (by omega) h2⟩

theorem append (h : Handed m bit value log w o) (hlog : w ≤ log.length) (items : List α) :
    Handed m bit value (log ++ items) w o := by
  refine ⟨h.le, h.room, h.bits, fun k h1 h2 => ?_⟩
  rw [List.getElem?_append_left (by omega)]
  exact h.held k h1 h2

/-- The writer may change the contents of its own slot as long as the bit stays. -/
theorem prepare (h : Handed m bit value log w o) (hroom : w < o + m)
    (hbit : ∀ j < m, bit' j = bit j) (hvalue : ∀ j, j ≠ w % m → value' j = value j) :
    Handed m bit' value' log w o := by
  refine ⟨h.le, h.room, fun j hj => (hbit j hj).trans (h.bits j hj), fun k h1 h2 => ?_⟩
  rw [hvalue _ (mod_ne h2 (by omega))]
  exact h.held k h1 h2

/-- Flipping the bit of the writer's slot hands its contents over. -/
theorem publish (hm : 0 < m) (h : Handed m bit value log w o) (hroom : w < o + m)
    (hbit : ∀ j < m, bit' j = if j = w % m then lap m w else bit j)
    (hvalue : ∀ j, j ≠ w % m → value' j = value j) (hlog : log[w]? = some (value' (w % m))) :
    Handed m bit' value' log (w + 1) o := by
  refine ⟨by have := h.le; omega, hroom, fun j hj => ?_, fun k h1 h2 => ?_⟩
  · rw [hbit j hj, h.bits j hj]
    rcases succ_cases hm w with ⟨hlt, hmod, hlap⟩ | ⟨hlast, hmod, hlap⟩
    · rw [hmod, hlap]
      split
      · rw [if_pos (by omega)]
      · exact if_congr (by omega) rfl rfl
    · rw [hmod, hlap, if_neg (Nat.not_lt_zero j), Bool.not_not]
      split
      · rfl
      · rw [if_pos (by omega)]
  · by_cases hk : k = w
    · rw [hk]
      exact hlog
    · rw [hvalue _ (mod_ne (by omega) (by omega))]
      exact h.held k h1 (by omega)

end Handed

end Os1.CycleRing
