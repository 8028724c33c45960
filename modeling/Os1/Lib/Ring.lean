import Mathlib.Logic.Function.Basic
import Mathlib.Tactic.Common

/-! Queues in a ring of cells. -/
namespace Os1

variable {α : Type*} {cell cell' : Nat → α} {capacity head count : Nat}

/-- The `count` cells from `head` on, in order, with wrap at `capacity`. -/
def ring (cell : Nat → α) (capacity head count : Nat) : List α :=
  (List.range count).map fun i => cell ((head + i) % capacity)

@[simp] theorem ring_length : (ring cell capacity head count).length = count := by simp [ring]

/-- Cells of a ring that is not longer than its capacity are distinct. -/
theorem ring_index_ne {i j : Nat} (hi : i < j) (hj : j < capacity) :
    (head + i) % capacity ≠ (head + j) % capacity := by
  intro heq
  have hdvd : capacity ∣ j - i := by
    have hmod := Nat.sub_mod_eq_zero_of_mod_eq heq.symm
    rw [Nat.add_sub_add_left] at hmod
    exact Nat.dvd_of_mod_eq_zero hmod
  exact absurd (Nat.le_of_dvd (by omega) hdvd) (by omega)

/-- Writing the cell behind the last one appends it. -/
theorem ring_push (hcount : count < capacity)
    (hrest : ∀ i, i ≠ (head + count) % capacity → cell' i = cell i) :
    ring cell' capacity head (count + 1) =
      ring cell capacity head count ++ [cell' ((head + count) % capacity)] := by
  unfold ring
  rw [List.range_succ, List.map_append]
  congr 1
  refine List.map_congr_left fun i hi => ?_
  exact hrest _ (ring_index_ne (List.mem_range.mp hi) hcount)

/-- Stepping over the first cell removes it; the cell itself may be overwritten. -/
theorem ring_pop (hhead : head < capacity) (hcount : count < capacity)
    (hrest : ∀ i, i ≠ head → cell' i = cell i) :
    ring cell capacity head (count + 1) =
      cell head :: ring cell' capacity ((head + 1) % capacity) count := by
  unfold ring
  rw [List.range_succ_eq_map, List.map_cons, Nat.add_zero, Nat.mod_eq_of_lt hhead, List.map_map]
  congr 1
  refine List.map_congr_left fun i hi => ?_
  have hlt : i < count := List.mem_range.mp hi
  have hne : (head + (i + 1)) % capacity ≠ head := fun heq => by
    have hzero : (head + 0) % capacity ≠ (head + (i + 1)) % capacity :=
      ring_index_ne (by omega) (by omega)
    rw [heq, Nat.add_zero, Nat.mod_eq_of_lt hhead] at hzero
    exact hzero rfl
  simp only [Function.comp, Nat.mod_add_mod, Nat.succ_eq_add_one]
  rw [show head + 1 + i = head + (i + 1) by omega, hrest _ hne]

/-! ## Logs in a ring -/

/-- The last `capacity` entries of a log, each in the cell of its index. -/
def KeepsEnd (cell : Nat → α) (capacity : Nat) (log : List α) : Prop :=
  ∀ j, (hj : j < log.length) → log.length ≤ j + capacity → cell (j % capacity) = log[j]

theorem KeepsEnd.nil : KeepsEnd cell capacity [] := by
  intro j hj
  exact absurd hj (Nat.not_lt_zero j)

/-- The next entry takes the cell of the one that leaves the window. -/
theorem KeepsEnd.append {log : List α} (h : KeepsEnd cell capacity log) (entry : α) :
    KeepsEnd (Function.update cell (log.length % capacity) entry) capacity (log ++ [entry]) := by
  intro j hj hwindow
  rw [List.length_append, List.length_singleton] at hj hwindow
  rcases Nat.lt_succ_iff_lt_or_eq.mp hj with hold | rfl
  · have hne : (j + 0) % capacity ≠ (j + (log.length - j)) % capacity :=
      ring_index_ne (by omega) (by omega)
    rw [Nat.add_zero, Nat.add_sub_cancel' (Nat.le_of_lt hold)] at hne
    rw [Function.update_of_ne hne, h j hold (by omega), List.getElem_append_left hold]
  · rw [Function.update_self, List.getElem_append_right (Nat.le_refl _)]
    simp

/-- Going back `count` cells from the cell of the next entry. -/
theorem ring_start {length count : Nat} (hcount : count ≤ capacity) (hlength : count ≤ length)
    (i : Nat) : ((length % capacity + capacity - count) % capacity + i) % capacity =
      (length - count + i) % capacity := by
  have hback : length % capacity + capacity - count + capacity * (length / capacity) =
      length - count + capacity := by
    have := Nat.mod_add_div length capacity
    omega
  rw [Nat.mod_add_mod, ← Nat.add_mul_mod_self_left _ capacity (length / capacity),
    show length % capacity + capacity - count + i + capacity * (length / capacity) =
      length - count + i + capacity by omega, Nat.add_mod_right]

end Os1
