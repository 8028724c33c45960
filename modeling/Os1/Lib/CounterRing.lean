import Mathlib.Tactic.Common

/-! Rings whose cells are addressed by running counters that wrap. -/
namespace Os1.CounterRing

variable {α : Type*} {cell cell' : Nat → α} {wrap size first : Nat} {xs ys : List α}

/-- The cell of the entry with the given running number. -/
def place (wrap size n : Nat) : Nat := n % wrap % size

/-- The entries from number `first` on are in their cells. -/
def Holds (cell : Nat → α) (wrap size : Nat) : Nat → List α → Prop
  | _, [] => True
  | first, x :: xs => cell (place wrap size first) = x ∧ Holds cell wrap size (first + 1) xs

/-- Wherever `count` entries begin, the cell after them is none of theirs. -/
def Fits (wrap size count : Nat) : Prop :=
  ∀ first, ∀ k < count, place wrap size (first + k) ≠ place wrap size (first + count)

theorem fits_zero : Fits wrap size 0 := fun _ _ hk => absurd hk (Nat.not_lt_zero _)

/-- A ring whose size divides the turn of the counters can be filled. -/
theorem fits_of_dvd {count : Nat} (hdvd : size ∣ wrap) (hcount : count < size) :
    Fits wrap size count := by
  intro first k hk heq
  simp only [place, Nat.mod_mod_of_dvd _ hdvd] at heq
  have hmod : (count - k) % size = 0 := by
    have := Nat.sub_mod_eq_zero_of_mod_eq heq.symm
    rwa [Nat.add_sub_add_left] at this
  rw [Nat.mod_eq_of_lt (by omega)] at hmod
  omega

theorem Holds.congr (h : Holds cell wrap size first xs)
    (hcell : ∀ k < xs.length, cell' (place wrap size (first + k)) =
      cell (place wrap size (first + k))) : Holds cell' wrap size first xs := by
  induction xs generalizing first with
  | nil => trivial
  | cons x xs ih =>
    refine ⟨(hcell 0 (Nat.succ_pos _)).trans h.1, ih h.2 fun k hk => ?_⟩
    have := hcell (k + 1) (Nat.succ_lt_succ hk)
    rwa [Nat.add_comm k 1, ← Nat.add_assoc] at this

theorem Holds.append (hx : Holds cell wrap size first xs)
    (hy : Holds cell wrap size (first + xs.length) ys) :
    Holds cell wrap size first (xs ++ ys) := by
  induction xs generalizing first with
  | nil => exact hy
  | cons x xs ih =>
    refine ⟨hx.1, ih hx.2 ?_⟩
    rwa [List.length_cons, Nat.add_comm xs.length 1, ← Nat.add_assoc] at hy

/-- Writing the cell after the entries adds one to them. -/
theorem Holds.push (h : Holds cell wrap size first xs) (hfits : Fits wrap size xs.length) (x : α) :
    Holds (Function.update cell (place wrap size (first + xs.length)) x) wrap size first
      (xs ++ [x]) := by
  refine Holds.append (h.congr fun k hk => ?_) ⟨Function.update_self _ _ _, trivial⟩
  exact Function.update_of_ne (hfits first k hk) _ _

/-- A counter that has run ahead by less than a full turn is not where it was. -/
theorem counter_ne {n : Nat} (hn : 0 < n) (hlt : n < wrap) :
    (first + n) % wrap ≠ first % wrap := by
  intro heq
  have hdvd : wrap ∣ n := by
    have := Nat.sub_mod_eq_zero_of_mod_eq heq
    rw [Nat.add_sub_cancel_left] at this
    exact Nat.dvd_of_mod_eq_zero this
  exact absurd (Nat.le_of_dvd hn hdvd) (by omega)

end Os1.CounterRing
