import Mathlib.Tactic.Common

/-! Properties of every step of a run of a deterministic machine. -/
namespace Os1

variable {S A : Type*} {step : S → A → S} {P Q : S → A → Prop} {s : S}
  {actions : List A}

/-- `P` holds of each action of the run and the state in which it is taken. -/
def Along (step : S → A → S) (P : S → A → Prop) : S → List A → Prop
  | _, [] => True
  | s, a :: actions => P s a ∧ Along step P (step s a) actions

theorem Along.congr (h : ∀ s a, P s a ↔ Q s a) :
    Along step P s actions ↔ Along step Q s actions := by
  induction actions generalizing s with
  | nil => exact Iff.rfl
  | cons a actions ih => exact and_congr (h s a) ih

theorem Along.append {more : List A} (h : Along step P s actions)
    (hmore : Along step P (actions.foldl step s) more) : Along step P s (actions ++ more) := by
  induction actions generalizing s with
  | nil => exact hmore
  | cons b actions ih => exact ⟨h.1, ih h.2 hmore⟩

theorem Along.snoc {a : A} (h : Along step P s actions) (ha : P (actions.foldl step s) a) :
    Along step P s (actions ++ [a]) := by
  exact h.append ⟨ha, trivial⟩

theorem Along.of_true : Along step (fun _ _ => True) s actions := by
  induction actions generalizing s with
  | nil => trivial
  | cons a actions ih => exact ⟨trivial, ih⟩

/-- Steps that meet `P` keep the invariant and have `Q`, so runs of such steps have `Q` along. -/
theorem Along.imp_of_inv (Inv : S → Prop)
    (hstep : ∀ s a, Inv s → P s a → Inv (step s a) ∧ Q s a) (h : Inv s)
    (hP : Along step P s actions) : Along step Q s actions := by
  induction actions generalizing s with
  | nil => trivial
  | cons a actions ih =>
    obtain ⟨hinv, hq⟩ := hstep s a h hP.1
    exact ⟨hq, ih hinv hP.2⟩

/-- An invariant of the steps that meet `P` holds in every state of a run of such steps. -/
theorem Along.invariant (Inv : S → Prop) (hstep : ∀ s a, Inv s → P s a → Inv (step s a))
    (h : Inv s) (hP : Along step P s actions) (n : Nat) :
    Inv ((actions.take n).foldl step s) := by
  induction actions generalizing s n with
  | nil => simpa using h
  | cons a actions ih =>
    cases n with
    | zero => exact h
    | succ n => exact ih (hstep s a h hP.1) hP.2 n

/-- Where a step keeps `Good` exactly when it meets `P`, and what is not `Good` stays so, a run ends
in a `Good` state exactly when each of its steps meets `P`. -/
theorem Along.iff_of_lasting (Inv Good : S → Prop) (hinv : ∀ s a, Inv s → Inv (step s a))
    (hgood : ∀ s a, Inv s → Good s → (Good (step s a) ↔ P s a))
    (hbad : ∀ s a, Inv s → ¬ Good s → ¬ Good (step s a)) (h : Inv s) (hs : Good s) :
    Good (actions.foldl step s) ↔ Along step P s actions := by
  have hlost : ∀ (actions : List A) (s : S), Inv s → ¬ Good s → ¬ Good (actions.foldl step s) := by
    intro actions
    induction actions with
    | nil => exact fun _ _ hs => hs
    | cons a actions ih => exact fun s h hs => ih _ (hinv s a h) (hbad s a h hs)
  induction actions generalizing s with
  | nil => exact ⟨fun _ => trivial, fun _ => hs⟩
  | cons a actions ih =>
    by_cases hP : P s a
    · have hnext := (hgood s a h hs).mpr hP
      exact (ih (hinv s a h) hnext).trans ⟨fun hrest => ⟨hP, hrest⟩, And.right⟩
    · have hnext : ¬ Good (step s a) := fun hg => hP ((hgood s a h hs).mp hg)
      exact ⟨fun hg => absurd hg (hlost actions _ (hinv s a h) hnext), fun hP' => absurd hP'.1 hP⟩

/-- Where the steps that meet `P` keep an invariant that makes states `Good`, and any other step
ends in a state that is not, all states of a run within `Q` are `Good` exactly when each step meets
`P`. -/
theorem Along.iff_forall_of (Inv Good : S → Prop) (hgood : ∀ s, Inv s → Good s)
    (hstep : ∀ s a, Inv s → Q s a → P s a → Inv (step s a))
    (hbad : ∀ s a, Inv s → Q s a → ¬ P s a → ¬ Good (step s a)) (h : Inv s)
    (hQ : Along step Q s actions) :
    (∀ n, Good ((actions.take n).foldl step s)) ↔ Along step P s actions := by
  induction actions generalizing s with
  | nil => exact ⟨fun _ => trivial, fun _ n => by simpa using hgood s h⟩
  | cons a actions ih =>
    constructor
    · intro hall
      have hP : P s a := by
        by_contra hP
        exact hbad s a h hQ.1 hP (hall 1)
      exact ⟨hP, (ih (hstep s a h hQ.1 hP) hQ.2).mp fun n => hall (n + 1)⟩
    · rintro ⟨hP, hrest⟩ n
      cases n with
      | zero => exact hgood s h
      | succ n => exact (ih (hstep s a h hQ.1 hP) hQ.2).mpr hrest n

/-- The same for runs without a restriction. -/
theorem Along.iff_forall (Inv Good : S → Prop) (hgood : ∀ s, Inv s → Good s)
    (hstep : ∀ s a, Inv s → P s a → Inv (step s a))
    (hbad : ∀ s a, Inv s → ¬ P s a → ¬ Good (step s a)) (h : Inv s) :
    (∀ n, Good ((actions.take n).foldl step s)) ↔ Along step P s actions := by
  exact Along.iff_forall_of Inv Good hgood (fun s a h _ => hstep s a h)
    (fun s a h _ => hbad s a h) h Along.of_true

end Os1
