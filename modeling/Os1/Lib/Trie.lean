import Mathlib.Data.List.Infix

/-! Nodes reached by following labelled edges from a root. -/
namespace Os1.Trie

variable {N I : Type*} {next next' : N → I → Option N} {root g : N} {q : List I} {j : I}

/-- The node at the end of a path. -/
def follow (next : N → I → Option N) (root : N) : List I → Option N
  | [] => some root
  | i :: p => (next root i).bind (follow next · p)

theorem follow_append (q r : List I) :
    follow next root (q ++ r) = (follow next root q).bind (follow next · r) := by
  induction q generalizing root with
  | nil => rfl
  | cons i q ih =>
    simp only [List.cons_append, follow]
    cases next root i with
    | none => rfl
    | some n => simpa using ih

theorem follow_snoc : follow next root (q ++ [j]) = (follow next root q).bind (next · j) := by
  rw [follow_append]
  congr 1
  funext n
  simp [follow]

/-- Paths that use no changed edge keep their node. -/
theorem follow_congr {S P : List I → Prop} (hS : ∀ q j, S (q ++ [j]) → S q)
    (hP : ∀ q j, P q → P (q ++ [j]))
    (h : ∀ q g j, S (q ++ [j]) → ¬ P (q ++ [j]) → follow next root q = some g →
      next' g j = next g j) :
    ∀ q, S q → ¬ P q → follow next' root q = follow next root q := by
  intro q
  induction q using List.reverseRecOn with
  | nil => intro _ _; rfl
  | append_singleton q j ih =>
    intro hs hp
    rw [follow_snoc, follow_snoc, ih (hS q j hs) (fun hq => hp (hP q j hq))]
    cases hg : follow next root q with
    | none => rfl
    | some g => exact h q g j hs hp hg

end Os1.Trie
