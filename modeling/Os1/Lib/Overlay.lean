import Mathlib.Data.List.Induction

/-! Layers laid over one another: at each point the last layer that covers it decides. -/
namespace Os1

variable {α β γ δ : Type} {covers : α → β → Prop} [∀ x b, Decidable (covers x b)] {f : α → β → γ}
  {layers : List α} {x : α} {b : β}

/-- The value of the last layer that covers the point. -/
def overlay (covers : α → β → Prop) [∀ x b, Decidable (covers x b)] (f : α → β → γ)
    (layers : List α) : β → Option γ :=
  layers.foldl (fun M x b => if covers x b then some (f x b) else M b) fun _ => none

/-- The layer is the last one that covers the point. -/
def IsTop (covers : α → β → Prop) (layers : List α) (x : α) (b : β) : Prop :=
  ∃ before after, layers = before ++ x :: after ∧ covers x b ∧ ∀ y ∈ after, ¬ covers y b

theorem overlay_append : overlay covers f (layers ++ [x]) b =
    if covers x b then some (f x b) else overlay covers f layers b := by
  rw [overlay, List.foldl_append]
  rfl

theorem overlay_of_uncovered {after : List α} (h : ∀ y ∈ after, ¬ covers y b) :
    overlay covers f (layers ++ after) b = overlay covers f layers b := by
  induction after using List.reverseRecOn with
  | nil => rw [List.append_nil]
  | append_singleton after y ih =>
    rw [← List.append_assoc, overlay_append, if_neg (h y (by simp)),
      ih fun z hz => h z (List.mem_append_left _ hz)]

theorem IsTop.overlay (h : IsTop covers layers x b) : overlay covers f layers b = some (f x b) := by
  obtain ⟨before, after, rfl, hx, hafter⟩ := h
  rw [List.append_cons, overlay_of_uncovered hafter, overlay_append, if_pos hx]

theorem IsTop.mem (h : IsTop covers layers x b) : x ∈ layers := by
  obtain ⟨before, after, rfl, -⟩ := h
  simp

theorem exists_isTop (h : x ∈ layers) (hx : covers x b) : ∃ y, IsTop covers layers y b := by
  induction layers using List.reverseRecOn with
  | nil => cases h
  | append_singleton layers y ih =>
    by_cases hy : covers y b
    · exact ⟨y, layers, [], rfl, hy, by simp⟩
    · have hmem : x ∈ layers := by
        rcases List.mem_append.mp h with h | h
        · exact h
        · rw [List.mem_singleton.mp h] at hx
          exact (hy hx).elim
      obtain ⟨z, before, after, rfl, hz, hafter⟩ := ih hmem
      refine ⟨z, before, after ++ [y], by simp, hz, fun w hw => ?_⟩
      rcases List.mem_append.mp hw with hw | hw
      · exact hafter w hw
      · rwa [List.mem_singleton.mp hw]

theorem overlay_eq_some {v : γ} (h : overlay covers f layers b = some v) :
    ∃ x, IsTop covers layers x b ∧ v = f x b := by
  by_cases hx : ∃ x ∈ layers, covers x b
  · obtain ⟨x, hmem, hx⟩ := hx
    obtain ⟨y, hy⟩ := exists_isTop hmem hx
    exact ⟨y, hy, Option.some.inj (h.symm.trans hy.overlay)⟩
  · have hnone : overlay covers f ([] ++ layers) b = none :=
      overlay_of_uncovered fun y hy hc => hx ⟨y, hy, hc⟩
    rw [List.nil_append, h] at hnone
    cases hnone

/-- A layer that covers a point after its own place is below one that comes later. -/
theorem IsTop.of_after {before after : List α} {y : α} (hy : y ∈ after) (hc : covers y b) :
    ∃ z ∈ after, IsTop covers (before ++ x :: after) z b := by
  obtain ⟨z, b1, a1, rfl, hz, ha⟩ := exists_isTop hy hc
  exact ⟨z, by simp, before ++ x :: b1, a1, by simp, hz, ha⟩

/-- Layers that cover nothing do not matter. -/
theorem overlay_filter {keep : α → Bool} (h : ∀ x b, covers x b → keep x = true) :
    overlay covers f (layers.filter keep) = overlay covers f layers := by
  funext b
  induction layers using List.reverseRecOn with
  | nil => rfl
  | append_singleton layers y ih =>
    rw [List.filter_append, overlay_append, ← ih]
    by_cases hk : keep y = true
    · rw [List.filter_cons_of_pos hk, List.filter_nil, overlay_append]
    · rw [List.filter_cons_of_neg hk, List.filter_nil, List.append_nil,
        if_neg fun hc => hk (h y b hc)]

end Os1
