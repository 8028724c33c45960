import Mathlib.Data.List.Nodup

/-! Linked lists in a heap of records that point to the next record. -/
namespace Os1

variable {α : Type*} {next next' : α → Option α} {head stop stop' : Option α}
  {l l₁ l₂ : List α} {x y : α}

/-- Following `next` from `head` meets the records of the list and ends at `stop`. -/
def Seg (next : α → Option α) : Option α → List α → Option α → Prop
  | head, [], stop => head = stop
  | head, x :: xs, stop => head = some x ∧ Seg next (next x) xs stop

namespace Seg

theorem append : Seg next head (l₁ ++ l₂) stop ↔
    ∃ middle, Seg next head l₁ middle ∧ Seg next middle l₂ stop := by
  induction l₁ generalizing head with
  | nil => simp [Seg]
  | cons x xs ih => simp [Seg, ih, and_assoc]

/-- Only the links of the records on the list matter. -/
theorem congr (h : Seg next head l stop) (hnext : ∀ x ∈ l, next' x = next x) :
    Seg next' head l stop := by
  induction l generalizing head with
  | nil => exact h
  | cons x xs ih =>
    refine ⟨h.1, ?_⟩
    rw [hnext x (List.mem_cons_self ..)]
    exact ih h.2 fun y hy => hnext y (List.mem_cons_of_mem x hy)

/-- The last record may be made to point elsewhere. -/
theorem retarget (h : Seg next head (l ++ [x]) stop) (hnext : ∀ y ∈ l, next' y = next y)
    (hlast : next' x = stop') : Seg next' head (l ++ [x]) stop' := by
  obtain ⟨middle, hl, hx, -⟩ := append.mp h
  exact append.mpr ⟨middle, hl.congr hnext, hx, hlast⟩

theorem not_mem_getLast (hl : (l ++ [x]).Nodup) (hy : y ∈ l) : y ∉ (l ++ [x]).getLast? := by
  rw [List.getLast?_concat, Option.mem_some_iff]
  rintro rfl
  exact (List.disjoint_of_nodup_append hl) hy (List.mem_singleton_self _)

/-- A record that is on no list can be appended behind the last one. -/
theorem pushBack (h : Seg next head l none) (hl : l.Nodup)
    (hlast : ∀ x ∈ l.getLast?, next' x = some y)
    (hrest : ∀ x ∈ l, x ∉ l.getLast? → next' x = next x) (hnew : next' y = none) :
    Seg next' (if l = [] then some y else head) (l ++ [y]) none := by
  rcases List.eq_nil_or_concat l with rfl | ⟨xs, x, rfl⟩
  · simp [Seg, hnew]
  · rw [List.concat_eq_append] at *
    rw [if_neg (by simp)]
    have hxs : ∀ z ∈ xs, next' z = next z := fun z hz =>
      hrest z (by simp [hz]) (not_mem_getLast hl hz)
    exact append.mpr ⟨some y, h.retarget hxs (hlast x (by simp)), rfl, hnew⟩

/-- A record can be taken out by making the one before it point past it. -/
theorem remove (h : Seg next head (l₁ ++ x :: l₂) none) (hl : (l₁ ++ x :: l₂).Nodup)
    (hprevious : ∀ p ∈ l₁.getLast?, next' p = next x)
    (hrest : ∀ y ∈ l₁ ++ l₂, y ∉ l₁.getLast? → next' y = next y) :
    Seg next' (if l₁ = [] then next x else head) (l₁ ++ l₂) none := by
  obtain ⟨middle, h₁, hx, h₂⟩ := append.mp h
  have h₂' : Seg next' (next x) l₂ none := by
    refine h₂.congr fun y hy => hrest y (by simp [hy]) fun hlast => ?_
    have hmem : y ∈ l₁ := List.mem_of_getLast? hlast
    exact (List.disjoint_of_nodup_append hl) hmem (List.mem_cons_of_mem x hy)
  rcases List.eq_nil_or_concat l₁ with rfl | ⟨xs, p, rfl⟩
  · simpa using h₂'
  · rw [List.concat_eq_append] at *
    rw [if_neg (by simp)]
    have hxs : ∀ z ∈ xs, next' z = next z := fun z hz =>
      hrest z (by simp [hz]) (not_mem_getLast (List.nodup_append.mp hl).1 hz)
    exact append.mpr ⟨next x, h₁.retarget hxs (hprevious p (by simp)), h₂'⟩

end Seg

/-! ## Loops -/

/-- A loop that follows `next` up to a record that satisfies `p`: the record before the place where
it ends, and the record that it has met. `none` says that it has not ended after `fuel` turns. -/
def walk (next : α → Option α) (p : α → Bool) :
    (fuel : Nat) → (previous cursor : Option α) → Option (Option α × Option α)
  | _, previous, none => some (previous, none)
  | 0, _, some _ => none
  | fuel + 1, previous, some x =>
    if p x then some (previous, some x) else walk next p fuel (some x) (next x)

theorem Seg.walk_absent {p : α → Bool} {fuel : Nat} (h : Seg next head l none) (previous : Option α)
    (hp : ∀ x ∈ l, p x = false) (hfuel : l.length ≤ fuel) :
    walk next p fuel previous head = some (l.getLast?.or previous, none) := by
  induction l generalizing head previous fuel with
  | nil =>
    obtain rfl : head = none := h
    cases fuel <;> rfl
  | cons x xs ih =>
    obtain ⟨rfl, h⟩ := h
    obtain ⟨fuel, rfl⟩ := Nat.exists_eq_add_of_le' hfuel
    have hx : p x = false := hp x (List.mem_cons_self ..)
    have hxs : ∀ y ∈ xs, p y = false := fun y hy => hp y (List.mem_cons_of_mem x hy)
    simp only [List.length_cons, ← Nat.add_assoc, walk, hx]
    refine (ih h (some x) hxs (Nat.le_add_left ..)).trans ?_
    rw [List.getLast?_cons]
    cases xs.getLast? <;> rfl

theorem Seg.walk_found {p : α → Bool} {fuel : Nat} (h : Seg next head (l₁ ++ x :: l₂) none)
    (hl : (l₁ ++ x :: l₂).Nodup) (previous : Option α) (hx : p x = true)
    (hp : ∀ y ∈ l₁, p y = true → y = x) (hfuel : (l₁ ++ x :: l₂).length ≤ fuel) :
    walk next p fuel previous head = some (l₁.getLast?.or previous, some x) := by
  obtain ⟨fuel, rfl⟩ := Nat.exists_eq_add_of_le' hfuel
  induction l₁ generalizing head previous with
  | nil =>
    obtain ⟨rfl, -⟩ := h
    simp [walk, hx, ← Nat.add_assoc]
  | cons y ys ih =>
    obtain ⟨rfl, h⟩ := h
    have hy : p y = false := by
      refine Bool.eq_false_iff.mpr fun hy => ?_
      have heq : y = x := hp y (List.mem_cons_self ..) hy
      simp [heq] at hl
    have hys : ∀ z ∈ ys, p z = true → z = x := fun z hz => hp z (List.mem_cons_of_mem y hz)
    simp only [List.cons_append, List.length_cons, ← Nat.add_assoc, walk, hy]
    refine (ih h hl.of_cons (some y) hys (Nat.le_add_left ..)).trans ?_
    rw [List.getLast?_cons]
    cases ys.getLast? <;> rfl

/-- A loop that reads the link of each record before it hands the record to `f`: the records that
it hands over, first to last. -/
def drain {S : Type*} (link : S → α → Option α) (f : S → α → S) :
    (fuel : Nat) → (cursor : Option α) → S → Option (List α × S)
  | _, none, s => some ([], s)
  | 0, some _, _ => none
  | fuel + 1, some x, s =>
    (drain link f fuel (link s x) (f s x)).map fun r => (x :: r.1, r.2)

/-- What `f` does to a record may change its own link. -/
theorem Seg.drain {S : Type*} (link : S → α → Option α) (f : S → α → S) (s : S) {fuel : Nat}
    (h : Seg (link s) head l none) (hl : l.Nodup) (hfuel : l.length ≤ fuel)
    (hf : ∀ s x y, y ≠ x → link (f s x) y = link s y) :
    drain link f fuel head s = some (l, l.foldl f s) := by
  induction l generalizing head fuel s with
  | nil =>
    obtain rfl : head = none := h
    cases fuel <;> rfl
  | cons x xs ih =>
    obtain ⟨rfl, h⟩ := h
    obtain ⟨fuel, rfl⟩ := Nat.exists_eq_add_of_le' hfuel
    have hx : x ∉ xs := (List.nodup_cons.mp hl).1
    have hrest : Seg (link (f s x)) (link s x) xs none :=
      h.congr fun y hy => hf s x y fun heq => hx (heq ▸ hy)
    simp [Os1.drain, ← Nat.add_assoc, ih (f s x) hrest hl.of_cons (Nat.le_add_left ..)]

end Os1
