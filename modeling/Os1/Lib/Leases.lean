import Mathlib.Data.Set.Insert
import Mathlib.Data.List.Nodup

/-! Tokens of a pool that are held by the entries of a registry. -/
namespace Os1

/-- The tokens taken from a pool, and the entries that hold tokens. -/
structure Leases (V R : Type*) where
  taken : Set V
  entries : List R

namespace Leases

section Moves

variable {V R : Type*} (token : R → V) (managed : Set V)

/-- A new entry takes its token from the pool. -/
def take (l : Leases V R) (r : R) : Leases V R := ⟨insert (token r) l.taken, l.entries ++ [r]⟩

/-- A new entry whose token the pool does not manage. -/
def enter (l : Leases V R) (r : R) : Leases V R := ⟨l.taken, l.entries ++ [r]⟩

/-- Entries leave the registry, and some of them give their tokens back. -/
def drop (l : Leases V R) (gone returned : R → Bool) : Leases V R :=
  ⟨l.taken \ {v | ∃ r ∈ l.entries, gone r ∧ returned r ∧ token r = v},
    l.entries.filter fun r => !gone r⟩

inductive Move : Leases V R → Leases V R → Prop where
  | stay (l : Leases V R) : Move l l
  | take (l : Leases V R) (r : R) (hr : token r ∈ managed) (hfree : token r ∉ l.taken) :
      Move l (l.take token r)
  | enter (l : Leases V R) (r : R) (hr : token r ∉ managed)
      (hnew : ∀ q ∈ l.entries, token q ≠ token r) : Move l (l.enter r)
  | drop (l : Leases V R) (gone returned : R → Bool) : Move l (l.drop token gone returned)

end Moves

section Tracking

variable {V R : Type*} (token : R → V) (managed fixed : Set V)

/-- Distinct entries hold distinct tokens, and what is held, or fixed, is taken. -/
structure Sound (l : Leases V R) : Prop where
  distinct : (l.entries.map token).Nodup
  held : ∀ r ∈ l.entries, token r ∈ managed → token r ∈ l.taken
  fixed_taken : ∀ v ∈ fixed, v ∈ managed ∧ v ∈ l.taken
  apart : ∀ r ∈ l.entries, token r ∉ fixed

/-- A managed token is taken exactly when it is fixed or held by an entry. -/
def Tracked (l : Leases V R) : Prop :=
  ∀ v ∈ managed, v ∈ l.taken ↔ v ∈ fixed ∨ ∃ r ∈ l.entries, token r = v

/-- A token is taken, but nothing holds it. -/
def Leaks (l : Leases V R) : Prop :=
  ∃ v ∈ managed, v ∈ l.taken ∧ v ∉ fixed ∧ ∀ r ∈ l.entries, token r ≠ v

/-- No managed token of a departing entry stays behind. -/
def Returned (l : Leases V R) (gone returned : R → Bool) : Prop :=
  ∀ r ∈ l.entries, gone r → token r ∈ managed → returned r

end Tracking

variable {V R : Type*} {token : R → V} {managed fixed : Set V} {l m : Leases V R} {r : R}
  {gone returned : R → Bool}

theorem Sound.eq_of_token_eq (h : Sound token managed fixed l) {q : R} (hq : q ∈ l.entries)
    (hr : r ∈ l.entries) (heq : token q = token r) : q = r :=
  List.inj_on_of_nodup_map h.distinct hq hr heq

theorem Sound.tracked_iff (h : Sound token managed fixed l) :
    Tracked token managed fixed l ↔ ¬ Leaks token managed fixed l := by
  constructor
  · rintro ht ⟨v, hv, htaken, hfixed, hheld⟩
    rcases (ht v hv).mp htaken with hf | ⟨r, hr, rfl⟩
    · exact hfixed hf
    · exact hheld r hr rfl
  · intro hl v hv
    constructor
    · intro htaken
      by_contra hnone
      rw [not_or, not_exists] at hnone
      exact hl ⟨v, hv, htaken, hnone.1, fun r hr heq => hnone.2 r ⟨hr, heq⟩⟩
    · rintro (hf | ⟨r, hr, rfl⟩)
      · exact (h.fixed_taken v hf).2
      · exact h.held r hr hv

/-! ## What each move keeps -/

/-- A new entry's token is held by no other entry, be it managed or not. -/
theorem Sound.append (h : Sound token managed fixed l) (hnew : ∀ q ∈ l.entries, token q ≠ token r)
    (hr : token r ∉ fixed) {taken : Set V} (hsub : l.taken ⊆ taken)
    (htaken : token r ∈ managed → token r ∈ taken) :
    Sound token managed fixed ⟨taken, l.entries ++ [r]⟩ where
  distinct := by
    rw [List.map_append, List.nodup_append]
    refine ⟨h.distinct, by simp, ?_⟩
    simpa using hnew
  held q hq hm := by
    rcases List.mem_append.mp hq with hq | hq
    · exact hsub (h.held q hq hm)
    · cases List.mem_singleton.mp hq
      exact htaken hm
  fixed_taken v hv := ⟨(h.fixed_taken v hv).1, hsub (h.fixed_taken v hv).2⟩
  apart q hq := by
    rcases List.mem_append.mp hq with hq | hq
    · exact h.apart q hq
    · cases List.mem_singleton.mp hq
      exact hr

theorem Sound.drop (h : Sound token managed fixed l) (gone returned : R → Bool) :
    Sound token managed fixed (l.drop token gone returned) where
  distinct := h.distinct.sublist (List.filter_sublist.map token)
  held r hr hm := by
    obtain ⟨hr, hstays⟩ := List.mem_filter.mp hr
    refine ⟨h.held r hr hm, ?_⟩
    rintro ⟨q, hq, hgone, -, heq⟩
    rw [h.eq_of_token_eq hq hr heq] at hgone
    simp [hgone] at hstays
  fixed_taken v hv := by
    refine ⟨(h.fixed_taken v hv).1, (h.fixed_taken v hv).2, ?_⟩
    rintro ⟨q, hq, -, -, rfl⟩
    exact h.apart q hq hv
  apart r hr := h.apart r (List.mem_of_mem_filter hr)

theorem Move.sound (hm : Move token managed l m) (h : Sound token managed fixed l) :
    Sound token managed fixed m := by
  cases hm with
  | stay => exact h
  | take r hr hfree =>
    have hnew : ∀ q ∈ l.entries, token q ≠ token r := by
      intro q hq heq
      exact hfree (heq ▸ h.held q hq (heq ▸ hr))
    exact h.append hnew (fun hf => hfree (h.fixed_taken _ hf).2) (Set.subset_insert _ _)
      fun _ => Set.mem_insert _ _
  | enter r hr hnew =>
    exact h.append hnew (fun hf => hr (h.fixed_taken _ hf).1) subset_rfl fun hm => absurd hm hr
  | drop gone returned => exact h.drop gone returned

/-- A token that leaked is never handed out again and never comes back. -/
theorem Move.leaks (hm : Move token managed l m) (h : Leaks token managed fixed l) :
    Leaks token managed fixed m := by
  obtain ⟨v, hv, htaken, hfixed, hheld⟩ := h
  cases hm with
  | stay => exact ⟨v, hv, htaken, hfixed, hheld⟩
  | take r hr hfree =>
    refine ⟨v, hv, Set.mem_insert_of_mem _ htaken, hfixed, fun q hq => ?_⟩
    rcases List.mem_append.mp hq with hq | hq
    · exact hheld q hq
    · cases List.mem_singleton.mp hq
      exact fun heq => hfree (heq ▸ htaken)
  | enter r hr hnew =>
    refine ⟨v, hv, htaken, hfixed, fun q hq => ?_⟩
    rcases List.mem_append.mp hq with hq | hq
    · exact hheld q hq
    · cases List.mem_singleton.mp hq
      exact fun heq => hr (heq ▸ hv)
  | drop gone returned =>
    refine ⟨v, hv, ⟨htaken, ?_⟩, hfixed, fun q hq => hheld q (List.mem_of_mem_filter hq)⟩
    rintro ⟨q, hq, -, -, heq⟩
    exact hheld q hq heq

theorem Tracked.take (h : Tracked token managed fixed l) (r : R) :
    Tracked token managed fixed (l.take token r) := by
  intro v hv
  have := h v hv
  simp only [Leases.take, Set.mem_insert_iff, List.mem_append, List.mem_singleton, this]
  grind

theorem Tracked.enter (h : Tracked token managed fixed l) (hr : token r ∉ managed) :
    Tracked token managed fixed (l.enter r) := by
  intro v hv
  have hne : token r ≠ v := fun heq => hr (heq ▸ hv)
  simp only [Leases.enter, h v hv, List.mem_append, List.mem_singleton]
  grind

/-- Dropping entries keeps track exactly when it leaves no managed token behind. -/
theorem Sound.tracked_drop_iff (hs : Sound token managed fixed l)
    (h : Tracked token managed fixed l) :
    Tracked token managed fixed (l.drop token gone returned) ↔
      l.Returned token managed gone returned := by
  constructor
  · intro ht r hr hgone hm
    by_contra hkept
    have htaken : token r ∈ (l.drop token gone returned).taken := by
      refine ⟨hs.held r hr hm, ?_⟩
      rintro ⟨q, hq, -, hret, heq⟩
      rw [hs.eq_of_token_eq hq hr heq] at hret
      exact hkept hret
    rcases (ht _ hm).mp htaken with hf | ⟨q, hq, heq⟩
    · exact hs.apart r hr hf
    · obtain ⟨hq, hstays⟩ := List.mem_filter.mp hq
      rw [hs.eq_of_token_eq hq hr heq] at hstays
      simp [hgone] at hstays
  · intro hret
    rw [(hs.drop gone returned).tracked_iff]
    rintro ⟨v, hv, ⟨htaken, hout⟩, hfixed, hheld⟩
    rcases (h v hv).mp htaken with hf | ⟨r, hr, rfl⟩
    · exact hfixed hf
    · by_cases hgone : gone r
      · exact hout ⟨r, hr, hgone, hret r hr hgone hv, rfl⟩
      · exact hheld r (List.mem_filter.mpr ⟨hr, by simp [hgone]⟩) rfl

theorem drop_of_stay (hstay : ∀ q ∈ l.entries, ¬ gone q) : l.drop token gone returned = l := by
  have hentries : l.entries.filter (fun r => !gone r) = l.entries :=
    List.filter_eq_self.mpr fun q hq => by simp [hstay q hq]
  have htaken : l.taken \ {v | ∃ r ∈ l.entries, gone r ∧ returned r ∧ token r = v} = l.taken := by
    refine Set.ext fun v => ⟨And.left, fun hv => ⟨hv, ?_⟩⟩
    rintro ⟨q, hq, hgone, -⟩
    exact hstay q hq hgone
  rw [drop, hentries, htaken]

/-- Where tokens are distinct, erasing the entry of a token is filtering it out. -/
theorem eraseP_token [DecidableEq V] {entries : List R} (h : (entries.map token).Nodup) (v : V) :
    (entries.eraseP fun r => token r = v) = entries.filter fun r => !decide (token r = v) := by
  induction entries with
  | nil => rfl
  | cons r entries ih =>
    rw [List.map_cons, List.nodup_cons] at h
    by_cases hr : token r = v
    · have hrest : entries.filter (fun q => !decide (token q = v)) = entries := by
        refine List.filter_eq_self.mpr fun q hq => ?_
        have hne : token q ≠ v := fun heq => h.1 (hr ▸ heq ▸ List.mem_map_of_mem hq)
        simp [hne]
      simp [hr, hrest]
    · simp [hr, ih h.2]

/-- Taking a token for an entry and dropping just that entry restores the pool exactly when the
entry returns its token. -/
theorem take_drop_taken_iff (hfree : token r ∉ l.taken) (hgone : gone r)
    (hstay : ∀ q ∈ l.entries, ¬ gone q) :
    ((l.take token r).drop token gone returned).taken = l.taken ↔ returned r := by
  have hmem : ∀ v, v ∈ ((l.take token r).drop token gone returned).taken ↔
      (v = token r ∨ v ∈ l.taken) ∧ ¬ (returned r ∧ token r = v) := by
    intro v
    simp only [Leases.drop, Leases.take, Set.mem_diff, Set.mem_insert_iff, Set.mem_setOf_eq,
      List.mem_append, List.mem_singleton]
    refine and_congr_right fun _ => not_congr ⟨?_, fun h => ⟨r, .inr rfl, hgone, h⟩⟩
    rintro ⟨q, hq | rfl, hq', h⟩
    · exact absurd hq' (hstay q hq)
    · exact h
  constructor
  · intro heq
    by_contra hkept
    exact hfree (heq ▸ (hmem (token r)).mpr ⟨.inl rfl, fun h => hkept h.1⟩)
  · intro hret
    ext v
    rw [hmem]
    constructor
    · rintro ⟨rfl | hv, hout⟩
      · exact absurd ⟨hret, rfl⟩ hout
      · exact hv
    · exact fun hv => ⟨.inr hv, fun h => hfree (h.2 ▸ hv)⟩

end Leases
end Os1
