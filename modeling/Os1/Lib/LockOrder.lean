import Mathlib.Data.Set.Finite.Lemmas

/-! Processors that take locks in nested scopes, and the order that keeps them out of a circle. -/
namespace Os1.LockOrder

/-- What code does with locks. Data decide which choice is taken, how often a loop runs and which
value is picked. -/
inductive Skeleton (L : Type) : Type 1 where
  | skip
  | seq (a b : Skeleton L)
  | choice (a b : Skeleton L)
  | loop (a : Skeleton L)
  | pick {α : Type} (f : α → Skeleton L)
  /-- The lock is held in the scope of the body. -/
  | locked (lock : L) (body : Skeleton L)

/-- What a processor has left to do. -/
inductive Item (L : Type) : Type 1 where
  | code (a : Skeleton L)
  | unlock (lock : L)

/-- The locks that each processor holds, the last one first, and what it has left to do. -/
structure Machine (C L : Type) : Type 1 where
  held : C → List L
  rest : C → List (Item L)

variable {C L : Type}

/-- A step inside the code that touches no lock. -/
inductive Silent : List (Item L) → List (Item L) → Prop where
  | skip {k} : Silent (.code .skip :: k) k
  | seq {a b k} : Silent (.code (.seq a b) :: k) (.code a :: .code b :: k)
  | left {a b k} : Silent (.code (.choice a b) :: k) (.code a :: k)
  | right {a b k} : Silent (.code (.choice a b) :: k) (.code b :: k)
  | leave {a k} : Silent (.code (.loop a) :: k) k
  | again {a k} : Silent (.code (.loop a) :: k) (.code a :: .code (.loop a) :: k)
  | pick {α : Type} {f : α → Skeleton L} {k} (x : α) :
      Silent (.code (.pick f) :: k) (.code (f x) :: k)

section Steps

variable [DecidableEq C] [DecidableEq L]

def Machine.put (s : Machine C L) (c : C) (held : List L) (k : List (Item L)) : Machine C L where
  held := Function.update s.held c held
  rest := Function.update s.rest c k

/-- One processor moves. It starts a call when it has nothing to do or is interrupted, which it is
only while it holds no lock; it takes a lock only when no processor holds it. -/
inductive Step (calls : C → Skeleton L → Prop) : Machine C L → Machine C L → Prop where
  | call {s c a} : s.held c = [] → calls c a → Step calls s (s.put c [] (.code a :: s.rest c))
  | silent {s c k} : Silent (s.rest c) k → Step calls s (s.put c (s.held c) k)
  | acquire {s c l a k} : s.rest c = .code (.locked l a) :: k → (∀ d, l ∉ s.held d) →
      Step calls s (s.put c (l :: s.held c) (.code a :: .unlock l :: k))
  | release {s c l k} : s.rest c = .unlock l :: k → Step calls s (s.put c ((s.held c).erase l) k)

def start : Machine C L where
  held := fun _ => []
  rest := fun _ => []

def Reachable (calls : C → Skeleton L → Prop) (s : Machine C L) : Prop :=
  Relation.ReflTransGen (Step calls) start s

end Steps

/-- The next thing that the processor does is to take the lock. -/
def Wants (s : Machine C L) (c : C) (l : L) : Prop := ∃ a k, s.rest c = .code (.locked l a) :: k

/-- A set of processors of which each waits for a lock that a member holds. -/
def Circle (s : Machine C L) (S : Set C) : Prop :=
  ∀ c ∈ S, ∃ l, Wants s c l ∧ ∃ d ∈ S, l ∈ s.held d

/-! ## Locks taken in order -/

variable {ι : Type} [LinearOrder ι]

/-- Code that, run with some locks held, takes only locks that come after those it holds. -/
@[simp] def Ordered (rank : L → ι) : List L → Skeleton L → Prop
  | _, .skip => True
  | held, .seq a b => Ordered rank held a ∧ Ordered rank held b
  | held, .choice a b => Ordered rank held a ∧ Ordered rank held b
  | held, .loop a => Ordered rank held a
  | held, .pick f => ∀ x, Ordered rank held (f x)
  | held, .locked l a => (∀ m ∈ held, rank m < rank l) ∧ Ordered rank (l :: held) a

/-- The held locks are those that are still to be released, and what runs before is ordered. -/
inductive Sound (rank : L → ι) : List L → List (Item L) → Prop where
  | done : Sound rank [] []
  | code {held a k} : Ordered rank held a → Sound rank held k → Sound rank held (.code a :: k)
  | unlock {held l k} : Sound rank held k → Sound rank (l :: held) (.unlock l :: k)

variable {rank : L → ι} {calls : C → Skeleton L → Prop} {s s' : Machine C L} {c : C} {l : L}
  {k k' : List (Item L)} {held : List L}

theorem Sound.head {a : Skeleton L} (h : Sound rank held (.code a :: k)) :
    Ordered rank held a ∧ Sound rank held k := by
  cases h with
  | code ha hk => exact ⟨ha, hk⟩

theorem Sound.silent (h : Sound rank held k) (hk : Silent k k') : Sound rank held k' := by
  cases hk with
  | skip => cases h with | code _ hk => exact hk
  | seq => cases h with | code ha hk => exact .code ha.1 (.code ha.2 hk)
  | left => cases h with | code ha hk => exact .code ha.1 hk
  | right => cases h with | code ha hk => exact .code ha.2 hk
  | leave => cases h with | code _ hk => exact hk
  | again => cases h with | code ha hk => exact .code ha (.code ha hk)
  | pick x => cases h with | code ha hk => exact .code (ha x) hk

section Runs

variable [DecidableEq C]

theorem sound_put (h : ∀ d, Sound rank (s.held d) (s.rest d)) (hc : Sound rank held k) (d : C) :
    Sound rank ((s.put c held k).held d) ((s.put c held k).rest d) := by
  by_cases hd : d = c
  · subst hd
    simpa [Machine.put] using hc
  · simpa [Machine.put, hd] using h d

variable [DecidableEq L]

theorem sound_step (hcalls : ∀ c a, calls c a → Ordered rank [] a)
    (h : ∀ d, Sound rank (s.held d) (s.rest d)) (hs : Step calls s s') (d : C) :
    Sound rank (s'.held d) (s'.rest d) := by
  cases hs with
  | @call c a hidle ha =>
    refine sound_put h (.code (hcalls c a ha) ?_) d
    rw [← hidle]
    exact h c
  | @silent c k hk => exact sound_put h ((h c).silent hk) d
  | @acquire c l a k hrest hfree =>
    have hc := h c
    rw [hrest] at hc
    exact sound_put h (.code hc.head.1.2 (.unlock hc.head.2)) d
  | @release c l k hrest =>
    have hc := h c
    rw [hrest] at hc
    generalize hheld : s.held c = held at hc
    cases hc with
    | unlock hk => exact sound_put h (by simpa using hk) d

theorem sound_reachable (hcalls : ∀ c a, calls c a → Ordered rank [] a)
    (h : Reachable calls s) (d : C) : Sound rank (s.held d) (s.rest d) := by
  induction h generalizing d with
  | refl => exact .done
  | tail _ hstep ih => exact sound_step hcalls ih hstep d

/-! ## Moves of one processor -/

theorem Machine.put_put (s : Machine C L) (c : C) (held held' : List L) (k k' : List (Item L)) :
    (s.put c held k).put c held' k' = s.put c held' k' := by
  simp [Machine.put]

theorem Reachable.call {a : Skeleton L} (h : Reachable calls s) (hidle : s.held c = [])
    (ha : calls c a) : Reachable calls (s.put c [] (.code a :: s.rest c)) :=
  h.tail (.call hidle ha)

theorem Reachable.silent (h : Reachable calls (s.put c held k)) (hk : Silent k k') :
    Reachable calls (s.put c held k') := by
  have hstep : Step calls (s.put c held k)
      ((s.put c held k).put c ((s.put c held k).held c) k') :=
    .silent (by simpa [Machine.put] using hk)
  rw [Machine.put_put, show (s.put c held k).held c = held by simp [Machine.put]] at hstep
  exact h.tail hstep

theorem Reachable.acquire {a : Skeleton L}
    (h : Reachable calls (s.put c held (.code (.locked l a) :: k)))
    (hfree : ∀ d, l ∉ (s.put c held (.code (.locked l a) :: k)).held d) :
    Reachable calls (s.put c (l :: held) (.code a :: .unlock l :: k)) := by
  have hrest : (s.put c held (.code (.locked l a) :: k)).rest c = .code (.locked l a) :: k := by
    simp [Machine.put]
  have hheld : (s.put c held (.code (.locked l a) :: k)).held c = held := by simp [Machine.put]
  have hstep : Step calls _ _ := .acquire hrest hfree
  rw [Machine.put_put, hheld] at hstep
  exact h.tail hstep

end Runs

/-- A lock that is wanted comes after all that are held. -/
theorem Sound.wants (h : Sound rank (s.held c) (s.rest c)) (hw : Wants s c l) :
    ∀ m ∈ s.held c, rank m < rank l := by
  obtain ⟨a, k, hrest⟩ := hw
  rw [hrest] at h
  exact h.head.1.1

/-- A lock that a processor holds is not the one it wants. -/
theorem Sound.not_held (h : Sound rank (s.held c) (s.rest c)) (hw : Wants s c l) :
    l ∉ s.held c :=
  fun hl => lt_irrefl _ (h.wants hw l hl)

/-- Along a circle the wanted locks would come later and later. -/
theorem not_circle (h : ∀ c, Sound rank (s.held c) (s.rest c)) {S : Set C} (hfinite : S.Finite)
    (hne : S.Nonempty) : ¬ Circle s S := by
  intro hcircle
  obtain ⟨c₀, hc₀⟩ := hne
  obtain ⟨l₀, -⟩ := hcircle c₀ hc₀
  have : Nonempty L := ⟨l₀⟩
  choose! want hwants hheld using hcircle
  obtain ⟨c, hc, hmax⟩ := Set.exists_max_image S (fun c => rank (want c)) hfinite ⟨c₀, hc₀⟩
  obtain ⟨d, hd, hl⟩ := hheld c hc
  have hlt := (h d).wants (hwants d hd) (want c) hl
  exact absurd (hmax d hd) (not_le.mpr hlt)

end Os1.LockOrder
