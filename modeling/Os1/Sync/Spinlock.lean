import Mathlib.Logic.Function.Basic

/-! Spinlocks, and the guards that keep interrupts off while one is held. -/
namespace Os1.Sync

/-- A scope that a flow of control has entered. -/
inductive Scope (L : Type) where
  /-- `IrqGuard` has read the flags and is about to turn interrupts off. -/
  | disabling (restoreInterrupts : Bool)
  | guarded (restoreInterrupts : Bool)
  /-- `Spinlock::lock` is about to exchange. -/
  | exchanging (lock : L)
  /-- It waits in the inner loop. -/
  | spinning (lock : L)
  | holding (lock : L)
  /-- The handler of an interrupt. -/
  | handler

variable {C L : Type}

def held : List (Scope L) → List L
  | .holding l :: scopes => l :: held scopes
  | _ :: scopes => held scopes
  | [] => []

/-- The interrupt flag is `enabled` in these scopes, and `base` outside of all. -/
def Nested (base : Bool) : List (Scope L) → (enabled : Bool) → Prop
  | [], enabled => enabled = base
  | .disabling r :: scopes, enabled => r = enabled ∧ Nested base scopes enabled
  | .guarded r :: scopes, enabled => enabled = false ∧ Nested base scopes r
  | .handler :: scopes, enabled => enabled = false ∧ Nested base scopes true
  | _ :: scopes, enabled => enabled = false ∧ Nested base scopes false

/-- `IrqSpinGuard` is `guard`, then `lock`; its destructor is `unlock`, then `leave`. -/
inductive SpinAction (L : Type) where
  | guard
  | lock (lock : L)
  /-- The next instruction of a constructor or of `Spinlock::lock`. -/
  | turn
  | unlock
  | leave
  | interrupt
  | iret

/-- A flow of control is in some scopes, innermost first. `locked_` is 0 where `owner` is `none`,
else 1; `owner` tells who has set it. -/
structure SpinSystem (C L : Type) where
  owner : L → Option C
  interrupts : C → Bool
  scopes : C → List (Scope L)

namespace SpinSystem

variable [DecidableEq C] [DecidableEq L]

def put (s : SpinSystem C L) (c : C) (scopes : List (Scope L)) (enabled : Bool)
    (owner : L → Option C := s.owner) : SpinSystem C L where
  owner
  interrupts := Function.update s.interrupts c enabled
  scopes := Function.update s.scopes c scopes

def step (s : SpinSystem C L) : C × SpinAction L → SpinSystem C L
  | (c, action) =>
    let enabled := s.interrupts c
    match action, s.scopes c with
    | .guard, scopes => s.put c (.disabling enabled :: scopes) enabled
    -- The code takes locks only where interrupts are off.
    | .lock l, scopes => if enabled then s else s.put c (.exchanging l :: scopes) enabled
    | .turn, .disabling r :: scopes => s.put c (.guarded r :: scopes) false
    | .turn, .exchanging l :: scopes =>
      if s.owner l = none then
        s.put c (.holding l :: scopes) enabled (Function.update s.owner l (some c))
      else s.put c (.spinning l :: scopes) enabled
    | .turn, .spinning l :: scopes =>
      if s.owner l = none then s.put c (.exchanging l :: scopes) enabled else s
    | .unlock, .holding l :: scopes => s.put c scopes enabled (Function.update s.owner l none)
    | .leave, .guarded r :: scopes => s.put c scopes (r || enabled)
    -- The gate turns interrupts off, and `iretq` restores the flags.
    | .interrupt, scopes => if enabled then s.put c (.handler :: scopes) false else s
    | .iret, .handler :: scopes => s.put c scopes true
    | _, _ => s

def run (s : SpinSystem C L) (actions : List (C × SpinAction L)) : SpinSystem C L :=
  actions.foldl step s

def start (interrupts : C → Bool) : SpinSystem C L where
  owner _ := none
  interrupts
  scopes _ := []

/-! ## Exclusion -/

variable {s : SpinSystem C L} {base : C → Bool} {c : C} {l : L}
  {scopes : List (Scope L)} {enabled : Bool}

structure Sound (base : C → Bool) (s : SpinSystem C L) : Prop where
  nested (c : C) : Nested (base c) (s.scopes c) (s.interrupts c)
  /-- The owner of a lock has entered its scope once, and nobody else. -/
  owned (c : C) (l : L) : (held (s.scopes c)).count l = if s.owner l = some c then 1 else 0

theorem Sound.put {owner : L → Option C} (h : Sound base s)
    (hn : Nested (base c) scopes enabled)
    (howned : ∀ l, (held scopes).count l = if owner l = some c then 1 else 0)
    (hothers : ∀ d, d ≠ c → ∀ l, owner l = some d ↔ s.owner l = some d) :
    Sound base (s.put c scopes enabled owner) := by
  refine ⟨fun d => ?_, fun d l => ?_⟩ <;> by_cases hd : d = c
  · subst hd
    simpa [SpinSystem.put] using hn
  · simpa [SpinSystem.put, hd] using h.nested d
  · subst hd
    have hput : (s.put d scopes enabled owner).scopes d = scopes := Function.update_self ..
    rw [hput]
    exact howned l
  · simpa [SpinSystem.put, hd, hothers d hd l] using h.owned d l

/-- An action that takes and releases no lock. -/
theorem Sound.keep {old : List (Scope L)} (h : Sound base s) (hs : s.scopes c = old)
    (hn : Nested (base c) old (s.interrupts c) → Nested (base c) scopes enabled)
    (hsame : held scopes = held old) : Sound base (s.put c scopes enabled) := by
  subst hs
  exact h.put (hn (h.nested c)) (fun l => hsame ▸ h.owned c l) fun _ _ _ => Iff.rfl

/-- A lock passes between flow `c` and nobody. -/
theorem Sound.pass {o : Option C} (h : Sound base s) (hn : Nested (base c) scopes enabled)
    (hbefore : ∀ d, d ≠ c → s.owner l ≠ some d) (hafter : ∀ d, d ≠ c → o ≠ some d)
    (hl : (held scopes).count l = if o = some c then 1 else 0)
    (hrest : ∀ m, m ≠ l → (held scopes).count m = (held (s.scopes c)).count m) :
    Sound base (s.put c scopes enabled (Function.update s.owner l o)) := by
  refine h.put hn (fun m => ?_) (fun d hd m => ?_) <;> by_cases hm : m = l
  · simpa [hm] using hl
  · simpa [hm] using (hrest m hm).trans (h.owned c m)
  · simp [hm, hbefore d hd, hafter d hd]
  · simp [hm]

theorem Sound.step (h : Sound base s) (c : C) (action : SpinAction L) :
    Sound base (s.step (c, action)) := by
  have hn := h.nested c
  have howned := h.owned c
  unfold SpinSystem.step
  dsimp only
  -- The cases follow the rows of the definition.
  split
  next => exact h.keep rfl (fun hn => ⟨rfl, hn⟩) rfl
  next =>
    split
    · exact h
    · next hoff => exact h.keep rfl (fun hn => by simpa [hoff, Nested] using hn) rfl
  next hs => exact h.keep hs (fun hn => ⟨rfl, hn.1 ▸ hn.2⟩) rfl
  next l scopes hs =>
    split
    · next hfree =>
      rw [hs] at hn howned
      refine h.pass hn (by simp [hfree]) (by simp [eq_comm]) ?_ fun m hm => ?_
      · simpa [held, hfree] using howned l
      · simp [hs, held, Ne.symm hm]
    · exact h.keep hs id rfl
  next hs =>
    split
    · exact h.keep hs id rfl
    · exact h
  next l scopes hs =>
    rw [hs] at hn howned
    have hmine : s.owner l = some c := by
      by_contra hne
      simpa [held, hne] using howned l
    refine h.pass (hn.1 ▸ hn.2) (by simp [hmine, eq_comm]) (by simp) ?_ fun m hm => ?_
    · simpa [held, hmine] using howned l
    · simp [hs, held, Ne.symm hm]
  next hs => exact h.keep hs (fun hn => by simpa [hn.1] using hn.2) rfl
  next =>
    split
    · next hon => exact h.keep rfl (fun hn => ⟨rfl, hon ▸ hn⟩) rfl
    · exact h
  next hs => exact h.keep hs And.right rfl
  next => exact h

theorem Sound.run (h : Sound base s) (actions : List (C × SpinAction L)) :
    Sound base (s.run actions) :=
  List.foldlRecOn actions SpinSystem.step h fun _ h a _ => h.step a.1 a.2

end SpinSystem
end Os1.Sync
