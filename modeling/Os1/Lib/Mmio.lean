import Mathlib.Tactic.Common

/-! Programs that access the registers of a device, with a trace of the bytes they touch. -/
namespace Os1

/-- A device behind registers: what an access returns, and what it does to the device. -/
structure Device (σ : Type) where
  read : σ → Nat → Nat → Nat × σ
  write : σ → Nat → Nat → Nat → σ

namespace Mmio

structure Access where
  address : Nat
  bytes : Nat
  deriving DecidableEq, Repr

/-- The device, and as history the accesses so far. -/
structure Bus (σ : Type) where
  state : σ
  trace : List Access := []

abbrev Program (σ α : Type) := StateM (Bus σ) α

/-- The access touches only bytes of the region. -/
def Access.Inside (base size : Nat) (access : Access) : Prop :=
  base ≤ access.address ∧ access.address + access.bytes ≤ base + size

instance (base size : Nat) : DecidablePred (Access.Inside base size) :=
  fun _ => inferInstanceAs (Decidable (_ ∧ _))

variable {σ α β : Type} {device : Device σ} {P : Access → Prop}

/-- Read a register of `width` bits. -/
def read (device : Device σ) (width address : Nat) : Program σ (BitVec width) := fun bus =>
  let (value, state) := device.read bus.state address (width / 8)
  (BitVec.ofNat width value, ⟨state, bus.trace ++ [⟨address, width / 8⟩]⟩)

def write {width : Nat} (device : Device σ) (address : Nat) (value : BitVec width) :
    Program σ Unit := fun bus =>
  ((), ⟨device.write bus.state address (width / 8) value.toNat,
    bus.trace ++ [⟨address, width / 8⟩]⟩)

@[simp]
theorem run_bind (program : Program σ α) (next : α → Program σ β) (bus : Bus σ) :
    (program >>= next) bus = next (program bus).1 (program bus).2 := rfl

@[simp]
theorem run_pure (a : α) (bus : Bus σ) : (pure a : Program σ α) bus = (a, bus) := rfl

@[simp]
theorem run_ite {c : Prop} [Decidable c] (p q : Program σ α) (bus : Bus σ) :
    (if c then p else q) bus = if c then p bus else q bus := by
  split <;> rfl

/-- All accesses of the program have the property. -/
def Touches (P : Access → Prop) (program : Program σ α) : Prop :=
  ∀ bus, ∃ accesses, (program bus).2.trace = bus.trace ++ accesses ∧ ∀ access ∈ accesses, P access

theorem Touches.pure (a : α) : Touches P (pure a : Program σ α) := by
  intro bus
  exact ⟨[], (List.append_nil _).symm, by simp⟩

theorem Touches.bind {program : Program σ α} {next : α → Program σ β} (h : Touches P program)
    (hnext : ∀ a, Touches P (next a)) : Touches P (program >>= next) := by
  intro bus
  obtain ⟨first, hfirst, hP⟩ := h bus
  obtain ⟨second, hsecond, hQ⟩ := hnext (program bus).1 (program bus).2
  refine ⟨first ++ second, ?_, ?_⟩
  · rw [← List.append_assoc, ← hfirst]
    exact hsecond
  · intro access hmem
    exact (List.mem_append.mp hmem).elim (hP access) (hQ access)

theorem Touches.discard {program : Program σ α} (h : Touches P program) :
    Touches P (discard program) := by
  exact h

theorem Touches.ite {c : Prop} [Decidable c] {p q : Program σ α} (hp : c → Touches P p)
    (hq : ¬ c → Touches P q) : Touches P (if c then p else q) := by
  split
  · exact hp ‹_›
  · exact hq ‹_›

theorem Touches.read {width address : Nat} (h : P ⟨address, width / 8⟩) :
    Touches P (read device width address) := by
  intro bus
  exact ⟨[⟨address, width / 8⟩], rfl, by simpa using h⟩

theorem Touches.write {width address : Nat} {value : BitVec width} (h : P ⟨address, width / 8⟩) :
    Touches P (write device address value) := by
  intro bus
  exact ⟨[⟨address, width / 8⟩], rfl, by simpa using h⟩

/-- Programs for a list of calls, one after the other. -/
theorem Touches.forM {calls : List β} {run : β → Program σ Unit}
    (h : ∀ call ∈ calls, Touches P (run call)) : Touches P (calls.forM run) := by
  induction calls with
  | nil => exact .pure ()
  | cons call calls ih =>
    exact .bind (h call List.mem_cons_self) fun _ =>
      ih fun c hc => h c (List.mem_cons_of_mem _ hc)

end Mmio
end Os1
