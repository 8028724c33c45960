import Os1.Lib.ByteMemory

/-! Programs that read a memory, and the bytes they read. -/
namespace Os1

/-- A program that reads fields of some bytes and returns a value. -/
inductive Reader (α : Type) where
  | done (value : α)
  | read (address bytes : Nat) (next : Nat → Reader α)

namespace Reader

variable {α β : Type} {m m' : Memory} {limit : Nat}

def bind : Reader α → (α → Reader β) → Reader β
  | done value, f => f value
  | read address bytes next, f => read address bytes fun value => (next value).bind f

instance : Monad Reader where
  pure := done
  bind := bind

/-- The unsigned field of `bytes` bytes at the address. -/
def field (address bytes : Nat) : Reader Nat := read address bytes done

def run (m : Memory) : Reader α → α
  | done value => value
  | read address bytes next => (next (m.load address bytes)).run m

/-- The fields that are read, as addresses and sizes. -/
def accesses (m : Memory) : Reader α → List (Nat × Nat)
  | done _ => []
  | read address bytes next => (address, bytes) :: (next (m.load address bytes)).accesses m

@[simp]
theorem run_pure (a : α) : (pure a : Reader α).run m = a := rfl

@[simp]
theorem run_bind (p : Reader α) (f : α → Reader β) : (p >>= f).run m = (f (p.run m)).run m := by
  induction p with
  | done value => rfl
  | read address bytes next ih => exact ih _

@[simp]
theorem run_field (address bytes : Nat) : (field address bytes).run m = m.load address bytes := rfl

theorem run_ite {c : Prop} [Decidable c] (p q : Reader α) :
    (if c then p else q).run m = if c then p.run m else q.run m := by
  split <;> rfl

@[simp]
theorem accesses_pure (a : α) : (pure a : Reader α).accesses m = [] := rfl

@[simp]
theorem accesses_bind (p : Reader α) (f : α → Reader β) :
    (p >>= f).accesses m = p.accesses m ++ (f (p.run m)).accesses m := by
  induction p with
  | done value => rfl
  | read address bytes next ih => exact congrArg _ (ih _)

@[simp]
theorem accesses_field (address bytes : Nat) :
    (field address bytes).accesses m = [(address, bytes)] := rfl

/-- All fields end at the limit or before it. -/
def Within (m : Memory) (limit : Nat) (p : Reader α) : Prop :=
  ∀ access ∈ p.accesses m, access.1 + access.2 ≤ limit

theorem within_pure (a : α) : Within m limit (pure a : Reader α) := by
  simp [Within]

theorem within_bind {p : Reader α} {f : α → Reader β} :
    Within m limit (p >>= f) ↔ Within m limit p ∧ Within m limit (f (p.run m)) := by
  simp only [Within, accesses_bind, List.forall_mem_append]

theorem within_field {address bytes : Nat} :
    Within m limit (field address bytes) ↔ address + bytes ≤ limit := by
  simp [Within]

theorem within_ite {c : Prop} [Decidable c] {p q : Reader α} :
    Within m limit (if c then p else q) ↔
      (c → Within m limit p) ∧ (¬ c → Within m limit q) := by
  split <;> simp_all

/-- A program whose fields lie in equal parts of two memories does the same over both. -/
theorem Within.congr {p : Reader α} (h : Within m limit p) (heq : ∀ x < limit, m x = m' x) :
    p.run m' = p.run m ∧ p.accesses m' = p.accesses m := by
  induction p with
  | done value => exact ⟨rfl, rfl⟩
  | read address bytes next ih =>
    obtain ⟨hhead, htail⟩ := List.forall_mem_cons.mp h
    have hload : m'.load address bytes = m.load address bytes :=
      Memory.load_congr fun x _ hx => (heq x (Nat.lt_of_lt_of_le hx hhead)).symm
    obtain ⟨hrun, haccesses⟩ := ih _ htail
    exact ⟨by rw [run, run, hload, hrun], by rw [accesses, accesses, hload, haccesses]⟩

end Reader
end Os1
