import Os1.Lib.Word64
import Os1.Lib.CycleRing

/-! Transfer request blocks, and the single stores that write them. -/
namespace Os1.Xhci

def kTrbBytes : Nat := 16
def kTrbTypeLink : BitVec 32 := 6#32
def kTrbTypeTransferEvent : BitVec 8 := 32#8
def kTrbTypeCommandCompletionEvent : BitVec 8 := 33#8
def kTrbTypePortStatusChangeEvent : BitVec 8 := 34#8
def kTrbCycleBit : BitVec 32 := 1#32
def kLinkTrbToggleCycle : BitVec 32 := 2#32
def kTrbTypeShift : Nat := 10
def kTrbTypeMask : BitVec 32 := 0x3F#32 <<< kTrbTypeShift
def kEventCompletionCodeShift : Nat := 24
def kEventTransferLengthMask : BitVec 32 := 0x00FFFFFF#32

/-- The value a 32-bit field keeps. -/
def u32 (n : Nat) : Nat := n % 2 ^ 32

theorem u32_of_lt {n : Nat} (h : n < 2 ^ 32) : u32 n = n := Nat.mod_eq_of_lt h

structure Trb where
  parameterLow : BitVec 32
  parameterHigh : BitVec 32
  status : BitVec 32
  control : BitVec 32
  deriving DecidableEq, Repr

def Trb.zero : Trb := ⟨0#32, 0#32, 0#32, 0#32⟩

structure TrbFields where
  parameter : BitVec 64
  status : BitVec 32
  control : BitVec 32
  deriving DecidableEq, Repr

/-- The ring memory, one block an index. -/
abbrev Trbs := Nat → Trb

/-- The address of a block of the ring. -/
def trbAddress (ringPhysical : BitVec 64) (index : Nat) : BitVec 64 :=
  ringPhysical + BitVec.ofNat 64 (index * kTrbBytes)

/-- `(control & ~kTrbCycleBit) | (cycle ? kTrbCycleBit : 0)` -/
def withCycle (control : BitVec 32) (cycle : Bool) : BitVec 32 :=
  control &&& ~~~kTrbCycleBit ||| (if cycle then kTrbCycleBit else 0#32)

namespace Trb

/-- The cycle bit, as both sides read it. -/
def cycle (t : Trb) : Bool := t.control &&& kTrbCycleBit ≠ 0#32

def parameter (t : Trb) : BitVec 64 :=
  t.parameterHigh.zeroExtend 64 <<< 32 ||| t.parameterLow.zeroExtend 64

/-- The block that carries the fields, marked with a cycle bit. -/
def ofFields (f : TrbFields) (cycle : Bool) : Trb where
  parameterLow := f.parameter.truncate 32
  parameterHigh := (f.parameter >>> 32).truncate 32
  status := f.status
  control := withCycle f.control cycle

end Trb

/-- One store to a field of a block. -/
inductive TrbStore where
  | parameterLow (value : BitVec 32)
  | parameterHigh (value : BitVec 32)
  | status (value : BitVec 32)
  | control (value : BitVec 32)
  deriving DecidableEq, Repr

def TrbStore.apply (t : Trb) : TrbStore → Trb
  | .parameterLow value => { t with parameterLow := value }
  | .parameterHigh value => { t with parameterHigh := value }
  | .status value => { t with status := value }
  | .control value => { t with control := value }

/-- The stores that write a block, the word with the cycle bit last. -/
def Trb.stores (t : Trb) : List TrbStore :=
  [.parameterLow t.parameterLow, .parameterHigh t.parameterHigh, .status t.status,
    .control t.control]

def Trbs.store (trbs : Trbs) (index : Nat) (s : TrbStore) : Trbs :=
  Function.update trbs index (s.apply (trbs index))

theorem Trbs.store_self (trbs : Trbs) (i : Nat) (s : TrbStore) :
    trbs.store i s i = s.apply (trbs i) := Function.update_self ..

theorem Trbs.store_of_ne (trbs : Trbs) {i j : Nat} (s : TrbStore) (h : j ≠ i) :
    trbs.store i s j = trbs j := Function.update_of_ne h ..

theorem foldl_stores (event t : Trb) : event.stores.foldl TrbStore.apply t = event := rfl

/-- A store that is not the last of its event leaves the cycle bit alone. -/
theorem cycle_of_stage {event t : Trb} {k : Nat} {first next : TrbStore} {rest : List TrbStore}
    (h : first :: next :: rest = event.stores.drop k) : (first.apply t).cycle = t.cycle := by
  match k, h with
  | 0, h => rw [(List.cons.inj h).1]; rfl
  | 1, h => rw [(List.cons.inj h).1]; rfl
  | 2, h => rw [(List.cons.inj h).1]; rfl
  | 3, h => exact absurd (congrArg List.length h) (by simp [Trb.stores])
  | k + 4, h => exact absurd (congrArg List.length h) (by simp [Trb.stores])

theorem cycle_withCycle (control : BitVec 32) (c : Bool) :
    (decide (withCycle control c &&& kTrbCycleBit ≠ 0#32)) = c := by
  have hone : ∀ i, kTrbCycleBit.getLsbD i = decide (i = 0) := by
    intro i
    unfold kTrbCycleBit
    rw [BitVec.getLsbD_one]
    simp
  have hbit : (withCycle control c &&& kTrbCycleBit) = if c then kTrbCycleBit else 0#32 := by
    apply BitVec.eq_of_getLsbD_eq
    intro i hi
    cases c with
    | false =>
      simp only [withCycle, BitVec.getLsbD_and, BitVec.getLsbD_or, BitVec.getLsbD_not, hone]
      by_cases h0 : i = 0 <;> simp [h0]
    | true =>
      simp only [withCycle, BitVec.getLsbD_and, BitVec.getLsbD_or, BitVec.getLsbD_not, hone,
        if_true]
      by_cases h0 : i = 0 <;> simp [h0]
  rw [hbit]
  cases c <;> decide

theorem Trb.cycle_ofFields (f : TrbFields) (c : Bool) : (Trb.ofFields f c).cycle = c :=
  cycle_withCycle f.control c

theorem Trb.parameter_ofFields (f : TrbFields) (c : Bool) :
    (Trb.ofFields f c).parameter = f.parameter := by
  apply BitVec.eq_of_getLsbD_eq
  intro i hi
  by_cases h : i < 32
  · simp [Trb.parameter, Trb.ofFields, h, hi]
  · simp [Trb.parameter, Trb.ofFields, h, hi, show i - 32 < 32 by omega,
      show 32 + (i - 32) = i by omega]

/-- The fields with the cycle bit cleared. -/
def TrbFields.clean (f : TrbFields) : TrbFields := { f with control := withCycle f.control false }

/-- What a block carries besides its cycle bit. -/
def Trb.fields (t : Trb) : TrbFields := ⟨t.parameter, t.status, withCycle t.control false⟩

/-- Bits other than the lowest do not depend on the cycle state. -/
theorem withCycle_and (control mask : BitVec 32) (c : Bool) (h : mask.getLsbD 0 = false) :
    withCycle control c &&& mask = control &&& mask := by
  apply BitVec.eq_of_getLsbD_eq
  intro i hi
  by_cases h0 : i = 0
  · rw [h0, BitVec.getLsbD_and, BitVec.getLsbD_and, h, Bool.and_false, Bool.and_false]
  · have hone : kTrbCycleBit.getLsbD i = false := by
      unfold kTrbCycleBit
      rw [BitVec.getLsbD_one]
      simp [h0]
    have hmark : (if c then kTrbCycleBit else 0#32).getLsbD i = false := by
      cases c
      · exact BitVec.getLsbD_zero
      · exact hone
    rw [withCycle, BitVec.getLsbD_and, BitVec.getLsbD_and, BitVec.getLsbD_or, BitVec.getLsbD_and,
      BitVec.getLsbD_not, hone, hmark]
    simp [hi]

theorem withCycle_withCycle (control : BitVec 32) (c d : Bool) :
    withCycle (withCycle control c) d = withCycle control d := by
  have hmask : (~~~kTrbCycleBit).getLsbD 0 = false := by decide
  unfold withCycle
  rw [show (control &&& ~~~kTrbCycleBit ||| if c then kTrbCycleBit else 0#32) = withCycle control c
    from rfl, withCycle_and control _ c hmask]

theorem Trb.fields_ofFields (f : TrbFields) (c : Bool) : (Trb.ofFields f c).fields = f.clean := by
  unfold Trb.fields TrbFields.clean
  rw [Trb.parameter_ofFields]
  simp only [Trb.ofFields, withCycle_withCycle]

end Os1.Xhci
