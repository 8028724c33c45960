import Os1.Irq.PciInterrupt
import Mathlib.Tactic.Ring

/-! The sizing of the base address registers (BARs) of a PCI function. -/
namespace Os1.Pci

open Irq (PciBarType)

/-! ## Configuration space -/

/-- A register some bits of which are hard-wired. -/
structure Register (w : Nat) where
  value : BitVec w
  writable : BitVec w
  deriving DecidableEq, Repr

namespace Register

variable {w : Nat}

def write (r : Register w) (v : BitVec w) : Register w :=
  { r with value := (v &&& r.writable) ||| (r.value &&& ~~~r.writable) }

/-- Bits outside `mask` are hard-wired to those of `fixed`. -/
structure Implements (r : Register w) (mask fixed : BitVec w) : Prop where
  writable : r.writable = mask
  fixed : r.value &&& ~~~mask = fixed

/-- The value before is back, whatever was written in between. -/
theorem write_restore (r : Register w) (v : BitVec w) : (r.write v).write r.value = r := by
  obtain ⟨value, writable⟩ := r
  simp only [write, Register.mk.injEq, and_true]
  ext i hi
  simp only [BitVec.getElem_or, BitVec.getElem_and, BitVec.getElem_not]
  cases value[i] <;> cases writable[i] <;> simp

theorem Implements.write_allOnes {r : Register w} {mask fixed : BitVec w}
    (h : r.Implements mask fixed) : (r.write (BitVec.allOnes w)).value = mask ||| fixed := by
  rw [write, h.writable, h.fixed, BitVec.allOnes_and]

/-- Where the bits of `low` are those that tell the kind of the register, the rest of it is what its
writable bits hold. -/
theorem Implements.value_and {r : Register w} {mask fixed : BitVec w}
    (h : r.Implements mask fixed) (low : BitVec w) (hfixed : fixed &&& ~~~low = 0#w)
    (hmask : mask &&& low = 0#w) :
    r.value &&& ~~~low = r.value &&& mask := by
  have hv := h.fixed
  ext i hi
  replace hv := congrArg (·.getLsbD i) hv
  replace hfixed := congrArg (·.getLsbD i) hfixed
  replace hmask := congrArg (·.getLsbD i) hmask
  simp [hi] at hv hfixed hmask ⊢
  grind

theorem Implements.low {r : Register w} {mask fixed : BitVec w}
    (h : r.Implements mask fixed) (low : BitVec w) (hfixed : fixed &&& ~~~low = 0#w)
    (hmask : mask &&& low = 0#w) :
    r.value &&& low = fixed := by
  have hv := h.fixed
  ext i hi
  replace hv := congrArg (·.getLsbD i) hv
  replace hfixed := congrArg (·.getLsbD i) hfixed
  replace hmask := congrArg (·.getLsbD i) hmask
  simp [hi] at hv hfixed hmask ⊢
  grind

theorem Implements.sized_and {r : Register w} {mask fixed : BitVec w}
    (h : r.Implements mask fixed) (low : BitVec w) (hfixed : fixed &&& ~~~low = 0#w)
    (hmask : mask &&& low = 0#w) :
    (r.write (BitVec.allOnes w)).value &&& ~~~low = mask := by
  rw [h.write_allOnes]
  ext i hi
  replace hfixed := congrArg (·.getLsbD i) hfixed
  replace hmask := congrArg (·.getLsbD i) hmask
  simp [hi] at hfixed hmask ⊢
  grind

end Register

/-- The command register and the 32-bit registers by their offset. -/
structure ConfigSpace where
  command : Register 16
  dword : Nat → Register 32

namespace ConfigSpace

def read32 (config : ConfigSpace) (offset : Nat) : BitVec 32 := (config.dword offset).value

def write32 (config : ConfigSpace) (offset : Nat) (value : BitVec 32) : ConfigSpace :=
  { config with dword := Function.update config.dword offset ((config.dword offset).write value) }

def writeCommand (config : ConfigSpace) (value : BitVec 16) : ConfigSpace :=
  { config with command := config.command.write value }

variable (config : ConfigSpace) (offset offset' : Nat) (v v' : BitVec 32)

theorem write32_restore :
    (config.write32 offset v).write32 offset (config.read32 offset) = config := by
  simp [write32, read32, Register.write_restore]

theorem write32_comm (h : offset ≠ offset') : (config.write32 offset v).write32 offset' v' =
    (config.write32 offset' v').write32 offset v := by
  simp [write32, h, h.symm, Function.update_comm h]

/-- Both halves of a 64-bit BAR. -/
theorem write32_restore_both (h : offset ≠ offset') :
    (((config.write32 offset v).write32 offset' v').write32 offset
      (config.read32 offset)).write32 offset' (config.read32 offset') = config := by
  rw [write32_comm _ _ _ _ _ h.symm, write32_restore, write32_restore]

theorem read32_write32_same :
    (config.write32 offset v).read32 offset = ((config.dword offset).write v).value := by
  simp [read32, write32]

theorem dword_write32_other (h : offset ≠ offset') :
    (config.write32 offset v).dword offset' = config.dword offset' := by
  simp [write32, h.symm]

theorem read32_write32_other (h : offset ≠ offset') :
    (config.write32 offset v).read32 offset' = config.read32 offset' := by
  simp [read32, write32, h.symm]

end ConfigSpace

/-! ## Sizing -/

structure PciBarInfo where
  base : BitVec 64
  size : BitVec 64
  type : PciBarType
  deriving DecidableEq, Repr

structure PciDevice where
  headerType : BitVec 8
  barCount : Nat
  bars : Nat → PciBarInfo

def PciDevice.setBar (device : PciDevice) (index : Nat) (bar : PciBarInfo) : PciDevice :=
  { device with bars := Function.update device.bars index bar }

def pciHeaderTypeKind (headerType : BitVec 8) : BitVec 8 := headerType &&& 0x7F#8

def barLimit (device : PciDevice) : Nat :=
  if pciHeaderTypeKind device.headerType = 1#8 then 2
  else if pciHeaderTypeKind device.headerType = 0#8 then 6 else 0

def barOffset (index : Nat) : Nat := 0x10 + index * 4

/-- An I/O BAR that reads `original`. -/
def sizeIoBar (config : ConfigSpace) (device : PciDevice) (index : Nat) (original : BitVec 32) :
    Nat × ConfigSpace × PciDevice :=
  let offset := barOffset index
  let config := config.write32 offset 0xFFFFFFFF#32
  let sized := config.read32 offset
  let config := config.write32 offset original
  let mask := sized &&& ~~~0x3#32
  if mask = 0#32 then (index + 1, config, device)
  else
    (index + 1, config, device.setBar index
      { base := (original &&& ~~~0x3#32).setWidth 64
        size := (~~~(mask.setWidth 64) + 1#64) &&& 0xFFFFFFFF#64
        type := .io })

/-- A memory BAR that reads `original`. -/
def sizeMemoryBar (config : ConfigSpace) (device : PciDevice) (index : Nat)
    (original : BitVec 32) : Nat × ConfigSpace × PciDevice :=
  let offset := barOffset index
  let is64Bit : Bool := 0x2#32 = (original >>> 1 &&& 0x3#32)
  let originalHigh := if is64Bit then config.read32 (offset + 4) else 0#32
  let config := config.write32 offset 0xFFFFFFFF#32
  let config := if is64Bit then config.write32 (offset + 4) 0xFFFFFFFF#32 else config
  let sizedLow := config.read32 offset
  let sizedHigh := if is64Bit then config.read32 (offset + 4) else 0#32
  let config := config.write32 offset original
  let config := if is64Bit then config.write32 (offset + 4) originalHigh else config
  let base := original.setWidth 64 &&& ~~~0xF#64
  let base := if is64Bit then base ||| originalHigh.setWidth 64 <<< 32 else base
  let sizeMask := sizedLow.setWidth 64 &&& ~~~0xF#64
  let sizeMask := if is64Bit then sizeMask ||| sizedHigh.setWidth 64 <<< 32 else sizeMask
  let type := if is64Bit then PciBarType.mmio64 else .mmio32
  if sizeMask = 0#64 then (if is64Bit then index + 2 else index + 1, config, device)
  else
    let device := device.setBar index { base, size := ~~~sizeMask + 1#64, type }
    if is64Bit ∧ index < 5 then
      (index + 2, config,
        device.setBar (index + 1) { device.bars (index + 1) with type := .unused })
    else (index + 1, config, device)

/-- One turn of the loop of `size_pci_bars`, with the index of the next one. -/
def sizePciBar (config : ConfigSpace) (device : PciDevice) (index : Nat) :
    Nat × ConfigSpace × PciDevice :=
  let original := config.read32 (barOffset index)
  if original = 0#32 then (index + 1, config, device)
  else if original &&& 0x1#32 ≠ 0#32 then sizeIoBar config device index original
  else sizeMemoryBar config device index original

/-- The loop of `size_pci_bars`: each turn raises the index, so `limit` turns are enough. -/
def sizePciBarsFrom (limit : Nat) :
    (turns index : Nat) → ConfigSpace → PciDevice → ConfigSpace × PciDevice
  | 0, _, config, device => (config, device)
  | turns + 1, index, config, device =>
    if index < limit then
      let next := sizePciBar config device index
      sizePciBarsFrom limit turns next.1 next.2.1 next.2.2
    else (config, device)

def sizePciBars (config : ConfigSpace) (device : PciDevice) : ConfigSpace × PciDevice :=
  let limit := barLimit device
  let device := { device with barCount := limit }
  if limit = 0 then (config, device)
  else
    let command := config.command.value
    let result := sizePciBarsFrom limit limit 0 (config.writeCommand (command &&& ~~~0x3#16)) device
    (result.1.writeCommand command, result.2)

variable {config : ConfigSpace} {device : PciDevice} {index k : Nat}

/-- Sizing a BAR leaves all registers as they were. -/
theorem sizePciBar_config (config : ConfigSpace) (device : PciDevice) (index : Nat) :
    (sizePciBar config device index).2.1 = config := by
  have hoffset : barOffset index ≠ barOffset index + 4 := by omega
  unfold sizePciBar
  dsimp only
  split
  next => rfl
  next =>
    split
    next =>
      unfold sizeIoBar
      dsimp only
      split <;> exact config.write32_restore _ _
    next =>
      unfold sizeMemoryBar
      dsimp only
      by_cases h64 : 0x2#32 = (config.read32 (barOffset index) >>> 1 &&& 0x3#32)
      · simp only [h64, decide_true, if_true]
        split
        · exact config.write32_restore_both _ _ _ _ hoffset
        · split <;> exact config.write32_restore_both _ _ _ _ hoffset
      · simp only [h64, decide_false, Bool.false_eq_true, if_false, false_and]
        split <;> exact config.write32_restore _ _

theorem sizePciBarsFrom_config (limit turns index : Nat) (config : ConfigSpace)
    (device : PciDevice) : (sizePciBarsFrom limit turns index config device).1 = config := by
  induction turns generalizing index config device with
  | zero => rfl
  | succ turns ih =>
    unfold sizePciBarsFrom
    split
    · exact (ih _ _ _).trans (sizePciBar_config config device index)
    · rfl

/-- Every BAR register and the command register has the value it had before. -/
theorem sizePciBars_config (config : ConfigSpace) (device : PciDevice) :
    (sizePciBars config device).1 = config := by
  unfold sizePciBars
  dsimp only
  split
  · rfl
  · rw [sizePciBarsFrom_config]
    simp [ConfigSpace.writeCommand, Register.write_restore]

/-! ## Conforming functions -/

/-- The writable bits of a BAR of `w` bits that decodes `2 ^ k` bytes. -/
def addressMask (w k : Nat) : BitVec w := BitVec.allOnes w <<< k

/-- What a BAR register starts: nothing where it reads zero, an I/O BAR with 32 or only 16 address
bits, or a memory BAR. The size is `2 ^ k` bytes. -/
inductive Bar where
  | zero
  | io (k : Nat) (wide : Bool)
  | mmio32 (k : Nat) (prefetchable : Bool)
  | mmio64 (k : Nat) (prefetchable : Bool)
  deriving DecidableEq, Repr

namespace Bar

/-- The number of registers. -/
def width : Bar → Nat
  | mmio64 _ _ => 2
  | _ => 1

def ioMask (k : Nat) (wide : Bool) : BitVec 32 :=
  if wide then addressMask 32 k else (addressMask 16 k).setWidth 32

/-- The registers from `index` on implement the BAR. -/
def At (config : ConfigSpace) (index : Nat) : Bar → Prop
  | zero => config.read32 (barOffset index) = 0#32
  | io k wide => 4 ≤ k ∧ k < (if wide then 32 else 16) ∧
    (config.dword (barOffset index)).Implements (ioMask k wide) 0x1#32
  | mmio32 k prefetchable => 4 ≤ k ∧ k < 32 ∧ config.read32 (barOffset index) ≠ 0#32 ∧
    (config.dword (barOffset index)).Implements (addressMask 32 k)
      (if prefetchable then 0x8#32 else 0x0#32)
  | mmio64 k prefetchable => 4 ≤ k ∧ k < 64 ∧
    (config.dword (barOffset index)).Implements ((addressMask 64 k).setWidth 32)
      (if prefetchable then 0xC#32 else 0x4#32) ∧
    (config.dword (barOffset index + 4)).Implements ((addressMask 64 k >>> 32).setWidth 32) 0#32

/-- The address in the writable bits of the registers. -/
def base (config : ConfigSpace) (index : Nat) : Bar → BitVec 64
  | zero => 0#64
  | io k wide => (config.read32 (barOffset index) &&& ioMask k wide).setWidth 64
  | mmio32 k _ => (config.read32 (barOffset index) &&& addressMask 32 k).setWidth 64
  | mmio64 k _ =>
    (config.read32 (barOffset index + 4) ++ config.read32 (barOffset index)) &&& addressMask 64 k

def RecordedAt (config : ConfigSpace) (before after : Nat → PciBarInfo) (index : Nat) (b : Bar) :
    Prop :=
  match b with
  | zero => after index = before index
  | io k _ => after index = ⟨b.base config index, BitVec.twoPow 64 k, .io⟩
  | mmio32 k _ => after index = ⟨b.base config index, BitVec.twoPow 64 k, .mmio32⟩
  | mmio64 k _ => after index = ⟨b.base config index, BitVec.twoPow 64 k, .mmio64⟩ ∧
    after (index + 1) = { before (index + 1) with type := .unused }

/-- The BARs whose size comes out right. -/
def Exact : Bar → Prop
  | zero => True
  | io _ wide => wide = true
  | mmio32 _ _ => False
  | mmio64 _ _ => True

end Bar

/-- The registers from `index` on implement the BARs of the list one after the other. -/
def Layout (config : ConfigSpace) : Nat → List Bar → Prop
  | _, [] => True
  | index, b :: bars => b.At config index ∧ Layout config (index + b.width) bars

def Recorded (config : ConfigSpace) (before after : Nat → PciBarInfo) : Nat → List Bar → Prop
  | _, [] => True
  | index, b :: bars => b.RecordedAt config before after index ∧
    Recorded config before after (index + b.width) bars

/-! ## Words -/

theorem getLsbD_addressMask (w k j : Nat) :
    (addressMask w k).getLsbD j = (decide (j < w) && decide (k ≤ j)) := by
  by_cases hj : j < w
  · by_cases hk : k ≤ j
    · simp [addressMask, hj, hk]
    · simp [addressMask, hk]
  · simp [addressMask, hj]

theorem neg_addressMask (w k : Nat) : ~~~(addressMask w k) + 1#w = BitVec.twoPow w k := by
  rw [← BitVec.neg_eq_not_add, addressMask, BitVec.shiftLeft_eq_mul_twoPow,
    ← BitVec.neg_one_eq_allOnes, BitVec.neg_mul, BitVec.one_mul, BitVec.neg_neg]

theorem setWidth_and_not (x y : BitVec 32) :
    x.setWidth 64 &&& ~~~(y.setWidth 64) = (x &&& ~~~y).setWidth 64 := by
  ext j hj
  by_cases h : j < 32
  · simp [h]
  · simp [BitVec.getLsbD_of_ge x j (by omega)]

theorem append_eq (hi lo : BitVec 32) :
    hi ++ lo = lo.setWidth 64 ||| hi.setWidth 64 <<< 32 := by
  apply BitVec.eq_of_getLsbD_eq
  intro j hj
  rw [BitVec.getLsbD_append]
  by_cases h : j < 32
  · simp [h, show j < 64 from hj]
  · simp [h, BitVec.getLsbD_of_ge lo j (by omega), show j < 64 from hj]

/-- The two registers of a 64-bit BAR. -/
theorem addressMask_append (k : Nat) :
    (addressMask 64 k >>> 32).setWidth 32 ++ (addressMask 64 k).setWidth 32 = addressMask 64 k := by
  apply BitVec.eq_of_getLsbD_eq
  intro j hj
  rw [BitVec.getLsbD_append]
  by_cases h : j < 32
  · simp [-BitVec.getLsbD_eq_getElem, h]
  · have hj' : j < 64 := hj
    have h32 : j - 32 < 32 := by omega
    simp [-BitVec.getLsbD_eq_getElem, h, h32, show 32 + (j - 32) = j by omega]

theorem addressMask_and_low (w : Nat) (hk : 4 ≤ k) :
    addressMask w k &&& ~~~(addressMask w 4) = 0#w := by
  apply BitVec.eq_of_getLsbD_eq
  intro j hj
  simp only [BitVec.getLsbD_and, BitVec.getLsbD_not, getLsbD_addressMask, BitVec.getLsbD_zero]
  by_cases h : k ≤ j
  · simp [hj, show 4 ≤ j by omega]
  · simp [h]

theorem addressMask_ne_zero {w : Nat} (hk : k < w) : addressMask w k ≠ 0#w := by
  intro h0
  have hbit := congrArg (·.getLsbD k) h0
  simp [-BitVec.getLsbD_eq_getElem, getLsbD_addressMask, hk] at hbit

theorem setWidth_eq_iff {w v : Nat} (h : w ≤ v) (x y : BitVec w) :
    x.setWidth v = y.setWidth v ↔ x = y := by
  refine ⟨fun he => ?_, congrArg _⟩
  have hback := congrArg (BitVec.setWidth w) he
  rwa [BitVec.setWidth_setWidth_of_le _ h, BitVec.setWidth_setWidth_of_le _ h,
    BitVec.setWidth_eq, BitVec.setWidth_eq] at hback

theorem ioMask_and_low (hk : 4 ≤ k) (wide : Bool) : Bar.ioMask k wide &&& 0xF#32 = 0#32 := by
  cases wide with
  | true => exact addressMask_and_low 32 hk
  | false =>
    have h := congrArg (BitVec.setWidth 32) (addressMask_and_low 16 hk)
    rwa [BitVec.setWidth_and] at h

theorem ioMask_ne_zero {wide : Bool} (hk : k < if wide then 32 else 16) :
    Bar.ioMask k wide ≠ 0#32 := by
  cases wide with
  | true => exact addressMask_ne_zero hk
  | false => exact fun h0 => addressMask_ne_zero hk ((setWidth_eq_iff (by decide) _ 0#16).mp h0)

/-! ## One BAR -/

/-- What the low bits of a register that is not zero tell. -/
theorem low_bits {r : Register 32} {mask fixed : BitVec 32} (h : r.Implements mask fixed)
    (hmask : mask &&& 0xF#32 = 0#32) (hfixed : fixed &&& ~~~0xF#32 = 0#32) :
    r.value &&& 0x1#32 = fixed &&& 0x1#32 ∧
      r.value >>> 1 &&& 0x3#32 = fixed >>> 1 &&& 0x3#32 := by
  have hlow := h.low _ hfixed hmask
  constructor
  · rw [← hlow, BitVec.and_assoc]
    rfl
  · rw [← hlow, BitVec.ushiftRight_and_distrib, BitVec.and_assoc]
    rfl

theorem sizePciBar_zero (h : Bar.zero.At config index) :
    sizePciBar config device index = (index + 1, config, device) := by
  have h0 : config.read32 (barOffset index) = 0#32 := h
  simp [sizePciBar, h0]

theorem sizePciBar_io {wide : Bool} (h : (Bar.io k wide).At config index) :
    sizePciBar config device index = (index + 1, config, device.setBar index
      { base := (Bar.io k wide).base config index
        size := (~~~((Bar.ioMask k wide).setWidth 64) + 1#64) &&& 0xFFFFFFFF#64
        type := .io }) := by
  obtain ⟨hk, hlt, himp⟩ := h
  have hmask := ioMask_and_low hk wide
  have hmask3 : Bar.ioMask k wide &&& 0x3#32 = 0#32 := by
    rw [show 0x3#32 = 0xF#32 &&& 0x3#32 from rfl, ← BitVec.and_assoc, hmask]
    rfl
  obtain ⟨hone, -⟩ := low_bits himp hmask (by decide)
  have hsized := himp.sized_and 0x3#32 (by decide) hmask3
  have hbase := himp.value_and 0x3#32 (by decide) hmask3
  have hne : config.read32 (barOffset index) ≠ 0#32 := by
    intro h0
    rw [ConfigSpace.read32] at h0
    rw [h0] at hone
    revert hone
    decide
  have hrestore := config.write32_restore (barOffset index) 0xFFFFFFFF#32
  have hread : (config.write32 (barOffset index) 0xFFFFFFFF#32).read32 (barOffset index) &&&
      ~~~0x3#32 = Bar.ioMask k wide := by
    rw [ConfigSpace.read32_write32_same]
    exact hsized
  unfold sizePciBar
  dsimp only
  rw [if_neg hne, if_pos (by rw [ConfigSpace.read32, hone]; decide), sizeIoBar]
  rw [hread, if_neg (ioMask_ne_zero hlt), hrestore, Bar.base]
  simp only [ConfigSpace.read32, hbase]

theorem sizePciBar_memory (hne : config.read32 (barOffset index) ≠ 0#32)
    (hzero : config.read32 (barOffset index) &&& 0x1#32 = 0#32) :
    sizePciBar config device index =
      sizeMemoryBar config device index (config.read32 (barOffset index)) := by
  unfold sizePciBar
  rw [if_neg hne, if_neg (not_not.mpr hzero)]

theorem sizePciBar_mmio32 {prefetchable : Bool} (h : (Bar.mmio32 k prefetchable).At config index) :
    sizePciBar config device index = (index + 1, config, device.setBar index
      { base := (Bar.mmio32 k prefetchable).base config index
        size := ~~~((addressMask 32 k).setWidth 64) + 1#64
        type := .mmio32 }) := by
  obtain ⟨hk, hlt, hne, himp⟩ := h
  have hmask : addressMask 32 k &&& 0xF#32 = 0#32 := addressMask_and_low 32 hk
  have hfixed : (if prefetchable then 0x8#32 else 0x0#32) &&& ~~~0xF#32 = 0#32 := by
    cases prefetchable <;> decide
  obtain ⟨hzero, hkind⟩ := low_bits himp hmask hfixed
  have h64 : ¬ 0x2#32 = (config.read32 (barOffset index) >>> 1 &&& 0x3#32) := by
    rw [ConfigSpace.read32, hkind]
    cases prefetchable <;> decide
  have hsized : ((config.write32 (barOffset index) 0xFFFFFFFF#32).read32
      (barOffset index)).setWidth 64 &&& ~~~0xF#64 = (addressMask 32 k).setWidth 64 := by
    rw [ConfigSpace.read32_write32_same, ← himp.sized_and _ hfixed hmask]
    exact setWidth_and_not _ 0xF#32
  have hbase : (config.read32 (barOffset index)).setWidth 64 &&& ~~~0xF#64 =
      (Bar.mmio32 k prefetchable).base config index := by
    rw [Bar.base, ConfigSpace.read32, ← himp.value_and _ hfixed hmask]
    exact setWidth_and_not _ 0xF#32
  have hnot : (addressMask 32 k).setWidth 64 ≠ 0#64 := fun h0 =>
    addressMask_ne_zero hlt ((setWidth_eq_iff (by decide) _ 0#32).mp h0)
  rw [sizePciBar_memory hne (by rw [ConfigSpace.read32, hzero]; cases prefetchable <;> decide)]
  simp only [sizeMemoryBar, h64, decide_false, Bool.false_eq_true, if_false, false_and, hsized,
    hnot, hbase, ConfigSpace.write32_restore]

theorem sizePciBar_mmio64 {prefetchable : Bool} (h : (Bar.mmio64 k prefetchable).At config index)
    (hindex : index < 5) :
    sizePciBar config device index = (index + 2, config,
      (device.setBar index
        { base := (Bar.mmio64 k prefetchable).base config index
          size := BitVec.twoPow 64 k
          type := .mmio64 }).setBar (index + 1)
            { device.bars (index + 1) with type := .unused }) := by
  obtain ⟨hk, hlt, hlow, hhigh⟩ := h
  have hoffset : barOffset index ≠ barOffset index + 4 := by omega
  have hmask : (addressMask 64 k).setWidth 32 &&& 0xF#32 = 0#32 := by
    have h := congrArg (BitVec.setWidth 32) (addressMask_and_low 64 hk)
    rwa [BitVec.setWidth_and] at h
  have hfixed : (if prefetchable then 0xC#32 else 0x4#32) &&& ~~~0xF#32 = 0#32 := by
    cases prefetchable <;> decide
  obtain ⟨hzero, hkind⟩ := low_bits hlow hmask hfixed
  have h64 : 0x2#32 = (config.read32 (barOffset index) >>> 1 &&& 0x3#32) := by
    rw [ConfigSpace.read32, hkind]
    cases prefetchable <;> decide
  have hne : config.read32 (barOffset index) ≠ 0#32 := by
    intro h0
    rw [h0] at h64
    revert h64
    decide
  have hsizeMask : ((((config.write32 (barOffset index) 0xFFFFFFFF#32).write32
      (barOffset index + 4) 0xFFFFFFFF#32).read32 (barOffset index)).setWidth 64 &&& ~~~0xF#64) |||
      (((config.write32 (barOffset index) 0xFFFFFFFF#32).write32 (barOffset index + 4)
        0xFFFFFFFF#32).read32 (barOffset index + 4)).setWidth 64 <<< 32 = addressMask 64 k := by
    rw [ConfigSpace.read32_write32_other _ _ _ _ hoffset.symm, ConfigSpace.read32_write32_same,
      ConfigSpace.read32_write32_same, ConfigSpace.dword_write32_other _ _ _ _ hoffset,
      show 0xFFFFFFFF#32 = BitVec.allOnes 32 from rfl, hhigh.write_allOnes, BitVec.or_zero,
      show 0xF#64 = (0xF#32).setWidth 64 from rfl, setWidth_and_not, hlow.sized_and _ hfixed hmask,
      ← append_eq, addressMask_append]
  have hbase : ((config.read32 (barOffset index)).setWidth 64 &&& ~~~0xF#64) |||
      (config.read32 (barOffset index + 4)).setWidth 64 <<< 32 =
        (Bar.mmio64 k prefetchable).base config index := by
    have hvalue := hlow.value_and _ hfixed hmask
    have hvalueHigh := hhigh.value_and 0#32 (by decide) BitVec.and_zero
    rw [show ~~~0#32 = BitVec.allOnes 32 from rfl, BitVec.and_allOnes] at hvalueHigh
    rw [Bar.base, ← addressMask_append, BitVec.and_append, append_eq,
      show 0xF#64 = (0xF#32).setWidth 64 from rfl, setWidth_and_not]
    simp only [ConfigSpace.read32]
    rw [hvalue, ← hvalueHigh]
  rw [sizePciBar_memory hne (by rw [ConfigSpace.read32, hzero]; cases prefetchable <;> decide)]
  simp only [sizeMemoryBar, ← h64, decide_true, if_true, true_and, hsizeMask, hindex,
    addressMask_ne_zero hlt, if_false, hbase, neg_addressMask,
    ConfigSpace.write32_restore_both _ _ _ _ _ hoffset]
  simp [PciDevice.setBar]

/-! ## Sizes -/

theorem and_low_word (y : BitVec 64) : y &&& 0xFFFFFFFF#64 = (y.setWidth 32).setWidth 64 := by
  rw [show 0xFFFFFFFF#64 = (BitVec.allOnes 32).setWidth 64 from rfl]
  apply BitVec.eq_of_getLsbD_eq
  intro j hj
  simp only [BitVec.getLsbD_and, BitVec.getLsbD_setWidth, BitVec.getLsbD_allOnes, hj,
    decide_true, Bool.true_and]
  exact Bool.and_comm _ _

theorem twoPow_setWidth (hk : k < 32) : (BitVec.twoPow 32 k).setWidth 64 = BitVec.twoPow 64 k := by
  ext j hj
  by_cases h : j < 32
  · simp [h, BitVec.getElem_twoPow]
  · simp [BitVec.getLsbD_of_ge (BitVec.twoPow 32 k) j (by omega), BitVec.getElem_twoPow]
    omega

/-- The size of an I/O BAR is cut to 32 bits, so it is right where all address bits answer. -/
theorem io_size_iff {wide : Bool} (hk : k < if wide then 32 else 16) :
    (~~~((Bar.ioMask k wide).setWidth 64) + 1#64) &&& 0xFFFFFFFF#64 = BitVec.twoPow 64 k ↔
      wide = true := by
  have hk32 : k < 32 := by
    cases wide with
    | true => exact hk
    | false => exact hk.trans (by decide)
  rw [and_low_word, ← BitVec.neg_eq_not_add, BitVec.setWidth_neg_of_le (by decide),
    BitVec.setWidth_setWidth_of_le _ (by decide), BitVec.setWidth_eq, ← twoPow_setWidth hk32,
    setWidth_eq_iff (by decide), ← neg_addressMask, ← BitVec.neg_eq_not_add, BitVec.neg_inj]
  cases wide with
  | true => exact ⟨fun _ => rfl, fun _ => rfl⟩
  | false =>
    refine ⟨fun h => ?_, fun h => by cases h⟩
    have hbit := congrArg (·.getLsbD 31) h
    simp [-BitVec.getLsbD_eq_getElem, Bar.ioMask, getLsbD_addressMask, show k ≤ 31 by omega] at hbit

/-- The size of a 32-bit memory BAR is not cut: its upper half is all ones. -/
theorem mmio32_size_ne (hk : k < 32) :
    ~~~((addressMask 32 k).setWidth 64) + 1#64 ≠ BitVec.twoPow 64 k := by
  rw [← neg_addressMask, ← BitVec.neg_eq_not_add, ← BitVec.neg_eq_not_add, Ne, BitVec.neg_inj]
  intro h
  have hbit := congrArg (·.getLsbD 63) h
  simp [-BitVec.getLsbD_eq_getElem, getLsbD_addressMask, show k ≤ 63 by omega] at hbit

/-- A turn of the loop handles one BAR; what it records is right for some kinds only. -/
theorem sizePciBar_step (device : PciDevice) {b : Bar} (h : b.At config index)
    (hfit : index + b.width ≤ 6) :
    ∃ device1, sizePciBar config device index = (index + b.width, config, device1) ∧
      device1.barCount = device.barCount ∧
      (∀ j, j < index ∨ index + b.width ≤ j → device1.bars j = device.bars j) ∧
      (b.RecordedAt config device.bars device1.bars index ↔ b.Exact) := by
  cases b with
  | zero => exact ⟨device, sizePciBar_zero h, rfl, fun _ _ => rfl, fun _ => trivial, fun _ => rfl⟩
  | io k wide =>
    refine ⟨_, sizePciBar_io h, rfl, fun j hj => ?_, ?_⟩
    · have hne : j ≠ index := by
        rintro rfl
        simp only [Bar.width] at hj
        omega
      simp [PciDevice.setBar, hne]
    · simp only [Bar.RecordedAt, PciDevice.setBar, Function.update_self, PciBarInfo.mk.injEq,
        true_and, and_true, Bar.Exact]
      exact io_size_iff h.2.1
  | mmio32 k prefetchable =>
    refine ⟨_, sizePciBar_mmio32 h, rfl, fun j hj => ?_, ?_⟩
    · have hne : j ≠ index := by
        rintro rfl
        simp only [Bar.width] at hj
        omega
      simp [PciDevice.setBar, hne]
    · simp only [Bar.RecordedAt, PciDevice.setBar, Function.update_self, PciBarInfo.mk.injEq,
        true_and, and_true, Bar.Exact, iff_false]
      exact mmio32_size_ne h.2.1
  | mmio64 k prefetchable =>
    simp only [Bar.width] at hfit ⊢
    refine ⟨_, sizePciBar_mmio64 h (by omega), rfl, fun j hj => ?_, ?_⟩
    · have hne : j ≠ index ∧ j ≠ index + 1 := by omega
      simp [PciDevice.setBar, hne.1, hne.2]
    · simp [Bar.RecordedAt, PciDevice.setBar, Bar.Exact]

theorem Bar.RecordedAt.congr {b : Bar} {before after before' after' : Nat → PciBarInfo}
    (hbefore : ∀ j, index ≤ j → before' j = before j)
    (hafter : ∀ j, j < index + b.width → after' j = after j) :
    b.RecordedAt config before' after' index ↔ b.RecordedAt config before after index := by
  cases b with
  | zero => simp only [RecordedAt, hbefore index le_rfl, hafter index (by simp [width])]
  | io k wide => simp only [RecordedAt, hafter index (by simp [width])]
  | mmio32 k prefetchable => simp only [RecordedAt, hafter index (by simp [width])]
  | mmio64 k prefetchable =>
    simp only [RecordedAt, hafter index (by simp [width]), hafter (index + 1) (by simp [width]),
      hbefore (index + 1) (by omega)]

theorem Recorded.congr {bars : List Bar} {before before' after : Nat → PciBarInfo}
    (hbefore : ∀ j, index ≤ j → before' j = before j) :
    Recorded config before' after index bars ↔ Recorded config before after index bars := by
  induction bars generalizing index with
  | nil => exact Iff.rfl
  | cons b bars ih =>
    exact and_congr (Bar.RecordedAt.congr hbefore fun _ _ => rfl)
      (ih fun j hj => hbefore j (by omega))

/-- The loop records each BAR of the layout. -/
theorem sizePciBarsFrom_spec (device : PciDevice) {bars : List Bar} {limit turns : Nat}
    (hlayout : Layout config index bars) (hwidth : index + (bars.map Bar.width).sum = limit)
    (hlimit : limit ≤ 6) (hturns : bars.length ≤ turns) :
    let device' := (sizePciBarsFrom limit turns index config device).2
    device'.barCount = device.barCount ∧ (∀ j < index, device'.bars j = device.bars j) ∧
      (Recorded config device.bars device'.bars index bars ↔ ∀ b ∈ bars, b.Exact) := by
  induction bars generalizing index turns device with
  | nil =>
    obtain rfl : index = limit := by simpa using hwidth
    cases turns <;> simp [sizePciBarsFrom, Recorded]
  | cons b bars ih =>
    obtain ⟨hat, hrest⟩ := hlayout
    simp only [List.map_cons, List.sum_cons] at hwidth
    simp only [List.length_cons] at hturns
    have hpos : 0 < b.width := by cases b <;> simp [Bar.width]
    obtain ⟨turns, rfl⟩ : ∃ n, turns = n + 1 := ⟨turns - 1, by omega⟩
    obtain ⟨device1, hstep, hcount1, hsame1, hrecord1⟩ :=
      sizePciBar_step device hat (by omega)
    obtain ⟨hcount, hsame, hrecord⟩ := ih device1 hrest (by omega) (Nat.le_of_succ_le_succ hturns)
    rw [sizePciBarsFrom, if_pos (by omega), hstep]
    refine ⟨hcount.trans hcount1, fun j hj => ?_, ?_⟩
    · rw [hsame j (by omega), hsame1 j (Or.inl hj)]
    · rw [List.forall_mem_cons, ← hrecord, ← hrecord1]
      refine and_congr (Bar.RecordedAt.congr (fun _ _ => rfl) fun j hj => ?_)
        (Recorded.congr fun j hj => ?_)
      · exact hsame j hj
      · exact (hsame1 j (Or.inr hj)).symm

theorem layout_writeCommand (bars : List Bar) (v : BitVec 16) :
    Layout (config.writeCommand v) index bars ↔ Layout config index bars := by
  induction bars generalizing index with
  | nil => exact Iff.rfl
  | cons b bars ih => exact and_congr (by cases b <;> exact Iff.rfl) ih

theorem recorded_writeCommand (bars : List Bar) (v : BitVec 16)
    (before after : Nat → PciBarInfo) :
    Recorded (config.writeCommand v) before after index bars ↔
      Recorded config before after index bars := by
  induction bars generalizing index with
  | nil => exact Iff.rfl
  | cons b bars ih => exact and_congr (by cases b <;> exact Iff.rfl) ih

theorem length_le_width (bars : List Bar) : bars.length ≤ (bars.map Bar.width).sum := by
  induction bars with
  | nil => exact le_rfl
  | cons b bars ih =>
    have hpos : 0 < b.width := by cases b <;> simp [Bar.width]
    simp only [List.length_cons, List.map_cons, List.sum_cons]
    omega

/-- The type, base and size of each BAR that does not read zero are recorded, the upper half of a
64-bit BAR counts as part of the lower one and no register changes, exactly where the function has
no 32-bit memory BAR and no I/O BAR with 16 address bits. -/
theorem sizePciBars_exact_iff (config : ConfigSpace) (device : PciDevice) (bars : List Bar)
    (hlayout : Layout config 0 bars) (hwidth : (bars.map Bar.width).sum = barLimit device) :
    ((sizePciBars config device).1 = config ∧
      (sizePciBars config device).2.barCount = barLimit device ∧
      Recorded config device.bars (sizePciBars config device).2.bars 0 bars) ↔
        ∀ b ∈ bars, b.Exact := by
  have hlimit : barLimit device ≤ 6 := by
    unfold barLimit
    split
    · decide
    · split <;> decide
  obtain ⟨hcount, -, hrecord⟩ := sizePciBarsFrom_spec { device with barCount := barLimit device }
    ((layout_writeCommand bars (config.command.value &&& ~~~0x3#16)).mpr hlayout)
    ((Nat.zero_add _).trans hwidth) hlimit (hwidth ▸ length_le_width bars)
  rw [recorded_writeCommand] at hrecord
  have hdevice : (sizePciBars config device).2 = (sizePciBarsFrom (barLimit device)
      (barLimit device) 0 (config.writeCommand (config.command.value &&& ~~~0x3#16))
      { device with barCount := barLimit device }).2 := by
    unfold sizePciBars
    dsimp only
    split
    next h0 => rw [h0, sizePciBarsFrom]
    next => rfl
  rw [hdevice, hcount, ← hrecord]
  exact ⟨fun h => h.2.2, fun h => ⟨sizePciBars_config config device, rfl, h⟩⟩

def newDevice : PciDevice := ⟨0x00#8, 0, fun _ => ⟨0#64, 0#64, .unused⟩⟩

/-- A function with a 4 KiB BAR of 32 bits. -/
def mmio32Config : ConfigSpace where
  command := ⟨0x0007#16, 0x0547#16⟩
  dword offset := if offset = 0x10 then ⟨0xFEBF0000#32, addressMask 32 12⟩ else ⟨0#32, 0#32⟩

/-- Its size is recorded as nearly 2 ^ 64 bytes. -/
theorem mmio32_bar_size_not_recorded :
    Layout mmio32Config 0 [.mmio32 12 false, .zero, .zero, .zero, .zero, .zero] ∧
      (sizePciBars mmio32Config newDevice).2.bars 0 =
        ⟨0xFEBF0000#64, 0xFFFFFFFF00001000#64, .mmio32⟩ ∧
      ¬ Recorded mmio32Config newDevice.bars (sizePciBars mmio32Config newDevice).2.bars 0
        [.mmio32 12 false, .zero, .zero, .zero, .zero, .zero] := by
  refine ⟨⟨⟨by decide, by decide, by decide, ?_⟩, rfl, rfl, rfl, rfl, rfl, trivial⟩, by decide,
    fun h => ?_⟩
  · constructor <;> decide
  · have hrecorded : (sizePciBars mmio32Config newDevice).2.bars 0 = _ := h.1
    revert hrecorded
    decide

/-- A function with a 64-bit BAR of 8 GiB and an I/O BAR of 32 bytes behind it. -/
def mmio64Config : ConfigSpace where
  command := ⟨0x0007#16, 0x0547#16⟩
  dword offset :=
    if offset = 0x10 then ⟨0xC#32, 0#32⟩
    else if offset = 0x14 then ⟨0x8#32, 0xFFFFFFFE#32⟩
    else if offset = 0x18 then ⟨0xC041#32, addressMask 32 5⟩
    else ⟨0#32, 0#32⟩

theorem mmio64_and_io_recorded :
    (sizePciBars mmio64Config newDevice).1 = mmio64Config ∧
      (sizePciBars mmio64Config newDevice).2.barCount = 6 ∧
      Recorded mmio64Config newDevice.bars (sizePciBars mmio64Config newDevice).2.bars 0
        [.mmio64 33 true, .io 5 true, .zero, .zero, .zero] := by
  have hlayout : Layout mmio64Config 0 [.mmio64 33 true, .io 5 true, .zero, .zero, .zero] := by
    refine ⟨⟨by decide, by decide, ?_, ?_⟩, ⟨by decide, by decide, ?_⟩, rfl, rfl, rfl, trivial⟩
    · constructor <;> decide
    · constructor <;> decide
    · constructor <;> decide
  exact (sizePciBars_exact_iff mmio64Config newDevice _ hlayout rfl).mpr (by simp [Bar.Exact])

end Os1.Pci
