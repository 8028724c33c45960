import Mathlib.Data.List.TakeWhile
import Os1.Mm.AddressSpace
import Os1.Mm.UserCopy

/-! The user copies move exactly the bytes that the page tables assign to the range. -/
namespace Os1

open UserAddress

/-! ## The range check -/

theorem isCanonicalVirtualAddress_of_lt {a : BitVec 64} (h : a.toNat < 2 ^ 48) :
    isCanonicalVirtualAddress a = true := by
  have hshift : a >>> 48 = 0#64 := by
    apply BitVec.eq_of_toNat_eq
    rw [BitVec.toNat_ushiftRight, Nat.shiftRight_eq_div_pow, Nat.div_eq_of_lt h]
    rfl
  simp [isCanonicalVirtualAddress, hshift]

/-- The range lies between the bounds of user space, without wrap. -/
def InUserSpace (p length : BitVec 64) : Prop :=
  kUserSpaceBase ≤ p.toNat ∧ p.toNat + length.toNat ≤ kUserStackTop

instance (p length : BitVec 64) : Decidable (InUserSpace p length) :=
  inferInstanceAs (Decidable (_ ∧ _))

theorem isUserAddressRange_iff (p length : BitVec 64) :
    isUserAddressRange p length = true ↔ length = 0#64 ∨ InUserSpace p length := by
  unfold isUserAddressRange InUserSpace
  by_cases h0 : length = 0#64
  · simp [h0]
  · have hpos : 0 < length.toNat := by
      rcases Nat.eq_zero_or_pos length.toNat with h | h
      · exact absurd (BitVec.eq_of_toNat_eq h) h0
      · exact h
    have hlast : (length - 1#64).toNat = length.toNat - 1 := by
      rw [BitVec.toNat_sub_of_le (by rw [BitVec.le_def]; exact hpos)]
      rfl
    have hbase : (BitVec.ofNat 64 kUserSpaceBase).toNat = kUserSpaceBase := rfl
    have htop : (BitVec.ofNat 64 kUserStackTop).toNat = kUserStackTop := rfl
    have hall : (~~~0#64 - (length - 1#64)).toNat = 2 ^ 64 - length.toNat := by
      rw [BitVec.toNat_sub_of_le (BitVec.le_def.mpr (by
        have := (length - 1#64).isLt
        simp only [BitVec.toNat_not, BitVec.toNat_ofNat]
        omega)), hlast]
      simp only [BitVec.toNat_not, BitVec.toNat_ofNat]
      omega
    have hend (h : p.toNat + length.toNat ≤ 2 ^ 64) :
        (p + (length - 1#64)).toNat = p.toNat + length.toNat - 1 := by
      rw [BitVec.toNat_add, hlast, Nat.mod_eq_of_lt (by omega)]
      omega
    simp only [h0, if_false, false_or]
    constructor
    · intro h
      split at h
      · cases h
      split at h
      · cases h
      next hwrap =>
        split at h
        · cases h
        · simp only [gt_iff_lt, BitVec.lt_def, hall] at hwrap
          have hsum : p.toNat + length.toNat ≤ 2 ^ 64 := by omega
          simp only [Bool.and_eq_true, decide_eq_true_eq, BitVec.le_def, BitVec.lt_def, hbase, htop,
            hend hsum] at h
          omega
    · rintro ⟨hlow, hhigh⟩
      have htop' : kUserStackTop < 2 ^ 48 := by decide
      have hbase' : 0 < kUserSpaceBase := by decide
      have hp : p ≠ 0#64 := by
        rintro rfl
        simp at hlow
        omega
      have hsum : p.toNat + length.toNat ≤ 2 ^ 64 := by omega
      have hcanonical : isCanonicalVirtualAddress p = true :=
        isCanonicalVirtualAddress_of_lt (by omega)
      have hcanonical' : isCanonicalVirtualAddress (p + (length - 1#64)) = true :=
        isCanonicalVirtualAddress_of_lt (by rw [hend hsum]; omega)
      have hwrap : ¬ (p > ~~~0#64 - (length - 1#64)) := by
        simp only [gt_iff_lt, BitVec.lt_def, hall]
        omega
      simp only [hp, hcanonical, hcanonical', hwrap, decide_false, Bool.not_true, Bool.or_self,
        Bool.false_eq_true, if_false, Bool.and_eq_true, decide_eq_true_eq, BitVec.le_def,
        BitVec.lt_def, hbase, htop, hend hsum]
      omega

namespace VirtualMemory

variable {vm : VirtualMemory} {address va pa flags : BitVec 64} {source : Nat → BitVec 8}
  {i j k length copied fuel : Nat} {permitted : BitVec 64 → Bool}

/-! ## Translation inside one page -/

theorem toNat_byteAt (h : va.toNat % kPageSize + j < kPageSize) :
    (byteAt va j).toNat = va.toNat + j := by
  have hva := va.isLt
  unfold kPageSize at h
  rw [byteAt, BitVec.toNat_add, BitVec.toNat_ofNat]
  omega

theorem pageIndex_byteAt (h : va.toNat % kPageSize + j < kPageSize) (k : Nat) :
    pageIndex (byteAt va j) (12 + k) = pageIndex va (12 + k) := by
  rw [pageIndex_eq, pageIndex_eq, toNat_byteAt h, Nat.pow_add, ← Nat.div_div_eq_div_mul,
    ← Nat.div_div_eq_div_mul]
  unfold kPageSize at h
  congr 2
  omega

theorem toNat_or_offset {e : BitVec 64} {k : Nat} (hk : k < 64) (he : e.toNat % 2 ^ k = 0)
    (w : BitVec 64) :
    (e ||| (w &&& BitVec.ofNat 64 (2 ^ k - 1))).toNat = e.toNat + w.toNat % 2 ^ k := by
  have hpow : 2 ^ k < 2 ^ 64 := Nat.pow_lt_pow_right (by decide) hk
  obtain ⟨q, hq⟩ := Nat.dvd_of_mod_eq_zero he
  rw [BitVec.toNat_or, BitVec.toNat_and, BitVec.toNat_ofNat, Nat.mod_eq_of_lt (by omega),
    Nat.and_two_pow_sub_one_eq_mod, hq,
    ← Nat.two_pow_add_eq_or_of_lt (Nat.mod_lt _ (Nat.two_pow_pos k))]

theorem or_offset_mod {e : BitVec 64} {k : Nat} (hk : 12 ≤ k) (hk' : k < 64)
    (he : e.toNat % 2 ^ k = 0) (w : BitVec 64) :
    (e ||| (w &&& BitVec.ofNat 64 (2 ^ k - 1))).toNat % kPageSize = w.toNat % kPageSize := by
  have hdvd : kPageSize ∣ 2 ^ k := pow_dvd_pow 2 hk
  have he' : e.toNat % kPageSize = 0 :=
    Nat.mod_eq_zero_of_dvd (hdvd.trans (Nat.dvd_of_mod_eq_zero he))
  rw [toNat_or_offset hk' he, Nat.add_mod, he', Nat.mod_mod_of_dvd _ hdvd, Nat.zero_add,
    Nat.mod_mod]

/-- Inside a page the offset does not reach the next multiple of a larger power of two. -/
theorem mod_add_of_page {n j k : Nat} (hk : 12 ≤ k) (h : n % kPageSize + j < kPageSize) :
    (n + j) % 2 ^ k = n % 2 ^ k + j := by
  obtain ⟨c, hc⟩ : kPageSize ∣ 2 ^ k := pow_dvd_pow 2 hk
  have hlt : n % 2 ^ k < 2 ^ k := Nat.mod_lt _ (Nat.two_pow_pos k)
  have hmod : n % 2 ^ k % kPageSize = n % kPageSize := Nat.mod_mod_of_dvd _ ⟨c, hc⟩
  have hstay : n % 2 ^ k + j < 2 ^ k := by
    have hdiv : n % 2 ^ k / kPageSize < c := Nat.div_lt_of_lt_mul (by rw [← hc]; exact hlt)
    have hsplit := Nat.div_add_mod (n % 2 ^ k) kPageSize
    have hle : kPageSize * (n % 2 ^ k / kPageSize + 1) ≤ kPageSize * c :=
      Nat.mul_le_mul_left _ hdiv
    rw [Nat.mul_add] at hle
    omega
  have hn := Nat.div_add_mod n (2 ^ k)
  rw [show n + j = 2 ^ k * (n / 2 ^ k) + (n % 2 ^ k + j) by omega, Nat.mul_add_mod,
    Nat.mod_eq_of_lt hstay]

theorem or_offset_byteAt {e : BitVec 64} {k : Nat} (hk : 12 ≤ k) (hk' : k < 64)
    (he : e.toNat % 2 ^ k = 0) (h : va.toNat % kPageSize + j < kPageSize) :
    e ||| (byteAt va j &&& BitVec.ofNat 64 (2 ^ k - 1)) =
      byteAt (e ||| (va &&& BitVec.ofNat 64 (2 ^ k - 1))) j := by
  apply BitVec.eq_of_toNat_eq
  rw [toNat_byteAt (by rw [or_offset_mod hk hk' he]; exact h), toNat_or_offset hk' he,
    toNat_or_offset hk' he, toNat_byteAt h, mod_add_of_page hk h, Nat.add_assoc]

theorem and_low_mod {e m : BitVec 64} (k : Nat) (hm : m.toNat % 2 ^ k = 0) :
    (e &&& m).toNat % 2 ^ k = 0 := by
  rw [BitVec.toNat_and, Nat.and_mod_two_pow, hm, Nat.and_zero]

/-- Bytes of one page are translated to bytes of one page. -/
theorem translate_byteAt (h : va.toNat % kPageSize + j < kPageSize) :
    vm.translate (byteAt va j) = (vm.translate va).map fun r => (byteAt r.1 j, r.2) := by
  have h39 : pageIndex (byteAt va j) 39 = pageIndex va 39 := pageIndex_byteAt h 27
  have h30 : pageIndex (byteAt va j) 30 = pageIndex va 30 := pageIndex_byteAt h 18
  have h21 : pageIndex (byteAt va j) 21 = pageIndex va 21 := pageIndex_byteAt h 9
  have h12 : pageIndex (byteAt va j) 12 = pageIndex va 12 := pageIndex_byteAt h 0
  have hlarge (e : BitVec 64) := or_offset_byteAt (e := e &&& kLargePageAddressMask2MiB) (k := 21)
    (by decide) (by decide) (and_low_mod 21 (by decide)) h
  have hsmall (e : BitVec 64) := or_offset_byteAt (e := e &&& kEntryAddressMask) (k := 12)
    (by decide) (by decide) (and_low_mod 12 (by decide)) h
  unfold translate
  simp only [h39, h30, h21, h12]
  split_ifs
  · rfl
  · rfl
  · rfl
  · rfl
  · exact congrArg some (Prod.ext (hlarge _) rfl)
  · rfl
  · exact congrArg some (Prod.ext (hsmall _) rfl)

/-- Translation keeps the offset in the page. -/
theorem translate_offset (h : vm.translate va = some (pa, flags)) :
    pa.toNat % kPageSize = va.toNat % kPageSize := by
  have hlarge (e : BitVec 64) := or_offset_mod (e := e &&& kLargePageAddressMask2MiB) (k := 21)
    (by decide) (by decide) (and_low_mod 21 (by decide)) va
  have hsmall (e : BitVec 64) := or_offset_mod (e := e &&& kEntryAddressMask) (k := 12)
    (by decide) (by decide) (and_low_mod 12 (by decide)) va
  unfold translate at h
  dsimp only at h
  split_ifs at h
  · obtain ⟨rfl, -⟩ := Prod.mk.inj (Option.some.inj h)
    exact hlarge _
  · obtain ⟨rfl, -⟩ := Prod.mk.inj (Option.some.inj h)
    exact hsmall _

/-! ## The tables a translation reads -/

def pml4e (vm : VirtualMemory) (va : BitVec 64) : BitVec 64 :=
  vm.mem.load64 (vm.root.toNat + 8 * pageIndex va 39)

def pml3e (vm : VirtualMemory) (va : BitVec 64) : BitVec 64 :=
  vm.mem.load64 (entryAddress (vm.pml4e va) + 8 * pageIndex va 30)

def pml2e (vm : VirtualMemory) (va : BitVec 64) : BitVec 64 :=
  vm.mem.load64 (entryAddress (vm.pml3e va) + 8 * pageIndex va 21)

def pml1e (vm : VirtualMemory) (va : BitVec 64) : BitVec 64 :=
  vm.mem.load64 (entryAddress (vm.pml2e va) + 8 * pageIndex va 12)

theorem translate_eq (vm : VirtualMemory) (va : BitVec 64) : vm.translate va =
    if !vm.initialized then none
    else if vm.pml4e va = 0#64 then none
    else if vm.pml3e va = 0#64 then none
    else if vm.pml2e va = 0#64 then none
    else if vm.pml2e va &&& kEntryLargePage ≠ 0#64 then
      some ((vm.pml2e va &&& kLargePageAddressMask2MiB) ||| (va &&& kLargePageOffsetMask2MiB),
        vm.pml2e va &&& ~~~kLargePageAddressMask2MiB)
    else if vm.pml1e va = 0#64 then none
    else some ((vm.pml1e va &&& kEntryAddressMask) ||| (va &&& kPageOffsetMask),
      vm.pml1e va &&& ~~~kEntryAddressMask) := rfl

/-- A translation of `va` reads an entry of the page-table frame `g`. -/
inductive ReadsTable (vm : VirtualMemory) (va : BitVec 64) : Nat → Prop
  | pml4 : ReadsTable vm va vm.root.toNat
  | pml3 (h : vm.pml4e va ≠ 0#64) : ReadsTable vm va (entryAddress (vm.pml4e va))
  | pml2 (h : vm.pml4e va ≠ 0#64) (h' : vm.pml3e va ≠ 0#64) :
    ReadsTable vm va (entryAddress (vm.pml3e va))
  | pml1 (h : vm.pml4e va ≠ 0#64) (h' : vm.pml3e va ≠ 0#64) (h'' : vm.pml2e va ≠ 0#64)
    (hsmall : vm.pml2e va &&& kEntryLargePage = 0#64) :
    ReadsTable vm va (entryAddress (vm.pml2e va))

/-- Memory that agrees on the frames of the tables a translation reads has the same entries. -/
theorem entries_congr {mem : Memory}
    (h : ∀ g, ReadsTable vm va g → ∀ x, g ≤ x → x < g + kPageSize → mem x = vm.mem x) :
    { vm with mem := mem }.pml4e va = vm.pml4e va ∧
    (vm.pml4e va ≠ 0#64 → { vm with mem := mem }.pml3e va = vm.pml3e va ∧
    (vm.pml3e va ≠ 0#64 → { vm with mem := mem }.pml2e va = vm.pml2e va ∧
    (vm.pml2e va ≠ 0#64 → vm.pml2e va &&& kEntryLargePage = 0#64 →
      { vm with mem := mem }.pml1e va = vm.pml1e va))) := by
  have hentry {g s : Nat} (hg : ReadsTable vm va g) :
      mem.load64 (g + 8 * pageIndex va s) = vm.mem.load64 (g + 8 * pageIndex va s) := by
    have hlt : pageIndex va s < 512 := pageIndex_lt va s
    refine Memory.load64_congr fun x hx hx' => h g hg x (by omega) ?_
    unfold kPageSize
    omega
  have h4 : { vm with mem := mem }.pml4e va = vm.pml4e va := hentry .pml4
  refine ⟨h4, fun hne4 => ?_⟩
  have h3 : { vm with mem := mem }.pml3e va = vm.pml3e va := by
    rw [pml3e, h4]
    exact hentry (.pml3 hne4)
  refine ⟨h3, fun hne3 => ?_⟩
  have h2 : { vm with mem := mem }.pml2e va = vm.pml2e va := by
    rw [pml2e, h3]
    exact hentry (.pml2 hne4 hne3)
  refine ⟨h2, fun hne2 hsmall => ?_⟩
  rw [pml1e, h2]
  exact hentry (.pml1 hne4 hne3 hne2 hsmall)

/-- A translation depends on the frames of the tables it reads only. -/
theorem translate_congr {mem : Memory}
    (h : ∀ g, ReadsTable vm va g → ∀ x, g ≤ x → x < g + kPageSize → mem x = vm.mem x) :
    { vm with mem := mem }.translate va = vm.translate va := by
  obtain ⟨h4, hrest⟩ := entries_congr h
  rw [translate_eq, translate_eq, h4]
  by_cases hne4 : vm.pml4e va = 0#64
  · simp [hne4]
  obtain ⟨h3, hrest⟩ := hrest hne4
  rw [h3]
  by_cases hne3 : vm.pml3e va = 0#64
  · simp [hne3]
  obtain ⟨h2, hrest⟩ := hrest hne3
  rw [h2]
  by_cases hne2 : vm.pml2e va = 0#64
  · simp [hne2]
  by_cases hsmall : vm.pml2e va &&& kEntryLargePage = 0#64
  · rw [hrest hne2 hsmall]
  · simp [hsmall]

theorem readsTable_congr {mem : Memory} {g : Nat}
    (h : ∀ g, ReadsTable vm va g → ∀ x, g ≤ x → x < g + kPageSize → mem x = vm.mem x)
    (hg : ReadsTable { vm with mem := mem } va g) : ReadsTable vm va g := by
  obtain ⟨h4, hrest⟩ := entries_congr h
  cases hg with
  | pml4 => exact .pml4
  | pml3 hne4 =>
    rw [h4] at hne4 ⊢
    exact .pml3 hne4
  | pml2 hne4 hne3 =>
    rw [h4] at hne4
    obtain ⟨h3, -⟩ := hrest hne4
    rw [h3] at hne3 ⊢
    exact .pml2 hne4 hne3
  | pml1 hne4 hne3 hne2 hsmall =>
    rw [h4] at hne4
    obtain ⟨h3, hrest⟩ := hrest hne4
    rw [h3] at hne3
    obtain ⟨h2, -⟩ := hrest hne3
    rw [h2] at hne2 hsmall ⊢
    exact .pml1 hne4 hne3 hne2 hsmall

/-! ## The loops -/

/-- The address is mapped with flags that are permitted. -/
def Permits (vm : VirtualMemory) (permitted : BitVec 64 → Bool) (va : BitVec 64) : Prop :=
  ∃ pa flags, vm.translate va = some (pa, flags) ∧ permitted flags = true

/-- The first `k` bytes of a range, written one after the other where the tables of `vm` say. -/
def writeRange (vm : VirtualMemory) (address : BitVec 64) (source : Nat → BitVec 8) :
    Nat → Memory
  | 0 => vm.mem
  | k + 1 =>
    match vm.translate (byteAt address k) with
    | none => vm.writeRange address source k
    | some (pa, _) => Function.update (vm.writeRange address source k) pa.toNat (source k)

/-- The first `k` bytes of a range, read where the tables of `vm` say. -/
def readRange (vm : VirtualMemory) (address : BitVec 64) (k : Nat) : List (BitVec 8) :=
  (List.range k).map fun i =>
    match vm.translate (byteAt address i) with
    | none => 0#8
    | some (pa, _) => vm.mem pa.toNat

theorem byteAt_byteAt (i j : Nat) : byteAt (byteAt va i) j = byteAt va (i + j) := by
  rw [byteAt, byteAt, byteAt, BitVec.add_assoc, ← BitVec.ofNat_add]

theorem chunkAt_pos (h : copied < length) : 0 < chunkAt address length copied := by
  have hlt : (byteAt address copied &&& kPageOffsetMask).toNat < kPageSize := by
    rw [BitVec.toNat_and, show kPageOffsetMask.toNat = 2 ^ 12 - 1 from rfl,
      Nat.and_two_pow_sub_one_eq_mod]
    exact Nat.mod_lt _ (by decide)
  unfold chunkAt
  dsimp only
  split <;> omega

theorem chunkAt_le (h : copied < length) :
    copied + chunkAt address length copied ≤ length := by
  unfold chunkAt
  dsimp only
  split <;> omega

/-- A turn does not leave its page. -/
theorem chunkAt_page (h : j < chunkAt address length copied) :
    (byteAt address copied).toNat % kPageSize + j < kPageSize := by
  have hoffset : (byteAt address copied &&& kPageOffsetMask).toNat =
      (byteAt address copied).toNat % kPageSize := by
    rw [BitVec.toNat_and, show kPageOffsetMask.toNat = 2 ^ 12 - 1 from rfl,
      Nat.and_two_pow_sub_one_eq_mod]
    rfl
  unfold chunkAt at h
  dsimp only at h
  rw [hoffset] at h
  split at h <;> omega

/-- The bytes of a turn lie behind one another in physical memory. -/
theorem translate_chunk (h : vm.translate (byteAt address copied) = some (pa, flags))
    (hj : j < chunkAt address length copied) :
    vm.translate (byteAt address (copied + j)) = some (byteAt pa j, flags) ∧
      (byteAt pa j).toNat = pa.toNat + j := by
  have hpage := chunkAt_page hj
  constructor
  · rw [← byteAt_byteAt, translate_byteAt hpage, h]
    rfl
  · exact toNat_byteAt (by rw [translate_offset h]; exact hpage)

theorem writeRange_chunk (h : vm.translate (byteAt address copied) = some (pa, flags))
    (hj : j ≤ chunkAt address length copied) :
    vm.writeRange address source (copied + j) =
      (vm.writeRange address source copied).write pa.toNat j fun i => source (copied + i) := by
  induction j with
  | zero => exact (Memory.write_zero _).symm
  | succ j ih =>
    obtain ⟨htranslate, haddress⟩ := translate_chunk h (show j < _ from hj)
    rw [← Nat.add_assoc, writeRange, htranslate, Memory.write_succ, ih (by omega)]
    simp only [haddress]

theorem readRange_chunk (h : vm.translate (byteAt address copied) = some (pa, flags)) :
    vm.readRange address (copied + chunkAt address length copied) =
      vm.readRange address copied ++
        (List.range (chunkAt address length copied)).map fun i => vm.mem (pa.toNat + i) := by
  unfold readRange
  rw [List.range_add, List.map_append, List.map_map]
  congr 1
  refine List.map_congr_left fun i hi => ?_
  obtain ⟨htranslate, haddress⟩ := translate_chunk h (List.mem_range.mp hi)
  simp only [Function.comp, htranslate, haddress]

theorem permits_chunk (hprev : ∀ i < copied, vm.Permits permitted (byteAt address i))
    (h : vm.translate (byteAt address copied) = some (pa, flags)) (hflags : permitted flags = true)
    (hi : i < copied + chunkAt address length copied) :
    vm.Permits permitted (byteAt address i) := by
  by_cases hlt : i < copied
  · exact hprev i hlt
  · have hj : i - copied < chunkAt address length copied := by omega
    obtain ⟨htranslate, -⟩ := translate_chunk h hj
    rw [show copied + (i - copied) = i by omega] at htranslate
    exact ⟨_, _, htranslate, hflags⟩

/-- How a copy ends after its first `k` bytes; a failure is at the byte that it names. -/
inductive Ends (vm : VirtualMemory) (permitted : BitVec 64 → Bool) (address : BitVec 64)
    (length : Nat) : Except CopyFailure Unit → Nat → Prop
  | done : Ends vm permitted address length (.ok ()) length
  | unmapped {k : Nat} (hk : k < length) (h : vm.translate (byteAt address k) = none) :
    Ends vm permitted address length (.error (.translate k)) k
  | refused {k : Nat} {pa flags : BitVec 64} (hk : k < length)
    (h : vm.translate (byteAt address k) = some (pa, flags)) (hflags : permitted flags = false) :
    Ends vm permitted address length (.error (.permission k)) k

theorem Ends.le {r : Except CopyFailure Unit} (h : Ends vm permitted address length r k) :
    k ≤ length := by
  cases h with
  | done => exact Nat.le_refl _
  | unmapped hk | refused hk => exact Nat.le_of_lt hk

theorem Ends.ok_iff {r : Except CopyFailure Unit} (h : Ends vm permitted address length r k)
    (hprev : ∀ i < k, vm.Permits permitted (byteAt address i)) :
    r = .ok () ↔ ∀ i < length, vm.Permits permitted (byteAt address i) := by
  cases h with
  | done => exact iff_of_true rfl hprev
  | unmapped hk h =>
    refine iff_of_false (fun hr => by cases hr) fun hall => ?_
    obtain ⟨pa, flags, hsome, -⟩ := hall k hk
    cases h.symm.trans hsome
  | refused hk h hflags =>
    refine iff_of_false (fun hr => by cases hr) fun hall => ?_
    obtain ⟨pa, flags, hsome, hok⟩ := hall k hk
    obtain ⟨-, rfl⟩ := Prod.mk.inj (Option.some.inj (h.symm.trans hsome))
    cases hflags.symm.trans hok

/-- The tables are the same after each permitted byte that the copy writes. -/
def Stable (vm : VirtualMemory) (permitted : BitVec 64 → Bool) (address : BitVec 64)
    (source : Nat → BitVec 8) : Prop :=
  ∀ k, (∀ i < k, vm.Permits permitted (byteAt address i)) → ∀ va,
    { vm with mem := vm.writeRange address source k }.translate va = vm.translate va

/-- The same for the translations of the range itself. -/
def StableRange (vm : VirtualMemory) (permitted : BitVec 64 → Bool) (address : BitVec 64)
    (source : Nat → BitVec 8) (length : Nat) : Prop :=
  ∀ k ≤ length, (∀ i < k, vm.Permits permitted (byteAt address i)) → ∀ j < length,
    { vm with mem := vm.writeRange address source k }.translate (byteAt address j) =
      vm.translate (byteAt address j)

theorem Stable.range (h : vm.Stable permitted address source) (length : Nat) :
    vm.StableRange permitted address source length :=
  fun k _ hk j _ => h k hk (byteAt address j)

theorem copyOut_spec (hstable : vm.StableRange permitted address source length)
    (hfuel : length ≤ copied + fuel) (hcopied : copied ≤ length)
    (hprev : ∀ i < copied, vm.Permits permitted (byteAt address i)) :
    ∃ r k, copyOut permitted address source length fuel copied
        { vm with mem := vm.writeRange address source copied } =
          (r, { vm with mem := vm.writeRange address source k }) ∧
      (∀ i < k, vm.Permits permitted (byteAt address i)) ∧
      Ends vm permitted address length r k := by
  induction fuel generalizing copied with
  | zero =>
    obtain rfl : copied = length := by omega
    exact ⟨_, copied, rfl, hprev, .done⟩
  | succ fuel ih =>
    rw [copyOut]
    by_cases hlt : copied < length
    · rw [if_pos hlt, hstable copied hcopied hprev copied hlt]
      cases htranslate : vm.translate (byteAt address copied) with
      | none => exact ⟨_, copied, rfl, hprev, .unmapped hlt htranslate⟩
      | some result =>
        obtain ⟨pa, flags⟩ := result
        cases hflags : permitted flags with
        | false =>
          exact ⟨_, copied, by simp [hflags], hprev, .refused hlt htranslate hflags⟩
        | true =>
          have hpos : 0 < chunkAt address length copied := chunkAt_pos hlt
          simp only [hflags, if_true]
          rw [← writeRange_chunk htranslate (Nat.le_refl _)]
          exact ih (by omega) (chunkAt_le hlt) fun i hi => permits_chunk hprev htranslate hflags hi
    · obtain rfl : copied = length := by omega
      rw [if_neg hlt]
      exact ⟨_, copied, rfl, hprev, .done⟩

theorem copyOut_whole {length : Nat} (hstable : vm.StableRange permitted address source length) :
    ∃ r k, copyOut permitted address source length length 0 vm =
        (r, { vm with mem := vm.writeRange address source k }) ∧
      (∀ i < k, vm.Permits permitted (byteAt address i)) ∧
      Ends vm permitted address length r k :=
  copyOut_spec hstable (by omega) (Nat.zero_le _) fun i hi => absurd hi (Nat.not_lt_zero i)

theorem copyIn_spec (hfuel : length ≤ copied + fuel) (hcopied : copied ≤ length)
    (hprev : ∀ i < copied, vm.Permits permitted (byteAt address i)) :
    ∃ r k, copyIn permitted address vm length fuel copied (vm.readRange address copied) =
        (r, vm.readRange address k) ∧
      (∀ i < k, vm.Permits permitted (byteAt address i)) ∧
      Ends vm permitted address length r k := by
  induction fuel generalizing copied with
  | zero =>
    obtain rfl : copied = length := by omega
    exact ⟨_, copied, rfl, hprev, .done⟩
  | succ fuel ih =>
    rw [copyIn]
    by_cases hlt : copied < length
    · rw [if_pos hlt]
      cases htranslate : vm.translate (byteAt address copied) with
      | none => exact ⟨_, copied, rfl, hprev, .unmapped hlt htranslate⟩
      | some result =>
        obtain ⟨pa, flags⟩ := result
        cases hflags : permitted flags with
        | false =>
          exact ⟨_, copied, by simp [hflags], hprev, .refused hlt htranslate hflags⟩
        | true =>
          have hpos : 0 < chunkAt address length copied := chunkAt_pos hlt
          simp only [hflags, if_true]
          rw [← readRange_chunk htranslate]
          exact ih (by omega) (chunkAt_le hlt) fun i hi => permits_chunk hprev htranslate hflags hi
    · obtain rfl : copied = length := by omega
      rw [if_neg hlt]
      exact ⟨_, copied, rfl, hprev, .done⟩

theorem copyIn_whole (vm : VirtualMemory) (permitted : BitVec 64 → Bool) (address : BitVec 64)
    (length : Nat) :
    ∃ r k, copyIn permitted address vm length length 0 [] = (r, vm.readRange address k) ∧
      (∀ i < k, vm.Permits permitted (byteAt address i)) ∧
      Ends vm permitted address length r k :=
  copyIn_spec (by omega) (Nat.zero_le _) fun i hi => absurd hi (Nat.not_lt_zero i)

/-! ## The calls -/

/-- No page-table frame is mapped as a user page. -/
def TablesHidden (vm : VirtualMemory) : Prop :=
  ∀ va g, vm.ReadsTable va g → ∀ va' pa flags, vm.translate va' = some (pa, flags) →
    flags &&& PageFlags.userBit = PageFlags.userBit → ¬ (g ≤ pa.toNat ∧ pa.toNat < g + kPageSize)

/-- A byte that differs after the write is the translation of a byte of the range. -/
theorem writeRange_apply_of_ne {x : Nat}
    (h : ∀ i < k, ∀ pa flags, vm.translate (byteAt address i) = some (pa, flags) → x ≠ pa.toNat) :
    vm.writeRange address source k x = vm.mem x := by
  induction k with
  | zero => rfl
  | succ k ih =>
    have hrest := ih fun i hi => h i (by omega)
    rw [writeRange]
    cases htranslate : vm.translate (byteAt address k) with
    | none => exact hrest
    | some result =>
      obtain ⟨pa, flags⟩ := result
      dsimp only
      rw [Function.update_of_ne (h k (by omega) pa flags htranslate)]
      exact hrest

/-- Permitted bytes lie in no page-table frame. -/
theorem TablesHidden.tables_kept (h : vm.TablesHidden)
    (hpermitted : ∀ flags, permitted flags = true →
      flags &&& PageFlags.userBit = PageFlags.userBit)
    (hk : ∀ i < k, vm.Permits permitted (byteAt address i)) (g : Nat) (hg : vm.ReadsTable va g)
    (x : Nat) (hx : g ≤ x) (hx' : x < g + kPageSize) :
    vm.writeRange address source k x = vm.mem x := by
  refine writeRange_apply_of_ne fun i hi pa flags hi' => ?_
  rintro rfl
  obtain ⟨pa', flags', htranslate, hok⟩ := hk i hi
  obtain ⟨rfl, rfl⟩ := Prod.mk.inj (Option.some.inj (hi'.symm.trans htranslate))
  exact h va g hg _ pa flags hi' (hpermitted flags hok) ⟨hx, hx'⟩

theorem TablesHidden.stable (h : vm.TablesHidden)
    (hpermitted : ∀ flags, permitted flags = true →
      flags &&& PageFlags.userBit = PageFlags.userBit) :
    vm.Stable permitted address source :=
  fun _ hk _ => translate_congr (h.tables_kept hpermitted hk)

/-- The tables stay hidden when permitted bytes are written. -/
theorem TablesHidden.writeRange (h : vm.TablesHidden)
    (hpermitted : ∀ flags, permitted flags = true →
      flags &&& PageFlags.userBit = PageFlags.userBit)
    (hk : ∀ i < k, vm.Permits permitted (byteAt address i)) :
    { vm with mem := vm.writeRange address source k }.TablesHidden := by
  intro va g hg va' pa flags htranslate huser
  rw [h.stable hpermitted k hk] at htranslate
  exact h va g (readsTable_congr (h.tables_kept hpermitted hk) hg) va' pa flags htranslate huser

theorem user_of_hasRequiredUserFlags {requireWrite : Bool} (flags : BitVec 64)
    (h : hasRequiredUserFlags flags requireWrite = true) :
    flags &&& PageFlags.userBit = PageFlags.userBit := by
  by_contra hne
  simp [hasRequiredUserFlags, hne] at h

/-- What `copy_to_user` does for a thread with the root `cr3`: it succeeds exactly for an empty
range and for a range in user space that is mapped for user writes; it writes the first `k` bytes,
all of them on success, and no other byte. -/
def CopiesToUser (vm : VirtualMemory) (cr3 p : BitVec 64) (source : Nat → BitVec 8)
    (length : BitVec 64) : Prop :=
  let space := vm.attach cr3
  let result := vm.copyToUser (some cr3) p (some source) length
  (result.1 = .ok () ↔ length = 0#64 ∨ InUserSpace p length ∧
    ∀ i < length.toNat, space.Permits (hasRequiredUserFlags · true) (byteAt p i)) ∧
  ∃ k ≤ length.toNat, (result.1 = .ok () → k = length.toNat) ∧
    (∀ i < k, space.Permits (hasRequiredUserFlags · true) (byteAt p i)) ∧
    result.2 = { vm with mem := space.writeRange p source k } ∧
    ∀ x, (∀ i < k, ∀ pa flags, space.translate (byteAt p i) = some (pa, flags) → x ≠ pa.toNat) →
      result.2.mem x = vm.mem x

/-- What `copy_from_user` does: the same for reads; no byte of physical memory is written. -/
def CopiesFromUser (vm : VirtualMemory) (cr3 p : BitVec 64) (length : BitVec 64) : Prop :=
  let space := vm.attach cr3
  let result := vm.copyFromUser (some cr3) p true length
  (result.1 = .ok () ↔ length = 0#64 ∨ InUserSpace p length ∧
    ∀ i < length.toNat, space.Permits (hasRequiredUserFlags · false) (byteAt p i)) ∧
  ∃ k ≤ length.toNat, (result.1 = .ok () → k = length.toNat) ∧
    (∀ i < k, space.Permits (hasRequiredUserFlags · false) (byteAt p i)) ∧
    result.2 = space.readRange p k

/-- The range check comes first, and an empty range passes every check. -/
theorem ok_iff_of_range {r : Except CopyFailure Unit} {p length : BitVec 64}
    (hrange : isUserAddressRange p length = true)
    (h : r = .ok () ↔ ∀ i < length.toNat, vm.Permits permitted (byteAt p i)) :
    r = .ok () ↔ length = 0#64 ∨ InUserSpace p length ∧
      ∀ i < length.toNat, vm.Permits permitted (byteAt p i) := by
  rw [h]
  constructor
  · intro hall
    obtain hzero | hspace := (isUserAddressRange_iff p length).mp hrange
    · exact Or.inl hzero
    · exact Or.inr ⟨hspace, hall⟩
  · rintro (rfl | ⟨-, hall⟩)
    · exact fun i hi => absurd hi (Nat.not_lt_zero i)
    · exact hall

theorem copyFromUser_exact {cr3 p length : BitVec 64} : CopiesFromUser vm cr3 p length := by
  unfold CopiesFromUser copyFromUser
  dsimp only
  cases hrange : isUserAddressRange p length with
  | false =>
    have hbad : ¬ (length = 0#64 ∨ InUserSpace p length) := by
      intro hok
      cases hrange.symm.trans ((isUserAddressRange_iff p length).mpr hok)
    simp only [Bool.not_false, if_true]
    refine ⟨iff_of_false (fun hr => by cases hr) fun hok => hbad (hok.imp_right And.left), 0,
      Nat.zero_le _, (fun hr => by cases hr), fun i hi => absurd hi (Nat.not_lt_zero i), rfl⟩
  | true =>
    obtain ⟨r, k, heq, hprev, hends⟩ :=
      copyIn_whole (vm.attach cr3) (hasRequiredUserFlags · false) p length.toNat
    simp only [Bool.not_true, Bool.false_eq_true, if_false, heq]
    refine ⟨ok_iff_of_range hrange (hends.ok_iff hprev), k, hends.le, fun hr => ?_, hprev, rfl⟩
    subst hr
    cases hends
    rfl

/-! ## How far a copy gets -/

def permitsByte (vm : VirtualMemory) (permitted : BitVec 64 → Bool) (va : BitVec 64) : Bool :=
  ((vm.translate va).map fun r => permitted r.2).getD false

theorem permitsByte_iff : vm.permitsByte permitted va = true ↔ vm.Permits permitted va := by
  unfold permitsByte Permits
  cases vm.translate va with
  | none => simp
  | some r => simp [Prod.ext_iff]

/-- The number of bytes that `copy_to_user` writes for a thread with the root `cr3`. -/
def copiedBytes (vm : VirtualMemory) (cr3 p length : BitVec 64) : Nat :=
  if isUserAddressRange p length then
    ((List.range length.toNat).takeWhile fun i =>
      (vm.attach cr3).permitsByte (hasRequiredUserFlags · true) (byteAt p i)).length
  else 0

/-- The first byte that is refused is where the permitted ones end. -/
theorem takeWhile_range_length {f : Nat → Bool} (hk : k ≤ length) (hprev : ∀ i < k, f i = true)
    (hstop : k < length → f k = false) : ((List.range length).takeWhile f).length = k := by
  obtain ⟨n, rfl⟩ := Nat.exists_eq_add_of_le hk
  rw [List.range_add, List.takeWhile_append_of_pos (by simpa using hprev)]
  cases n with
  | zero => simp
  | succ n =>
    have hfalse : f k = false := hstop (by omega)
    simp [List.range_succ_eq_map, hfalse]

theorem Ends.stop {r : Except CopyFailure Unit} (h : Ends vm permitted address length r k)
    (hk : k < length) : vm.permitsByte permitted (byteAt address k) = false := by
  cases h with
  | done => exact absurd hk (Nat.lt_irrefl _)
  | unmapped _ h => simp [permitsByte, h]
  | refused _ h hflags => simp [permitsByte, h, hflags]

/-- The copy writes the bytes up to the first that it may not write. -/
theorem copyToUser_eq {cr3 : BitVec 64} (h : (vm.attach cr3).TablesHidden) (p length : BitVec 64)
    (source : Nat → BitVec 8) : ∃ r, vm.copyToUser (some cr3) p (some source) length =
      (r, { vm with mem := (vm.attach cr3).writeRange p source (vm.copiedBytes cr3 p length) }) ∧
      (r = .ok () ↔ vm.copiedBytes cr3 p length = length.toNat) := by
  unfold copyToUser copiedBytes
  dsimp only
  cases hrange : isUserAddressRange p length with
  | false =>
    simp only [Bool.not_false, if_true, Bool.false_eq_true, if_false]
    have hne : length ≠ 0#64 := by
      rintro rfl
      cases hrange.symm.trans ((isUserAddressRange_iff p 0#64).mpr (Or.inl rfl))
    refine ⟨_, rfl, iff_of_false (fun hr => by cases hr) fun heq => hne ?_⟩
    exact BitVec.eq_of_toNat_eq heq.symm
  | true =>
    have hstable : (vm.attach cr3).Stable (hasRequiredUserFlags · true) p source :=
      h.stable user_of_hasRequiredUserFlags
    obtain ⟨r, k, heq, hprev, hends⟩ := copyOut_whole (hstable.range length.toNat)
    have hk : ((List.range length.toNat).takeWhile fun i =>
        (vm.attach cr3).permitsByte (hasRequiredUserFlags · true) (byteAt p i)).length = k :=
      takeWhile_range_length hends.le (fun i hi => permitsByte_iff.mpr (hprev i hi)) hends.stop
    simp only [Bool.not_true, Bool.false_eq_true, if_false, if_true, heq, hk]
    refine ⟨r, rfl, ?_⟩
    cases hends with
    | done => simp
    | unmapped hlt | refused hlt => simpa using Nat.ne_of_lt hlt

theorem of_lt_takeWhile_range {f : Nat → Bool} {n : Nat}
    (hi : i < ((List.range n).takeWhile f).length) : f i = true := by
  have htake := List.prefix_iff_eq_take.mp (List.takeWhile_prefix f (l := List.range n))
  have hmem : i ∈ (List.range n).takeWhile f := by
    rw [htake, List.take_range, List.mem_range]
    have hle : ((List.range n).takeWhile f).length ≤ n := by
      simpa using (List.takeWhile_sublist (l := List.range n) f).length_le
    omega
  exact List.mem_takeWhile_imp hmem

/-- The bytes that are written are permitted. -/
theorem permits_of_lt_copiedBytes {cr3 p length : BitVec 64}
    (hi : i < vm.copiedBytes cr3 p length) :
    (vm.attach cr3).Permits (hasRequiredUserFlags · true) (byteAt p i) := by
  unfold copiedBytes at hi
  split at hi
  · exact permitsByte_iff.mp (of_lt_takeWhile_range hi)
  · exact absurd hi (Nat.not_lt_zero i)

/-- A copy is complete when the range lies in user space and every byte is permitted. -/
theorem copiedBytes_eq_iff (vm : VirtualMemory) (cr3 p : BitVec 64) {length : BitVec 64}
    (h0 : length ≠ 0#64) :
    vm.copiedBytes cr3 p length = length.toNat ↔ InUserSpace p length ∧
      ∀ i < length.toNat, (vm.attach cr3).Permits (hasRequiredUserFlags · true) (byteAt p i) := by
  constructor
  · intro heq
    refine ⟨?_, fun i hi => permits_of_lt_copiedBytes (heq ▸ hi)⟩
    by_contra hspace
    have hrange : isUserAddressRange p length = false := by
      rw [← Bool.not_eq_true, isUserAddressRange_iff]
      exact not_or.mpr ⟨h0, hspace⟩
    rw [copiedBytes, hrange] at heq
    exact h0 (BitVec.eq_of_toNat_eq heq.symm)
  · rintro ⟨hspace, hall⟩
    rw [copiedBytes, if_pos ((isUserAddressRange_iff p length).mpr (Or.inr hspace))]
    exact takeWhile_range_length (Nat.le_refl _) (fun i hi => permitsByte_iff.mpr (hall i hi))
      fun hlt => absurd hlt (Nat.lt_irrefl _)

/-- How far a copy gets depends on the translations only. -/
theorem copiedBytes_congr {vm' : VirtualMemory} {cr3 : BitVec 64}
    (h : ∀ va, (vm'.attach cr3).translate va = (vm.attach cr3).translate va)
    (p length : BitVec 64) : vm'.copiedBytes cr3 p length = vm.copiedBytes cr3 p length := by
  simp only [copiedBytes, permitsByte, h]

/-- Writing a range can be interrupted, as long as the translations stay the same. -/
theorem writeRange_append {n : Nat}
    (h : ∀ va, { vm with mem := vm.writeRange address source n }.translate va = vm.translate va)
    (k : Nat) : { vm with mem := vm.writeRange address source n }.writeRange (byteAt address n)
      (fun i => source (n + i)) k = vm.writeRange address source (n + k) := by
  induction k with
  | zero => rfl
  | succ k ih =>
    rw [VirtualMemory.writeRange, h, byteAt_byteAt, ih, ← Nat.add_assoc]
    rfl

/-- Only the bytes that are written matter. -/
theorem writeRange_congr {source' : Nat → BitVec 8} (h : ∀ i < k, source' i = source i) :
    vm.writeRange address source' k = vm.writeRange address source k := by
  induction k with
  | zero => rfl
  | succ k ih =>
    rw [writeRange, writeRange, ih fun i hi => h i (by omega), h k (by omega)]

theorem copiedBytes_le (cr3 p length : BitVec 64) : vm.copiedBytes cr3 p length ≤ length.toNat := by
  unfold copiedBytes
  split
  · exact (List.takeWhile_sublist _).length_le.trans (by simp)
  · exact Nat.zero_le _

theorem copyToUser_exact {cr3 p length : BitVec 64} (h : (vm.attach cr3).TablesHidden) :
    CopiesToUser vm cr3 p source length := by
  obtain ⟨r, heq, hok⟩ := copyToUser_eq h p length source
  unfold CopiesToUser
  dsimp only
  rw [heq]
  refine ⟨?_, _, copiedBytes_le _ _ _, hok.mp, fun i hi => permits_of_lt_copiedBytes hi, rfl,
    fun x hx => writeRange_apply_of_ne hx⟩
  by_cases h0 : length = 0#64
  · subst h0
    exact iff_of_true (hok.mpr (Nat.le_zero.mp (copiedBytes_le _ _ _))) (Or.inl rfl)
  · rw [hok, copiedBytes_eq_iff vm cr3 p h0, or_iff_right h0]

/-- User copies succeed and fail as the page tables say and touch nothing else. -/
theorem user_copies_exact (vm : VirtualMemory) (cr3 p length : BitVec 64)
    (source : Nat → BitVec 8) (h : (vm.attach cr3).TablesHidden) :
    CopiesToUser vm cr3 p source length ∧ CopiesFromUser vm cr3 p length :=
  ⟨copyToUser_exact h, copyFromUser_exact⟩

/-- The first page of user space is mapped to frame 5; frames 1 to 4 hold the tables. -/
def oneUserPage : VirtualMemory where
  mem := (((Memory.store64 (fun _ => 0#8) 0x1008 0x2007#64).store64 0x2000 0x3007#64).store64
    0x3000 0x4007#64).store64 0x4000 0x5007#64
  frames := PageFrameContainer.bootedFrames

theorem oneUserPage_load64 {a : Nat} (ha : a % 8 = 0) : oneUserPage.mem.load64 a =
    if a = 0x4000 then 0x5007#64 else if a = 0x3000 then 0x4007#64
    else if a = 0x2000 then 0x3007#64 else if a = 0x1008 then 0x2007#64 else 0#64 := by
  have hstep (m : Memory) (b : Nat) (w : BitVec 64) (hb : b % 8 = 0) :
      (m.store64 b w).load64 a = if a = b then w else m.load64 a := by
    split
    next heq => rw [heq, Memory.load64_store64_self]
    next hne => exact Memory.load64_store64_of_disjoint (by omega)
  simp only [oneUserPage]
  rw [hstep _ _ _ (by decide), hstep _ _ _ (by decide), hstep _ _ _ (by decide),
    hstep _ _ _ (by decide), Memory.load64_of_zero fun _ _ _ => rfl]

/-- Each level has one entry, which leads to the next frame. -/
theorem oneUserPage_entry {n e : Nat} (he : e < 512) (hn : n = 1 ∨ n = 2 ∨ n = 3 ∨ n = 4) :
    oneUserPage.mem.load64 (n * 0x1000 + 8 * e) = 0#64 ∨
      oneUserPage.mem.load64 (n * 0x1000 + 8 * e) = BitVec.ofNat 64 ((n + 1) * 0x1000 + 7) := by
  rw [oneUserPage_load64 (by omega)]
  obtain rfl | rfl | rfl | rfl := hn
  all_goals split_ifs <;> first | omega | simp

theorem oneUserPage_levels (va : BitVec 64) :
    let vm := oneUserPage.attach 0x1000#64
    (vm.pml4e va ≠ 0#64 → vm.pml4e va = 0x2007#64) ∧
    (vm.pml4e va ≠ 0#64 → vm.pml3e va ≠ 0#64 → vm.pml3e va = 0x3007#64) ∧
    (vm.pml4e va ≠ 0#64 → vm.pml3e va ≠ 0#64 → vm.pml2e va ≠ 0#64 → vm.pml2e va = 0x4007#64) ∧
    (vm.pml4e va ≠ 0#64 → vm.pml3e va ≠ 0#64 → vm.pml2e va ≠ 0#64 → vm.pml1e va ≠ 0#64 →
      vm.pml1e va = 0x5007#64) := by
  intro vm
  have h4 (h : vm.pml4e va ≠ 0#64) : vm.pml4e va = 0x2007#64 :=
    (oneUserPage_entry (n := 1) (pageIndex_lt va 39) (by decide)).resolve_left h
  have h3 (h : vm.pml4e va ≠ 0#64) (h' : vm.pml3e va ≠ 0#64) : vm.pml3e va = 0x3007#64 := by
    rw [pml3e, h4 h] at h' ⊢
    exact (oneUserPage_entry (n := 2) (pageIndex_lt va 30) (by decide)).resolve_left h'
  have h2 (h : vm.pml4e va ≠ 0#64) (h' : vm.pml3e va ≠ 0#64) (h'' : vm.pml2e va ≠ 0#64) :
      vm.pml2e va = 0x4007#64 := by
    rw [pml2e, h3 h h'] at h'' ⊢
    exact (oneUserPage_entry (n := 3) (pageIndex_lt va 21) (by decide)).resolve_left h''
  refine ⟨h4, h3, h2, fun h h' h'' h1 => ?_⟩
  rw [pml1e, h2 h h' h''] at h1 ⊢
  exact (oneUserPage_entry (n := 4) (pageIndex_lt va 12) (by decide)).resolve_left h1

theorem oneUserPage_hidden : (oneUserPage.attach 0x1000#64).TablesHidden := by
  intro va g hg va' pa flags htranslate _
  have hg' : g ≤ 0x4000 := by
    obtain ⟨h4, h3, h2, -⟩ := oneUserPage_levels va
    cases hg with
    | pml4 => decide
    | pml3 h => rw [h4 h]; decide
    | pml2 h h' => rw [h3 h h']; decide
    | pml1 h h' h'' => rw [h2 h h' h'']; decide
  have hpa : 0x5000 ≤ pa.toNat := by
    obtain ⟨-, -, h2, h1⟩ := oneUserPage_levels va'
    rw [translate_eq] at htranslate
    split_ifs at htranslate with hi h4 h3 h2' hlarge h1'
    · rw [h2 h4 h3 h2'] at hlarge
      exact absurd (by decide) hlarge
    · obtain ⟨rfl, -⟩ := Prod.mk.inj (Option.some.inj htranslate)
      rw [h1 h4 h3 h2' h1', BitVec.toNat_or]
      exact Nat.left_le_or
  unfold kPageSize
  omega

theorem user_copies_exact_one_page :
    CopiesToUser oneUserPage 0x1000#64 0x8000000000#64 (fun _ => 7#8) 16#64 ∧
      CopiesFromUser oneUserPage 0x1000#64 0x8000000000#64 16#64 :=
  user_copies_exact oneUserPage 0x1000#64 0x8000000000#64 16#64 (fun _ => 7#8) oneUserPage_hidden

end VirtualMemory
end Os1
