import Os1.Mm.UserView

/-! Copies into an address space, as changes of what user code sees. -/
namespace Os1.VirtualMemory

variable {slot : Nat} {vm : VirtualMemory} {va va' address : BitVec 64} {source : Nat → BitVec 8}
  {k length : Nat}

/-- The addresses of the slot. -/
def InWindow (slot : Nat) (va : BitVec 64) : Prop := va.toNat / 2 ^ 39 = slot

instance (slot : Nat) (va : BitVec 64) : Decidable (InWindow slot va) :=
  inferInstanceAs (Decidable (_ = _))

theorem InWindow.pageIndex (h : InWindow slot va) (hslot : slot < 512) :
    pageIndex va 39 = slot := by
  rw [pageIndex_eq, h, Nat.mod_eq_of_lt hslot]

/-- The physical address of a byte of a mapped page. -/
def leafPhysical (vm : VirtualMemory) (va : BitVec 64) : Nat :=
  entryAddress (vm.leafOf va) + va.toNat % kPageSize

theorem translate_slot (h : UserSpace slot vm) (hs : pageIndex va 39 = slot) :
    vm.translate va = if vm.leafOf va = 0#64 then none
      else some ((vm.leafOf va &&& kEntryAddressMask) ||| (va &&& kPageOffsetMask),
        vm.leafOf va &&& ~~~kEntryAddressMask) := by
  have hlarge : vm.mapped (midPath va) (pageIndex va 21) = 0#64 := h.noLargePage hs
  rw [translate_eq_lookup h.tree hs, lookup]
  rw [if_neg (not_not.mpr hlarge)]
  exact ite_not _ _ _

theorem toNat_leafPhysical (vm : VirtualMemory) (va : BitVec 64) :
    ((vm.leafOf va &&& kEntryAddressMask) ||| (va &&& kPageOffsetMask)).toNat =
      vm.leafPhysical va :=
  toNat_or_offset (k := 12) (by decide) (and_low_mod 12 (by decide)) va

theorem entryAddress_aligned (e : BitVec 64) : entryAddress e % kPageSize = 0 :=
  and_low_mod 12 (by decide)

/-- Different mapped bytes of the slot lie at different physical addresses. -/
theorem leafPhysical_inj (h : UserSpace slot vm) (hslot : slot < 512) (hw : InWindow slot va)
    (hw' : InWindow slot va') (hne : vm.leafOf va ≠ 0#64) (hne' : vm.leafOf va' ≠ 0#64)
    (heq : vm.leafPhysical va = vm.leafPhysical va') : va = va' := by
  have ha := entryAddress_aligned (vm.leafOf va)
  have ha' := entryAddress_aligned (vm.leafOf va')
  unfold leafPhysical at heq
  have hoff : va.toNat % kPageSize = va'.toNat % kPageSize := by
    unfold kPageSize at *
    omega
  have hframe : entryAddress (vm.leafOf va) = entryAddress (vm.leafOf va') := by omega
  rw [leafOf, mapped_leaf] at hne hframe
  rw [leafOf, mapped_leaf] at hne' hframe
  obtain ⟨hpath, hidx⟩ := h.leafDistinct _ _ _ _
    (leafPath_inSlots va (hw.pageIndex hslot) (pageIndex_lt va 12)) rfl hne
    (leafPath_inSlots va' (hw'.pageIndex hslot) (pageIndex_lt va' 12)) rfl hne' hframe
  have hnum := (pageNumber_eq_iff va va').mpr ⟨hpath, hidx⟩
  rw [← BitVec.toNat_inj, toNat_pageNumber, toNat_pageNumber] at hnum
  apply BitVec.eq_of_toNat_eq
  unfold InWindow at hw hw'
  unfold kPageSize at hoff
  omega

theorem leafOf_of_writesPages {m : Memory} (h : UserSpace slot vm) (hm : WritesPages slot vm m)
    (hs : pageIndex va 39 = slot) : { vm with mem := m }.leafOf va = vm.leafOf va :=
  leafOf_congr hs (h.writesPages_same hm).2

/-- Writes to mapped pages leave the tables open and the root as it is. -/
theorem opening_of_writesPages {m : Memory} (h : UserSpace slot vm) (hm : WritesPages slot vm m) :
    Opening slot vm { vm with mem := m } := by
  refine ⟨fun ho q j hs hl => ?_, fun hi => ⟨hi, rfl, fun k hk _ => ?_⟩⟩
  · rw [(h.writesPages_same hm).2 q j hs (by omega)]
    exact ho q j hs hl
  · refine Memory.load64_congr fun x h1 h2 => h.writesPages_keep hm x
      ⟨[], _, ⟨by simp, by simp⟩, by simp, tables_root hi, by omega, ?_⟩
    unfold kPageSize
    omega

section Range

variable (h : UserSpace slot vm) (hslot : slot < 512)
  (hwin : ∀ i < length, InWindow slot (byteAt address i))
include h hslot hwin

/-- The bytes of the range are written to mapped pages only. -/
theorem writesPages_writeRange (hk : k ≤ length) :
    WritesPages slot vm (vm.writeRange address source k) := by
  intro x hx
  by_contra hnot
  refine hx (writeRange_apply_of_ne fun i hi pa flags htranslate heq => hnot ?_)
  have hs := (hwin i (by omega)).pageIndex hslot
  rw [translate_slot h hs] at htranslate
  split at htranslate
  · cases htranslate
  next hne =>
    obtain ⟨rfl, -⟩ := Prod.mk.inj (Option.some.inj htranslate)
    rw [heq, toNat_leafPhysical]
    refine ⟨_, slotPage_leafOf hs hne, Nat.le_add_right _ _, ?_⟩
    have := offset_lt (byteAt address i)
    unfold leafPhysical
    omega

theorem stableRange_slot (permitted : BitVec 64 → Bool) :
    vm.StableRange permitted address source length := by
  intro k hk _ j hj
  have hs := (hwin j hj).pageIndex hslot
  have hm : WritesPages slot vm (vm.writeRange address source k) :=
    writesPages_writeRange h hslot hwin hk
  rw [translate_slot (h.of_writesPages hm) hs, translate_slot h hs, leafOf_of_writesPages h hm hs]

/-- What a byte of a mapped page holds after the first `k` bytes of the range are written. -/
theorem writeRange_leafPhysical (source : Nat → BitVec 8)
    (hwrap : address.toNat + length ≤ 2 ^ 64) (hk : k ≤ length)
    (hw : InWindow slot va) (hne : vm.leafOf va ≠ 0#64) :
    vm.writeRange address source k (vm.leafPhysical va) =
      if address.toNat ≤ va.toNat ∧ va.toNat < address.toNat + k then
        source (va.toNat - address.toNat)
      else vm.mem (vm.leafPhysical va) := by
  induction k with
  | zero => rw [if_neg (by omega)]; rfl
  | succ k ih =>
    have hat : (byteAt address k).toNat = address.toNat + k := by
      rw [byteAt, BitVec.toNat_add, BitVec.toNat_ofNat]
      omega
    have hs := (hwin k (by omega)).pageIndex hslot
    rw [writeRange, translate_slot h hs]
    by_cases heq : va = byteAt address k
    · subst heq
      rw [if_neg hne]
      dsimp only
      rw [toNat_leafPhysical, Function.update_self, if_pos (by omega)]
      congr 1
      omega
    · have hva : va.toNat ≠ address.toNat + k := fun hn =>
        heq (BitVec.eq_of_toNat_eq (hn.trans hat.symm))
      have hcond : (address.toNat ≤ va.toNat ∧ va.toNat < address.toNat + (k + 1)) ↔
          (address.toNat ≤ va.toNat ∧ va.toNat < address.toNat + k) := by omega
      simp only [hcond]
      rw [← ih (by omega)]
      by_cases hne' : vm.leafOf (byteAt address k) = 0#64
      · rw [if_pos hne']
      · rw [if_neg hne']
        refine Function.update_of_ne (fun hp => heq ?_) _ _
        rw [toNat_leafPhysical] at hp
        exact leafPhysical_inj h hslot hw (hwin k (by omega)) hne hne' hp

theorem slotView_writeRange (hwrap : address.toNat + length ≤ 2 ^ 64) (hk : k ≤ length)
    (hw : InWindow slot va) :
    { vm with mem := vm.writeRange address source k }.slotView va =
      if address.toNat ≤ va.toNat ∧ va.toNat < address.toNat + k then
        (vm.slotView va).map fun v => (v.1, source (va.toNat - address.toNat))
      else vm.slotView va := by
  have hm : WritesPages slot vm (vm.writeRange address source k) :=
    writesPages_writeRange h hslot hwin hk
  rw [slotView, leafOf_of_writesPages h hm (hw.pageIndex hslot), slotView]
  unfold leafView
  by_cases hv : userVisible (vm.leafOf va) = true
  · have hne : vm.leafOf va ≠ 0#64 := by
      intro h0
      rw [h0, userVisible_zero] at hv
      cases hv
    have hbyte := writeRange_leafPhysical h hslot hwin source hwrap hk hw hne
    unfold leafPhysical at hbyte
    simp only [hv, if_true, hbyte, Option.map_some]
    split <;> rfl
  · simp [hv]

end Range

/-- A copy into mapped pages of the slot succeeds and replaces the bytes of the range. -/
theorem copyIntoAddressSpace_spec {count : BitVec 64} (h : UserSpace slot vm) (hslot : slot < 512)
    (hwin : ∀ i < count.toNat, InWindow slot (byteAt address i))
    (hmapped : ∀ i < count.toNat, vm.leafOf (byteAt address i) ≠ 0#64) :
    vm.copyIntoAddressSpace address source count =
      (true, { vm with mem := vm.writeRange address source count.toNat }) := by
  have hstable : vm.StableRange (fun _ => true) address source count.toNat :=
    stableRange_slot h hslot hwin _
  obtain ⟨r, k, heq, hprev, hends⟩ := copyOut_whole hstable
  have hpermits : ∀ i < count.toNat, vm.Permits (fun _ => true) (byteAt address i) := by
    intro i hi
    have htranslate := translate_slot h ((hwin i hi).pageIndex hslot)
    rw [if_neg (hmapped i hi)] at htranslate
    exact ⟨_, _, htranslate, rfl⟩
  obtain rfl := (hends.ok_iff hprev).mpr hpermits
  cases hends
  rw [copyIntoAddressSpace, heq]
  rfl

end Os1.VirtualMemory
