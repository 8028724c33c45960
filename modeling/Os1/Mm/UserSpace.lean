import Os1.Lib.Along
import Os1.Mm.Destroy

/-! User address spaces in one slot of the root, from their first mapping to their destruction. -/
namespace Os1.VirtualMemory

open PageFrameContainer

variable {slot : Nat} {vm vm' : VirtualMemory} {q q' : List Nat} {g i j k n a : Nat}
  {va pa e : BitVec 64} {flags : PageFlags}

/-- A path in the slot that ends at an entry of a table. -/
abbrev InSlot (slot : Nat) (q : List Nat) : Prop := InSlots (· = slot) q

/-- The tables of the slot hold 4 KiB mappings of distinct allocated frames that are no tables. -/
structure UserSpace (slot : Nat) (vm : VirtualMemory) : Prop where
  tree : Tree (· = slot) vm
  ready : vm.frames.initialized = true
  small : ∀ q j, InSlot slot (q ++ [j]) → q.length = 2 →
    vm.entryOf q j &&& kEntryLargePage = 0#64
  leafBusy : ∀ q j, InSlot slot (q ++ [j]) → q.length = 3 → vm.entryOf q j ≠ 0#64 →
    Busy vm.frames (entryAddress (vm.entryOf q j))
  leafNotTable : ∀ q j q', InSlot slot (q ++ [j]) → q.length = 3 → vm.entryOf q j ≠ 0#64 →
    InSlot slot q' → q'.length ≤ 3 → vm.tables q' ≠ some (entryAddress (vm.entryOf q j))
  leafDistinct : ∀ q j q' j', InSlot slot (q ++ [j]) → q.length = 3 → vm.entryOf q j ≠ 0#64 →
    InSlot slot (q' ++ [j']) → q'.length = 3 → vm.entryOf q' j' ≠ 0#64 →
    entryAddress (vm.entryOf q j) = entryAddress (vm.entryOf q' j') → q = q' ∧ j = j'

/-- An allocated frame that the slot neither uses as a table nor maps. -/
structure FrameReady (slot : Nat) (vm : VirtualMemory) (a : Nat) : Prop where
  busy : Busy vm.frames a
  notTable : ∀ q, InSlot slot q → q.length ≤ 3 → vm.tables q ≠ some a
  notLeaf : ∀ q j, InSlot slot (q ++ [j]) → q.length = 3 → vm.entryOf q j ≠ 0#64 →
    entryAddress (vm.entryOf q j) ≠ a

/-! ## Steps that keep the mappings -/

/-- A state with the same tables and entries whose allocated frames include the old ones. -/
theorem UserSpace.of_same (h : UserSpace slot vm) (ht : Tree (· = slot) vm')
    (hready : vm'.frames.initialized = true)
    (htables : ∀ q, InSlot slot q → q.length ≤ 3 → vm'.tables q = vm.tables q)
    (hentry : ∀ q j, InSlot slot (q ++ [j]) → q.length ≤ 3 → vm'.entryOf q j = vm.entryOf q j)
    (hbusy : ∀ a, Busy vm.frames a → Busy vm'.frames a) : UserSpace slot vm' := by
  refine ⟨ht, hready, ?_, ?_, ?_, ?_⟩
  · intro q j hs hl
    rw [hentry q j hs (by omega)]
    exact h.small q j hs hl
  · intro q j hs hl
    rw [hentry q j hs (by omega)]
    exact fun hne => hbusy _ (h.leafBusy q j hs hl hne)
  · intro q j q' hs hl hne hs' hl'
    rw [hentry q j hs (by omega)] at hne ⊢
    rw [htables q' hs' hl']
    exact h.leafNotTable q j q' hs hl hne hs' hl'
  · intro q j q' j' hs hl hne hs' hl' hne'
    rw [hentry q j hs (by omega)] at hne ⊢
    rw [hentry q' j' hs' (by omega)] at hne' ⊢
    exact h.leafDistinct q j q' j' hs hl hne hs' hl' hne'

theorem Busy.not_free {f : PageFrameContainer} (h : Busy f a) (hn : a = n * kPageSize) :
    f.isFree n = false := by
  obtain ⟨m, -, hm, hb⟩ := h
  have : n = m := Nat.eq_of_mul_eq_mul_right (by decide) (hn.symm.trans hm)
  rw [this, hb]

theorem Grows.busy {slots : Nat → Prop} {d : Nat} (h : Grows slots d vm vm')
    (hb : Busy vm.frames a) : Busy vm'.frames a := by
  obtain ⟨n, hn, rfl, hf⟩ := hb
  refine ⟨n, by rw [h.shape.pageCount]; exact hn, rfl, ?_⟩
  by_contra hne
  have := h.kept n (by simpa using hne)
  rw [hf] at this
  exact absurd this (by simp)

theorem Grows.leaf {slots : Nat → Prop} {d : Nat} (h : Grows slots d vm vm')
    (hs : InSlots slots (q ++ [j])) (hl : q.length = 3) : vm'.entryOf q j = vm.entryOf q j := by
  have hm := h.mapped q j hs (by omega)
  simpa [VirtualMemory.mapped, hl] using hm

theorem Grows.not_table {slots : Nat → Prop} {d : Nat} (h : Grows slots d vm vm')
    (hs : InSlots slots q) (hl : q.length ≤ 3) (hb : Busy vm.frames a)
    (hn : vm.tables q ≠ some a) : vm'.tables q ≠ some a := by
  intro hg
  rcases h.fresh q a hs hl hg with hg' | ⟨n, rfl, hfree⟩
  · exact hn hg'
  · rw [hb.not_free rfl] at hfree
    exact absurd hfree (by simp)

theorem UserSpace.grow (h : UserSpace slot vm) (ht : Tree (· = slot) vm')
    (hg : Grows (· = slot) 3 vm vm') : UserSpace slot vm' := by
  refine ⟨ht, by rw [hg.shape.initialized]; exact h.ready, ?_, ?_, ?_, ?_⟩
  · intro q j hs hl
    rw [← mapped_eq_zero_iff hl, hg.mapped q j hs (by omega), mapped_eq_zero_iff hl]
    exact h.small q j hs hl
  · intro q j hs hl
    rw [hg.leaf hs hl]
    exact fun hne => hg.busy (h.leafBusy q j hs hl hne)
  · intro q j q' hs hl hne hs' hl'
    rw [hg.leaf hs hl] at hne ⊢
    exact hg.not_table hs' hl' (h.leafBusy q j hs hl hne) (h.leafNotTable q j q' hs hl hne hs' hl')
  · intro q j q' j' hs hl hne hs' hl' hne'
    rw [hg.leaf hs hl] at hne ⊢
    rw [hg.leaf hs' hl'] at hne' ⊢
    exact h.leafDistinct q j q' j' hs hl hne hs' hl' hne'

theorem FrameReady.grow (h : FrameReady slot vm a) (hg : Grows (· = slot) 3 vm vm') :
    FrameReady slot vm' a := by
  refine ⟨hg.busy h.busy, fun q hs hl => hg.not_table hs hl h.busy (h.notTable q hs hl), ?_⟩
  intro q j hs hl
  rw [hg.leaf hs hl]
  exact h.notLeaf q j hs hl

/-- A frame that was free and has just been taken is ready. -/
theorem UserSpace.frameReady_taken (h : UserSpace slot vm) (hn : n < vm.frames.pageCount)
    (hf : vm.frames.isFree n = true)
    (htables : ∀ q, InSlot slot q → q.length ≤ 3 → vm'.tables q = vm.tables q)
    (hentry : ∀ q j, InSlot slot (q ++ [j]) → q.length ≤ 3 → vm'.entryOf q j = vm.entryOf q j)
    (hframes : vm'.frames = vm.frames.take n) : FrameReady slot vm' (n * kPageSize) := by
  refine ⟨⟨n, ?_, rfl, ?_⟩, ?_, ?_⟩
  · rw [hframes, (take_shape vm.frames n).pageCount]
    exact hn
  · simp [hframes, isFree_take]
  · intro q hs hl
    rw [htables q hs hl]
    exact h.tree.not_free hs hl hf
  · intro q j hs hl hne haddr
    rw [hentry q j hs (by omega)] at hne haddr
    rw [(h.leafBusy q j hs hl hne).not_free haddr] at hf
    exact absurd hf (by simp)

theorem UserSpace.zeroFrame (h : UserSpace slot vm) (hn : n < vm.frames.pageCount)
    (hf : vm.frames.isFree n = true) :
    UserSpace slot (vm.zeroFrame n) ∧ FrameReady slot (vm.zeroFrame n) (n * kPageSize) := by
  obtain ⟨htables, hentry⟩ := h.tree.zeroFrame_same hf
  refine ⟨h.of_same (h.tree.of_zeroFrame hn hf) ?_ htables hentry (fun a hb => hb.of_taken n),
    h.frameReady_taken hn hf htables hentry rfl⟩
  rw [VirtualMemory.zeroFrame, (take_shape vm.frames n).initialized]
  exact h.ready

theorem UserSpace.noLargePage (h : UserSpace slot vm) (hs : pageIndex va 39 = slot) :
    NoLargePage vm va :=
  (mapped_eq_zero_iff rfl).mpr (h.small (midPath va) (pageIndex va 21)
    (leafPath_inSlots va hs (pageIndex_lt va 12)).of_append rfl)

/-! ## Mapping a page -/

/-- Mapping a ready frame keeps the address space well formed. -/
theorem UserSpace.setLeaf (h : UserSpace slot vm) (hs : pageIndex va 39 = slot)
    (hg : vm.tables (leafPath va) = some g) (hr : FrameReady slot vm (entryAddress e)) :
    UserSpace slot (vm.setLeaf g va e) := by
  have htables : ∀ q, InSlot slot q → q.length ≤ 3 → (vm.setLeaf g va e).tables q = vm.tables q :=
    fun q hq hl => tables_setLeaf h.tree hs hg hq hl
  have hentry : ∀ q j, InSlot slot (q ++ [j]) → q.length ≤ 3 → (vm.setLeaf g va e).entryOf q j =
      if q = leafPath va ∧ j = pageIndex va 12 then e else vm.entryOf q j :=
    fun q j hq hl => entryOf_setLeaf h.tree hs hg hq hl
  refine ⟨h.tree.setLeaf hs hg, h.ready, ?_, ?_, ?_, ?_⟩
  · intro q j hq hl
    rw [hentry q j hq (by omega), if_neg]
    · exact h.small q j hq hl
    · rintro ⟨rfl, -⟩
      simp [leafPath] at hl
  · intro q j hq hl hne
    rw [hentry q j hq (by omega)] at hne ⊢
    split at hne <;> rename_i hc
    · rw [if_pos hc]
      exact hr.busy
    · rw [if_neg hc]
      exact h.leafBusy q j hq hl hne
  · intro q j q' hq hl hne hq' hl'
    rw [hentry q j hq (by omega)] at hne ⊢
    rw [htables q' hq' hl']
    split at hne <;> rename_i hc
    · rw [if_pos hc]
      exact hr.notTable q' hq' hl'
    · rw [if_neg hc]
      exact h.leafNotTable q j q' hq hl hne hq' hl'
  · intro q j q' j' hq hl hne hq' hl' hne' haddr
    rw [hentry q j hq (by omega)] at hne haddr
    rw [hentry q' j' hq' (by omega)] at hne' haddr
    split at hne <;> rename_i hc <;> split at hne' <;> rename_i hc'
    · exact ⟨hc.1.trans hc'.1.symm, hc.2.trans hc'.2.symm⟩
    · rw [if_pos hc, if_neg hc'] at haddr
      exact (hr.notLeaf q' j' hq' hl' hne' haddr.symm).elim
    · rw [if_neg hc, if_pos hc'] at haddr
      exact (hr.notLeaf q j hq hl hne haddr).elim
    · rw [if_neg hc, if_neg hc'] at haddr
      exact h.leafDistinct q j q' j' hq hl hne hq' hl' hne' haddr

/-- A frame other than the one that is mapped stays ready. -/
theorem FrameReady.setLeaf (h : UserSpace slot vm) (hr : FrameReady slot vm a)
    (hs : pageIndex va 39 = slot) (hg : vm.tables (leafPath va) = some g)
    (hne : entryAddress e ≠ a) : FrameReady slot (vm.setLeaf g va e) a := by
  refine ⟨hr.busy, fun q hq hl => ?_, fun q j hq hl hne' => ?_⟩
  · rw [tables_setLeaf h.tree hs hg hq hl]
    exact hr.notTable q hq hl
  · rw [entryOf_setLeaf h.tree hs hg hq (by omega)] at hne' ⊢
    split at hne' <;> rename_i hc
    · rw [if_pos hc]
      exact hne
    · rw [if_neg hc]
      exact hr.notLeaf q j hq hl hne'

/-! ## Building -/

/-- The calls that build a user address space. -/
inductive BuildOp where
  | allocateFrame
  | cloneKernelMappings (sourceRoot : BitVec 64)
  | allocateAndMap (va n : BitVec 64) (flags : PageFlags)
  | mapPhysical (va pa n : BitVec 64) (flags : PageFlags)
  deriving DecidableEq, Repr

def BuildOp.exec (vm : VirtualMemory) : BuildOp → VirtualMemory
  | allocateFrame => match vm.frames.allocate with
    | none => vm
    | some (_, frames) => { vm with frames := frames }
  | cloneKernelMappings sourceRoot => (vm.cloneKernelMappings sourceRoot).2
  | allocateAndMap va n flags => (vm.allocateAndMap va n flags).2
  | mapPhysical va pa n flags => (vm.mapPhysical va pa n flags).2

/-- The call stays in the slot, and `map_physical` is given allocated frames that are pairwise
distinct, no tables and not mapped yet. -/
def BuildOp.Legal (slot : Nat) (vm : VirtualMemory) : BuildOp → Prop
  | allocateFrame => True
  | cloneKernelMappings _ => slot ≠ kKernelPml4Index ∧ slot ≠ kDirectMapPml4Index
  | allocateAndMap va n _ => ∀ i < n.toNat, pageIndex (pageAt va i) 39 = slot
  | mapPhysical va pa n _ => (∀ i < n.toNat, pageIndex (pageAt va i) 39 = slot) ∧
      (∀ i < n.toNat, FrameReady slot vm (pageAt pa i).toNat) ∧
      ∀ i < n.toNat, ∀ k < n.toNat, pageAt pa i = pageAt pa k → i = k

theorem Busy.bounds {f : PageFrameContainer} (h : Busy f a) (hb : f.pageCount ≤ 2 ^ 40) :
    a % kPageSize = 0 ∧ a < 2 ^ 52 := by
  obtain ⟨n, hn, rfl, -⟩ := h
  refine ⟨Nat.mul_mod_left n _, ?_⟩
  unfold kPageSize
  omega

/-- A leaf word made for an allocated frame names that frame. -/
theorem entryAddress_leafWord {f : PageFrameContainer} (flags : PageFlags)
    (h : Busy f (pageAt pa i).toNat) (hb : f.pageCount ≤ 2 ^ 40) :
    entryAddress (leafWord pa flags i) = (pageAt pa i).toNat := by
  obtain ⟨hal, hlt⟩ := h.bounds hb
  have hmask := and_kEntryAddressMask_of_aligned ((aligned_iff _).mpr hal) hlt
  rw [entryAddress, leafWord, hmask,
    and_or_of_masked hmask (show flagsToEntry _ &&& _ = 0#64 from toWord_and_mask _)]

theorem entryAddress_frameWord (flags : PageFlags) (hn : n < 2 ^ 40) :
    entryAddress (frameWord n flags) = n * kPageSize := by
  rw [frameWord, leafWord, pageAt_zero]
  exact entryAddress_frame hn (toWord_and_mask _)

theorem UserSpace.mapPhysical {n : BitVec 64} (h : UserSpace slot vm)
    (hl : (BuildOp.mapPhysical va pa n flags).Legal slot vm) :
    UserSpace slot (vm.mapPhysical va pa n flags).2 := by
  obtain ⟨hslot, hready, hinj⟩ := hl
  rw [VirtualMemory.mapPhysical]
  split
  · exact h
  have hinv : LoopInv (· = slot) (Grows (· = slot) 3) va n.toNat (fun i s => UserSpace slot s ∧
      ∀ k < n.toNat, i ≤ k → FrameReady slot s (pageAt pa k).toNat) :=
    ⟨hslot, fun i s hi _ hs => hs.1.noLargePage (hslot i hi),
      fun i s s' hs _ hts' hg => ⟨hs.1.grow hts' hg, fun k hk hik => (hs.2 k hk hik).grow hg⟩⟩
  obtain ⟨-, k, -, hI, -⟩ := mapPhysicalPages_rule hinv
    (fun i s g hi hts hs hg => by
      have hri := hs.2 i hi (le_refl i)
      have haddr := entryAddress_leafWord flags hri.busy hts.tracked.bounded
      refine ⟨hs.1.setLeaf (hslot i hi) hg (haddr ▸ hri), fun k hk hik => ?_⟩
      refine FrameReady.setLeaf hs.1 (hs.2 k hk (by omega)) (hslot i hi) hg ?_
      rw [haddr]
      intro heq
      have := hinj i hi k hk (BitVec.eq_of_toNat_eq heq)
      omega)
    n.toNat 0 (Nat.zero_add _) h.tree ⟨h, fun k hk _ => hready k hk⟩ (Prod.mk.eta).symm
  exact hI.1

theorem UserSpace.allocateAndMap {n : BitVec 64} (h : UserSpace slot vm)
    (hslot : ∀ i < n.toNat, pageIndex (pageAt va i) 39 = slot) :
    UserSpace slot (vm.allocateAndMap va n flags).2 := by
  rw [VirtualMemory.allocateAndMap]
  split
  · exact h
  rename_i hr
  have haligned : va &&& kPageOffsetMask = 0#64 := by
    by_contra hne
    exact hr (Or.inr hne)
  have hinv : ∀ m, LoopInv (· = slot) (Grows (· = slot) 3) va n.toNat
      (fun _ s => UserSpace slot s ∧ FrameReady slot s (m * kPageSize)) := fun m =>
    ⟨hslot, fun i s hi _ hs => hs.1.noLargePage (hslot i hi),
      fun i s s' hs _ hts' hg => ⟨hs.1.grow hts' hg, hs.2.grow hg⟩⟩
  obtain ⟨-, k, -, hI, -⟩ := allocatePages_rule (I := fun _ s => UserSpace slot s)
    (J := fun _ m s => UserSpace slot s ∧ FrameReady slot s (m * kPageSize)) walksTo_grows
    haligned hinv (fun i s m _ _ hs hm hf => hs.zeroFrame hm hf) (fun i s m hs => hs.1)
    (fun i s m g hi hm _ hs hg => hs.1.setLeaf (e := frameWord m flags) (hslot i hi) hg
      ((entryAddress_frameWord flags hm).symm ▸ hs.2))
    n.toNat 0 0 (Nat.zero_add _) h.tree h (Prod.mk.eta).symm
  exact hI

theorem UserSpace.allocateFrame (h : UserSpace slot vm) :
    UserSpace slot (BuildOp.allocateFrame.exec vm) := by
  simp only [BuildOp.exec]
  split
  · exact h
  · rename_i a frames ha
    obtain ⟨n, -, hn, hf, rfl, -⟩ := allocate_some h.tree.tracked ha
    have hbusy : ∀ a, Busy vm.frames a → Busy (vm.frames.take n) a := fun a hb => hb.of_taken n
    refine h.of_same (h.tree.of_same (h.tree.tracked.take hn hf) (fun _ _ _ => rfl)
      (fun _ _ _ _ => rfl) (fun q g hs hl hg => hbusy g (h.tree.owned q g hs hl hg))) ?_
      (fun _ _ _ => rfl) (fun _ _ _ _ => rfl) hbusy
    change (vm.frames.take n).initialized = true
    rw [(take_shape vm.frames n).initialized]
    exact h.ready

/-- Root entries outside the slot do not matter. -/
theorem UserSpace.storeRoot (h : UserSpace slot vm) (hi : vm.tables [] = some vm.root.toNat)
    (hk : k < 512) (hne : slot ≠ k) : UserSpace slot (vm.storeEntry (vm.root.toNat + 8 * k) e) := by
  have hload : ∀ q g j, InSlot slot (q ++ [j]) → q.length ≤ 3 → vm.tables q = some g →
      (vm.storeEntry (vm.root.toNat + 8 * k) e).mem.load64 (g + 8 * j) =
        vm.mem.load64 (g + 8 * j) := by
    intro q g j hs hl hg
    have hj := hs.last
    apply Memory.load64_store64_of_disjoint
    by_cases hq : q = []
    · subst hq
      rw [hi] at hg
      have hjs : j = slot := hs.2 j (by simp)
      have := Option.some.inj hg
      omega
    · have hgr : g ≠ vm.root.toNat := by
        rintro rfl
        exact hq (h.tree.distinct q [] _ hs.of_append hl ⟨by simp, by simp⟩ (by simp) hg hi)
      have hsep := (h.tree.owned q g hs.of_append hl hg).apart
        (h.tree.owned [] _ ⟨by simp, by simp⟩ (by simp) hi) hgr
      unfold kPageSize at hsep
      omega
  obtain ⟨htables, hentry⟩ :=
    same_of_load vm (vm.storeEntry (vm.root.toNat + 8 * k) e) rfl rfl hload
  exact h.of_same (h.tree.of_same h.tree.tracked htables hentry h.tree.owned) h.ready htables hentry
    (fun _ hb => hb)

theorem UserSpace.ensureRoot {ok : Bool} (h : UserSpace slot vm) (he : vm.ensureRoot = (ok, vm')) :
    UserSpace slot vm' := by
  obtain ⟨ht, hg, -⟩ := ensureRoot_spec h.tree he
  exact h.grow ht (hg.mono (by decide) (by decide))

theorem UserSpace.cloneKernelMappings {sourceRoot : BitVec 64} (h : UserSpace slot vm)
    (hk : slot ≠ kKernelPml4Index) (hd : slot ≠ kDirectMapPml4Index) :
    UserSpace slot (vm.cloneKernelMappings sourceRoot).2 := by
  rw [VirtualMemory.cloneKernelMappings]
  rcases he : vm.ensureRoot with ⟨ok, vm1⟩
  have h1 := h.ensureRoot he
  cases ok with
  | false => exact h1
  | true =>
    obtain ⟨ht1, -, hroot⟩ := ensureRoot_spec h.tree he
    have h2 := h1.storeRoot (e := vm1.mem.load64 (sourceRoot.toNat + 8 * kKernelPml4Index))
      (hroot rfl) (pageIndex_lt _ _) hk
    have hroot2 : (vm1.storeEntry (vm1.root.toNat + 8 * kKernelPml4Index)
        (vm1.mem.load64 (sourceRoot.toNat + 8 * kKernelPml4Index))).tables [] =
        some vm1.root.toNat := by
      have hi := initialized_of_tables (hroot rfl)
      exact tables_root hi
    exact h2.storeRoot hroot2 (pageIndex_lt _ _) hd

theorem exec_userSpace {op : BuildOp} (h : UserSpace slot vm) (hl : op.Legal slot vm) :
    UserSpace slot (op.exec vm) := by
  cases op with
  | allocateFrame => exact h.allocateFrame
  | cloneKernelMappings sourceRoot => exact h.cloneKernelMappings hl.1 hl.2
  | allocateAndMap va n flags => exact h.allocateAndMap hl
  | mapPhysical va pa n flags => exact h.mapPhysical hl

theorem userSpace_fresh (hfresh : vm.initialized = false) (hframes : vm.frames.Tracked)
    (hready : vm.frames.initialized = true) : UserSpace slot vm := by
  have h0 : ∀ q j, vm.entryOf q j = 0#64 := fun q j =>
    entryOf_none (tables_of_not_initialized (by simp [hfresh]) q)
  refine ⟨tree_fresh hfresh hframes, hready, fun q j _ _ => by rw [h0]; decide, ?_, ?_, ?_⟩
  · exact fun q j _ _ hne => (hne (h0 q j)).elim
  · exact fun q j _ _ _ hne => (hne (h0 q j)).elim
  · exact fun q j _ _ _ _ hne => (hne (h0 q j)).elim

/-- The state after building. -/
def build (vm : VirtualMemory) (ops : List BuildOp) : VirtualMemory := ops.foldl BuildOp.exec vm

theorem build_userSpace {ops : List BuildOp} (h : UserSpace slot vm)
    (hl : Along BuildOp.exec (BuildOp.Legal slot) vm ops) : UserSpace slot (build vm ops) := by
  induction ops generalizing vm with
  | nil => exact h
  | cons op ops ih => exact ih (exec_userSpace h hl.1) hl.2

/-! ## The frames of the slot -/

/-- The entry at the end of path `p` names the frame at `a`. -/
def NodeAt (vm : VirtualMemory) (p : List Nat) (a : Nat) : Prop :=
  ∃ q j, p = q ++ [j] ∧ vm.entryOf q j ≠ 0#64 ∧ entryAddress (vm.entryOf q j) = a

/-- A page-table frame under the slot. -/
def SlotTable (slot : Nat) (vm : VirtualMemory) (a : Nat) : Prop :=
  ∃ p, InSlot slot p ∧ p.length ≤ 3 ∧ NodeAt vm p a

/-- A frame that a leaf entry under the slot points to. -/
def SlotPage (slot : Nat) (vm : VirtualMemory) (a : Nat) : Prop :=
  ∃ p, InSlot slot p ∧ p.length = 4 ∧ NodeAt vm p a

theorem nodeAt_snoc : NodeAt vm (q ++ [j]) a ↔
    vm.entryOf q j ≠ 0#64 ∧ entryAddress (vm.entryOf q j) = a := by
  constructor
  · rintro ⟨q', j', heq, h⟩
    obtain ⟨rfl, hj⟩ := List.append_inj' heq rfl
    obtain rfl : j = j' := by simpa using hj
    exact h
  · exact fun h => ⟨q, j, rfl, h⟩

/-- Above the leaves, entries are tables. -/
theorem UserSpace.tables_of_entry (h : UserSpace slot vm) (hs : InSlot slot (q ++ [j]))
    (hl : q.length ≤ 2) (hne : vm.entryOf q j ≠ 0#64) :
    vm.tables (q ++ [j]) = some (entryAddress (vm.entryOf q j)) := by
  by_cases h2 : q.length = 2
  · rw [tables_snoc, nextTable, if_pos (isTableEntry_iff.mpr ⟨hne, h.small q j hs h2⟩)]
  · exact h.tree.upper_table hs (by omega) hne

theorem UserSpace.nodeAt_cases {p : List Nat} (h : UserSpace slot vm) (hs : InSlot slot p)
    (hl : p.length ≤ 4) (hn : NodeAt vm p a) :
    (p.length ≤ 3 ∧ vm.tables p = some a) ∨
      ∃ q j, p = q ++ [j] ∧ q.length = 3 ∧ vm.entryOf q j ≠ 0#64 ∧
        entryAddress (vm.entryOf q j) = a := by
  obtain ⟨q, j, rfl, hne, rfl⟩ := hn
  rw [List.length_append, List.length_singleton] at hl
  by_cases h3 : q.length = 3
  · exact Or.inr ⟨q, j, rfl, h3, hne, rfl⟩
  · refine Or.inl ⟨by rw [List.length_append, List.length_singleton]; omega, ?_⟩
    exact h.tables_of_entry hs (by omega) hne

/-- Different entries of the slot name different frames. -/
theorem UserSpace.nodeAt_inj {p p' : List Nat} (h : UserSpace slot vm) (hs : InSlot slot p)
    (hl : p.length ≤ 4) (hs' : InSlot slot p') (hl' : p'.length ≤ 4) (hn : NodeAt vm p a)
    (hn' : NodeAt vm p' a) : p = p' := by
  rcases h.nodeAt_cases hs hl hn with ⟨h3, ht⟩ | ⟨q, j, rfl, h3, hne, haddr⟩ <;>
    rcases h.nodeAt_cases hs' hl' hn' with ⟨h3', ht'⟩ | ⟨q', j', rfl, h3', hne', haddr'⟩
  · exact h.tree.distinct p p' a hs h3 hs' h3' ht ht'
  · exact (h.leafNotTable q' j' p hs' h3' hne' hs h3 (haddr' ▸ ht)).elim
  · exact (h.leafNotTable q j p' hs h3 hne hs' h3' (haddr ▸ ht')).elim
  · obtain ⟨rfl, rfl⟩ := h.leafDistinct q j q' j' hs h3 hne hs' h3' hne' (haddr.trans haddr'.symm)
    rfl

theorem UserSpace.nodeAt_busy {p : List Nat} (h : UserSpace slot vm) (hs : InSlot slot p)
    (hl : p.length ≤ 4) (hn : NodeAt vm p a) : Busy vm.frames a := by
  rcases h.nodeAt_cases hs hl hn with ⟨h3, ht⟩ | ⟨q, j, rfl, h3, hne, rfl⟩
  · exact h.tree.owned p a hs h3 ht
  · exact h.leafBusy q j hs h3 hne

/-- The root holds the slot and is none of its frames. -/
theorem UserSpace.nodeAt_ne_root {p : List Nat} (h : UserSpace slot vm) (hs : InSlot slot p)
    (hl : p.length ≤ 4) (hn : NodeAt vm p a) : vm.tables [] ≠ some a := by
  intro hroot
  rcases h.nodeAt_cases hs hl hn with ⟨h3, ht⟩ | ⟨q, j, rfl, h3, hne, rfl⟩
  · have := h.tree.distinct p [] a hs h3 ⟨by simp, by simp⟩ (by simp) ht hroot
    obtain ⟨q, j, rfl, -⟩ := hn
    simp at this
  · exact h.leafNotTable q j [] hs h3 hne ⟨by simp, by simp⟩ (by simp) hroot

theorem InSlot.snoc {p : List Nat} (h : InSlot slot p) (hp : p ≠ []) (hk : k < 512) :
    InSlot slot (p ++ [k]) := by
  refine ⟨fun i hi => ?_, fun i hi => h.2 i ?_⟩
  · rcases List.mem_append.mp hi with hi | hi
    · exact h.1 i hi
    · rwa [List.mem_singleton.mp hi]
  · rwa [List.head?_append_of_ne_nil _ hp] at hi

theorem mem_subFrames_zero :
    a ∈ subFrames vm.mem 0 (vm.entryOf q j) ↔ NodeAt vm (q ++ [j]) a := by
  rw [nodeAt_snoc, subFrames]
  split
  next h0 => simp [h0]
  next hne => simp [hne, eq_comm]

/-- The frames below an entry are those below the entries of its table and the table. -/
theorem UserSpace.subFrames_eq (h : UserSpace slot vm) (hs : InSlot slot (q ++ [j]))
    (hl : q.length ≤ 2) (l : Nat) : subFrames vm.mem (l + 1) (vm.entryOf q j) =
      (List.range 512).flatMap (fun k => subFrames vm.mem l (vm.entryOf (q ++ [j]) k)) ++
        subFrames vm.mem 0 (vm.entryOf q j) := by
  by_cases hne : vm.entryOf q j = 0#64
  · have hnone : vm.tables (q ++ [j]) = none := by rw [tables_snoc, hne, nextTable_zero]
    simp [hne, entryOf_none hnone, subFrames_zero]
  · simp only [entryOf_eq (h.tables_of_entry hs hl hne), subFrames, if_neg hne]

/-- The frames listed below an entry are those that the entries on the paths through it name. -/
theorem UserSpace.mem_subFrames (h : UserSpace slot vm) {l : Nat} (hs : InSlot slot (q ++ [j]))
    (hl : q.length + l = 3) : a ∈ subFrames vm.mem l (vm.entryOf q j) ↔
      ∃ r, InSlot slot (q ++ [j] ++ r) ∧ r.length ≤ l ∧ NodeAt vm (q ++ [j] ++ r) a := by
  induction l generalizing q j with
  | zero =>
    rw [mem_subFrames_zero]
    constructor
    · intro hn
      exact ⟨[], by simpa using hs, by simp, by simpa using hn⟩
    · rintro ⟨r, -, hr, hn⟩
      obtain rfl : r = [] := List.length_eq_zero_iff.mp (by omega)
      simpa using hn
  | succ l ih =>
    have hchild := fun k (hk : k < 512) => ih (hs.snoc (by simp) hk) (by simp; omega)
    rw [h.subFrames_eq hs (by omega), List.mem_append, List.mem_flatMap, mem_subFrames_zero]
    constructor
    · rintro (⟨k, hk, ha⟩ | hn)
      · obtain ⟨r, hr, hrl, hn⟩ := (hchild k (List.mem_range.mp hk)).mp ha
        exact ⟨k :: r, by simpa using hr, by simpa using hrl, by simpa using hn⟩
      · exact ⟨[], by simpa using hs, by simp, by simpa using hn⟩
    · rintro ⟨r, hr, hrl, hn⟩
      cases r with
      | nil => exact Or.inr (by simpa using hn)
      | cons k r =>
        have hk : k < 512 := hr.1 k (by simp)
        exact Or.inl ⟨k, List.mem_range.mpr hk, (hchild k hk).mpr
          ⟨r, by simpa using hr, by simpa using hrl, by simpa using hn⟩⟩

theorem UserSpace.nodup_subFrames (h : UserSpace slot vm) {l : Nat} (hs : InSlot slot (q ++ [j]))
    (hl : q.length + l = 3) : (subFrames vm.mem l (vm.entryOf q j)).Nodup := by
  induction l generalizing q j with
  | zero =>
    unfold subFrames
    split <;> simp
  | succ l ih =>
    have hchild : ∀ k < 512, InSlot slot (q ++ [j] ++ [k]) := fun k hk => hs.snoc (by simp) hk
    have hmem := fun k hk f => (h.mem_subFrames (a := f) (l := l) (hchild k hk) (by simp; omega)).mp
    rw [h.subFrames_eq hs (by omega)]
    refine List.nodup_append.mpr ⟨List.nodup_flatMap.mpr ⟨?_, ?_⟩, ?_, ?_⟩
    · intro k hk
      exact ih (hchild k (List.mem_range.mp hk)) (by simp; omega)
    · -- Frames below different entries lie on different paths.
      refine List.pairwise_iff_getElem.mpr (fun k k' hk hk' hlt => ?_)
      rw [List.getElem_range, List.getElem_range]
      intro f hf hf'
      obtain ⟨r, hr, hrl, hn⟩ := hmem k (by simpa using hk) f hf
      obtain ⟨r', hr', hrl', hn'⟩ := hmem k' (by simpa using hk') f hf'
      have heq := h.nodeAt_inj hr (by simp; omega) hr' (by simp; omega) hn hn'
      simp at heq
      omega
    · unfold subFrames
      split <;> simp
    · rintro f hf _ hf' rfl
      obtain ⟨k, hk, hf⟩ := List.mem_flatMap.mp hf
      obtain ⟨r, hr, hrl, hn⟩ := hmem k (List.mem_range.mp hk) f hf
      have heq := h.nodeAt_inj hr (by simp; omega) hs (by simp; omega) hn
        (mem_subFrames_zero.mp hf')
      simp at heq

/-! ## Destroying the slot -/

/-- The pages mapped under the slot hold only zeroes. -/
def PagesZero (slot : Nat) (vm : VirtualMemory) : Prop :=
  ∀ a, SlotPage slot vm a → ∀ x, a ≤ x → x < a + kPageSize → vm.mem x = 0#8

/-- The frames are given back one after the other, and each call succeeds. -/
def ReleasedEach : PageFrameContainer → List Nat → PageFrameContainer → Prop
  | f, [], f' => f' = f
  | f, a :: F, f' => (f.free a).1 = true ∧ ReleasedEach (f.free a).2 F f'

/-- Destruction gives back the frames of the slot, each once, and nothing else; it writes only to
the tables of the slot and to the slot's entry of the root. -/
structure CleanDestroy (slot : Nat) (vm vm' : VirtualMemory) : Prop where
  freed : ∃ F : List Nat, F.Nodup ∧ (∀ a, a ∈ F ↔ SlotTable slot vm a ∨ SlotPage slot vm a) ∧
    ReleasedEach vm.frames F vm'.frames
  others : ∀ n, vm'.frames.isFree n ≠ vm.frames.isFree n →
    SlotTable slot vm (n * kPageSize) ∨ SlotPage slot vm (n * kPageSize)
  wrote : ∀ x, vm'.mem x ≠ vm.mem x → (∃ a, SlotTable slot vm a ∧ a ≤ x ∧ x < a + kPageSize) ∨
    (vm.root.toNat + 8 * slot ≤ x ∧ x < vm.root.toNat + 8 * slot + 8)

theorem frame_shiftRight (n : Nat) : (n * kPageSize) >>> 12 = n := by
  rw [Nat.shiftRight_eq_div_pow]
  exact Nat.mul_div_cancel n (by decide)

theorem frees_of_busy {f : PageFrameContainer} (hi : f.initialized = true) (hb : Busy f a) :
    Frees f a := by
  obtain ⟨n, hn, rfl, hf⟩ := hb
  exact ⟨hi, Nat.mul_mod_left n _, by rw [frame_shiftRight]; exact hn,
    by rw [frame_shiftRight]; exact hf⟩

theorem Busy.of_other_free {f : PageFrameContainer} {b : Nat} (ht : f.Tracked) (hb : Busy f b)
    (ha : Busy f a) (hne : b ≠ a) : Busy (f.free a).2 b := by
  obtain ⟨n, hn, rfl, hf⟩ := hb
  obtain ⟨m, -, rfl, -⟩ := ha
  refine ⟨n, by rw [(free_spec ht _).2.pageCount]; exact hn, rfl, ?_⟩
  by_contra hfree
  rcases (isFree_free f _ n).mp (by simpa using hfree) with hfree | ⟨-, hshift⟩
  · rw [hf] at hfree
    exact absurd hfree (by simp)
  · rw [frame_shiftRight] at hshift
    exact hne (by rw [hshift])

theorem releasedEach_foldl {f : PageFrameContainer} {F : List Nat} (ht : f.Tracked)
    (hi : f.initialized = true) (hnd : F.Nodup) (hb : ∀ a ∈ F, Busy f a) :
    ReleasedEach f F (F.foldl release f) ∧
      ∀ n, (F.foldl release f).isFree n = true → f.isFree n = true ∨ n * kPageSize ∈ F := by
  induction F generalizing f with
  | nil => exact ⟨rfl, fun n hn => Or.inl hn⟩
  | cons a F ih =>
    obtain ⟨ha, hnd⟩ := List.nodup_cons.mp hnd
    have hba := hb a (by simp)
    obtain ⟨hspec, hshape⟩ := free_spec ht a
    obtain ⟨h1, h2⟩ := ih hspec (by rw [hshape.initialized]; exact hi) hnd (fun b hmem =>
      (hb b (List.mem_cons_of_mem _ hmem)).of_other_free ht hba (fun heq => ha (heq ▸ hmem)))
    refine ⟨⟨(free_fst f a).mpr (frees_of_busy hi hba), h1⟩, fun n hn => ?_⟩
    rcases h2 n hn with hn | hn
    · rcases (isFree_free f a n).mp hn with hn | ⟨-, rfl⟩
      · exact Or.inl hn
      · obtain ⟨m, -, rfl, -⟩ := hba
        refine Or.inr ?_
        rw [frame_shiftRight]
        exact List.mem_cons_self
    · exact Or.inr (List.mem_cons_of_mem _ hn)

theorem isFree_foldl_release {f : PageFrameContainer} (F : List Nat) (hn : f.isFree n = true) :
    (F.foldl release f).isFree n = true := by
  induction F generalizing f with
  | nil => exact hn
  | cons a F ih => exact ih ((isFree_free f a n).mpr (Or.inl hn))

/-- Pages that hold only zeroes name no frame. -/
theorem UserSpace.subFrames_of_zero (h : UserSpace slot vm) (hz : PagesZero slot vm) {l : Nat}
    (hs : InSlot slot (q ++ [j])) (hl : q.length + l = 3) :
    subFrames vm.mem (l + 1) (vm.entryOf q j) = subFrames vm.mem l (vm.entryOf q j) := by
  induction l generalizing q j with
  | zero =>
    by_cases hne : vm.entryOf q j = 0#64
    · rw [hne, subFrames_zero, subFrames_zero]
    rw [subFrames_succ hne, subFrames, if_neg hne, List.append_left_eq_self,
      List.flatMap_eq_nil_iff]
    intro k hk
    have hk := List.mem_range.mp hk
    rw [Memory.load64_of_zero, subFrames_zero]
    intro x h1 h2
    refine hz (entryAddress (vm.entryOf q j)) ⟨q ++ [j], hs, by simp; omega, ?_⟩ x (by omega)
      (by unfold kPageSize; omega)
    exact nodeAt_snoc.mpr ⟨hne, rfl⟩
  | succ l ih =>
    rw [h.subFrames_eq hs (by omega), h.subFrames_eq hs (by omega), List.flatMap_congr]
    intro k hk
    exact ih (hs.snoc (by simp) (List.mem_range.mp hk)) (by simp; omega)

/-- The frames of the slot in the order of destruction. -/
def slotFrames (slot : Nat) (vm : VirtualMemory) : List Nat :=
  subFrames vm.mem 3 (vm.entryOf [] slot)

/-- A page mapped under the slot shares no byte with its tables or with the root. -/
theorem UserSpace.slotPage_apart {b x : Nat} (h : UserSpace slot vm) (ha : SlotPage slot vm a)
    (h1 : a ≤ x) (h2 : x < a + kPageSize) :
    (SlotTable slot vm b → ¬ (b ≤ x ∧ x < b + kPageSize)) ∧
      (vm.tables [] = some b → ¬ (b ≤ x ∧ x < b + kPageSize)) := by
  obtain ⟨p, hs, hl, hn⟩ := ha
  have hbusy := h.nodeAt_busy hs (by omega) hn
  refine ⟨?_, fun hroot hx => ?_⟩
  · rintro ⟨p', hs', hl', hn'⟩ hx
    have hne : b ≠ a := by
      rintro rfl
      have := congrArg List.length (h.nodeAt_inj hs (by omega) hs' (by omega) hn hn')
      omega
    have := (h.nodeAt_busy hs' (by omega) hn').apart hbusy hne
    omega
  · have hne : b ≠ a := fun heq => h.nodeAt_ne_root hs (by omega) hn (heq ▸ hroot)
    have := (h.tree.owned [] b ⟨by simp, by simp⟩ (by simp) hroot).apart hbusy hne
    omega

theorem UserSpace.slotPage_not_inTable {x : Nat} (h : UserSpace slot vm) (ha : SlotPage slot vm a)
    (h1 : a ≤ x) (h2 : x < a + kPageSize) : ¬ InTable (· = slot) 3 vm x := by
  rintro ⟨q, g, hs, hl, hg, hx⟩
  obtain ⟨ptable, proot⟩ := h.slotPage_apart (b := g) ha h1 h2
  by_cases hq : q = []
  · exact proot (hq ▸ hg) hx
  · obtain ⟨q', j, rfl⟩ := List.eq_nil_or_concat' q |>.resolve_left hq
    refine ptable ⟨_, hs, hl, nodeAt_snoc.mpr ?_⟩ hx
    rw [tables_snoc, nextTable] at hg
    split at hg
    · rename_i ht
      exact ⟨(isTableEntry_iff.mp ht).1, Option.some.inj hg⟩
    · exact absurd hg (by simp)

theorem inSlot_root (hslot : slot < 512) : InSlot slot ([] ++ [slot]) := by
  refine ⟨fun i hi => ?_, fun i hi => ?_⟩
  · rwa [List.mem_singleton.mp hi]
  · exact (Option.some.inj hi).symm

section Destroy

variable (h : UserSpace slot vm) (hslot : slot < 512)
include h hslot

theorem UserSpace.mem_slotFrames :
    a ∈ slotFrames slot vm ↔ SlotTable slot vm a ∨ SlotPage slot vm a := by
  rw [slotFrames, h.mem_subFrames (inSlot_root hslot) rfl]
  constructor
  · rintro ⟨r, hr, hl, hn⟩
    by_cases h3 : r.length = 3
    · exact Or.inr ⟨_, hr, by simp [h3], hn⟩
    · exact Or.inl ⟨_, hr, by simp; omega, hn⟩
  · intro hp
    obtain ⟨p, hs, hl, hn⟩ : ∃ p, InSlot slot p ∧ p.length ≤ 4 ∧ NodeAt vm p a := by
      rcases hp with ⟨p, hs, hl, hn⟩ | ⟨p, hs, hl, hn⟩
      · exact ⟨p, hs, by omega, hn⟩
      · exact ⟨p, hs, by omega, hn⟩
    cases p with
    | nil =>
      obtain ⟨q, j, heq, -⟩ := hn
      simp at heq
    | cons i r =>
      obtain rfl : i = slot := hs.2 i rfl
      rw [List.length_cons] at hl
      exact ⟨r, hs, by omega, hn⟩

theorem UserSpace.slotFrames_busy : ∀ a ∈ slotFrames slot vm, Busy vm.frames a := by
  intro a ha
  rcases (h.mem_slotFrames hslot).mp ha with ⟨p, hs, hl, hn⟩ | ⟨p, hs, hl, hn⟩
  · exact h.nodeAt_busy hs (by omega) hn
  · exact h.nodeAt_busy hs (by omega) hn

theorem UserSpace.slotFrames_ne_root : ∀ a ∈ slotFrames slot vm, vm.tables [] ≠ some a := by
  intro a ha
  rcases (h.mem_slotFrames hslot).mp ha with ⟨p, hs, hl, hn⟩ | ⟨p, hs, hl, hn⟩
  · exact h.nodeAt_ne_root hs (by omega) hn
  · exact h.nodeAt_ne_root hs (by omega) hn

/-- The frames of the slot are distinct pages away from the slot's entry of the root. -/
theorem UserSpace.separated_slotFrames (hi : vm.initialized = true) :
    Separated (slotFrames slot vm) (vm.root.toNat + 8 * slot) := by
  have hroot := tables_root hi
  have hbusy := h.slotFrames_busy hslot
  refine ⟨h.nodup_subFrames (inSlot_root hslot) rfl,
    fun f hf => ((hbusy f hf).bounds h.tree.tracked.bounded).1, ?_⟩
  rintro x h1 h2 ⟨f, hf, hfx⟩
  have hne : vm.root.toNat ≠ f := fun heq => h.slotFrames_ne_root hslot f hf (heq ▸ hroot)
  have hsep := (h.tree.owned [] _ ⟨by simp, by simp⟩ (by simp) hroot).apart (hbusy f hf) hne
  unfold kPageSize at *
  omega

/-- What `destroy_user_slot` does, whatever the mapped pages hold. -/
theorem UserSpace.destroyUserSlot_destroys :
    Destroys (subFrames vm.mem 4 (vm.entryOf [] slot))
      (fun x => (vm.initialized = true ∧ vm.root.toNat + 8 * slot ≤ x ∧
        x < vm.root.toNat + 8 * slot + 8) ∨ InPages (slotFrames slot vm) x)
      vm (vm.destroyUserSlot slot).2 := by
  unfold destroyUserSlot
  by_cases hi : vm.initialized = true
  swap
  · rw [if_pos (by simp [hi]), slotFrames, entryOf_none (tables_of_not_initialized hi []),
      subFrames_zero, subFrames_zero]
    refine Destroys.refl fun x hx => ?_
    rcases hx with hx | hx
    · exact (hi hx.1).elim
    · exact (inPages_nil hx).elim
  · have hentry : vm.mem.load64 (vm.root.toNat + 8 * slot) = vm.entryOf [] slot :=
      (entryOf_eq (tables_root hi)).symm
    have hspec := tableSpec 3 vm (vm.root.toNat + 8 * slot)
    rw [hentry] at hspec
    have hd := hspec (h.separated_slotFrames hslot hi)
    rw [if_neg (by simp [hi]; omega)]
    refine ⟨hd.mem.congr (fun x => ?_), hd.frames, hd.root, hd.initialized⟩
    rw [and_iff_right hi]
    rfl

theorem UserSpace.cleanDestroy_of_zero (hz : PagesZero slot vm) :
    CleanDestroy slot vm (vm.destroyUserSlot slot).2 := by
  have hd := h.destroyUserSlot_destroys hslot
  have hmem := @UserSpace.mem_slotFrames slot vm
  obtain ⟨hreleased, honly⟩ := releasedEach_foldl h.tree.tracked h.ready
    (h.nodup_subFrames (inSlot_root hslot) rfl) (h.slotFrames_busy hslot)
  have hframes : (vm.destroyUserSlot slot).2.frames =
      (slotFrames slot vm).foldl release vm.frames := by
    rw [hd.frames, h.subFrames_of_zero hz (inSlot_root hslot) rfl, slotFrames]
  refine ⟨⟨slotFrames slot vm, h.nodup_subFrames (inSlot_root hslot) rfl,
    fun a => hmem h hslot, hframes ▸ hreleased⟩, fun n hn => ?_, fun x hx => ?_⟩
  · apply (hmem h hslot).mp
    rw [hframes] at hn
    by_cases hf : vm.frames.isFree n = true
    · rw [isFree_foldl_release (slotFrames slot vm) hf, hf] at hn
      exact (hn rfl).elim
    · refine (honly n ?_).resolve_left hf
      rw [Bool.not_eq_true] at hf
      rw [hf, Bool.ne_false_iff] at hn
      exact hn
  · by_cases hR : (vm.initialized = true ∧ vm.root.toNat + 8 * slot ≤ x ∧
        x < vm.root.toNat + 8 * slot + 8) ∨ InPages (slotFrames slot vm) x
    · rcases hR with hR | ⟨a, ha, h1, h2⟩
      · exact Or.inr hR.2
      · rcases (hmem h hslot).mp ha with ha | ha
        · exact Or.inl ⟨a, ha, h1, h2⟩
        · -- A zero page is cleared, which changes nothing.
          rw [hd.mem.zero x (Or.inr ⟨a, (hmem h hslot).mpr (Or.inr ha), h1, h2⟩), hz a ha x h1 h2]
            at hx
          exact (hx rfl).elim
    · exact (hx (hd.mem.keep x hR)).elim

theorem UserSpace.zero_of_cleanDestroy (hc : CleanDestroy slot vm (vm.destroyUserSlot slot).2) :
    PagesZero slot vm := by
  intro a ha x h1 h2
  by_contra hne
  have hd := h.destroyUserSlot_destroys hslot
  have hzero := hd.mem.zero x (Or.inr ⟨a, (h.mem_slotFrames hslot).mpr (Or.inr ha), h1, h2⟩)
  have hinit : vm.initialized = true := by
    by_contra hi
    obtain ⟨p, -, -, q, j, -, hq, -⟩ := ha
    exact hq (entryOf_none (tables_of_not_initialized hi q))
  have hroot := tables_root hinit
  rcases hc.wrote x (by rw [hzero]; exact fun heq => hne heq.symm) with ⟨b, hb, hx⟩ | hx
  · exact (h.slotPage_apart ha h1 h2).1 hb hx
  · refine (h.slotPage_apart ha h1 h2).2 hroot ?_
    unfold kPageSize
    omega

end Destroy

/-- `m` differs from the memory only inside pages mapped under the slot. -/
def WritesPages (slot : Nat) (vm : VirtualMemory) (m : Memory) : Prop :=
  ∀ x, m x ≠ vm.mem x → ∃ a, SlotPage slot vm a ∧ a ≤ x ∧ x < a + kPageSize

/-- Writes to mapped pages leave the bytes of the tables. -/
theorem UserSpace.writesPages_keep {m : Memory} (h : UserSpace slot vm)
    (hm : WritesPages slot vm m) : ∀ x, InTable (· = slot) 3 vm x → m x = vm.mem x := by
  intro x hx
  by_contra hne
  obtain ⟨a, ha, ha1, ha2⟩ := hm x hne
  exact h.slotPage_not_inTable ha ha1 ha2 hx

theorem UserSpace.writesPages_same {m : Memory} (h : UserSpace slot vm)
    (hm : WritesPages slot vm m) :
    (∀ q, InSlot slot q → q.length ≤ 3 → { vm with mem := m }.tables q = vm.tables q) ∧
      ∀ q j, InSlot slot (q ++ [j]) → q.length ≤ 3 →
        { vm with mem := m }.entryOf q j = vm.entryOf q j :=
  same_of_mem vm { vm with mem := m } rfl rfl (h.writesPages_keep hm)

theorem UserSpace.of_writesPages {m : Memory} (h : UserSpace slot vm)
    (hm : WritesPages slot vm m) : UserSpace slot { vm with mem := m } := by
  obtain ⟨htables, hentry⟩ := h.writesPages_same hm
  exact h.of_same (h.tree.of_same h.tree.tracked htables hentry h.tree.owned) h.ready htables hentry
    (fun _ hb => hb)

/-! ## Pages that nothing wrote to -/

theorem slotPage_iff : SlotPage slot vm a ↔ ∃ q j, InSlot slot (q ++ [j]) ∧ q.length = 3 ∧
    vm.entryOf q j ≠ 0#64 ∧ entryAddress (vm.entryOf q j) = a := by
  constructor
  · rintro ⟨_, hs, hl, q, j, rfl, hn⟩
    exact ⟨q, j, hs, by simpa using hl, hn⟩
  · rintro ⟨q, j, hs, hl, hn⟩
    exact ⟨q ++ [j], hs, by simp [hl], nodeAt_snoc.mpr hn⟩

theorem slotPage_congr (h : ∀ q j, InSlot slot (q ++ [j]) → q.length = 3 →
    vm'.entryOf q j = vm.entryOf q j) : SlotPage slot vm' a ↔ SlotPage slot vm a := by
  rw [slotPage_iff, slotPage_iff]
  constructor
  · rintro ⟨q, j, hs, hl, hn⟩
    exact ⟨q, j, hs, hl, h q j hs hl ▸ hn⟩
  · rintro ⟨q, j, hs, hl, hn⟩
    exact ⟨q, j, hs, hl, (h q j hs hl).symm ▸ hn⟩

/-- The page at `a` holds only zeroes. -/
def ZeroPage (m : Memory) (a : Nat) : Prop := ∀ x, a ≤ x → x < a + kPageSize → m x = 0#8

theorem PagesZero.grow (hz : PagesZero slot vm) (h' : UserSpace slot vm')
    (hg : Grows (· = slot) 3 vm vm') : PagesZero slot vm' := by
  intro a ha x h1 h2
  by_contra hne
  have ha' := (slotPage_congr (fun q j => hg.leaf)).mp ha
  refine h'.slotPage_not_inTable ha h1 h2 (hg.wrote x ?_)
  rw [hz a ha' x h1 h2]
  exact hne

/-- A ready frame shares no byte with the tables. -/
theorem FrameReady.not_inTable {x : Nat} (h : UserSpace slot vm) (hr : FrameReady slot vm a)
    (h1 : a ≤ x) (h2 : x < a + kPageSize) : ¬ InTable (· = slot) 3 vm x := by
  rintro ⟨q, g, hs, hl, hg, hx⟩
  have hne : g ≠ a := fun heq => hr.notTable q hs hl (heq ▸ hg)
  have := (h.tree.owned q g hs hl hg).apart hr.busy hne
  omega

/-- Everything is zero that is mapped, and so is the frame that is mapped next. -/
def Clean (slot : Nat) (vm : VirtualMemory) (a : Nat) : Prop :=
  UserSpace slot vm ∧ PagesZero slot vm ∧ FrameReady slot vm a ∧ ZeroPage vm.mem a

theorem Clean.grow (h : Clean slot vm a) (ht : Tree (· = slot) vm')
    (hg : Grows (· = slot) 3 vm vm') : Clean slot vm' a := by
  obtain ⟨hu, hz, hr, ha⟩ := h
  refine ⟨hu.grow ht hg, hz.grow (hu.grow ht hg) hg, hr.grow hg, fun x h1 h2 => ?_⟩
  by_contra hne
  refine FrameReady.not_inTable (hu.grow ht hg) (hr.grow hg) h1 h2 (hg.wrote x ?_)
  rw [ha x h1 h2]
  exact hne

theorem Clean.zeroFrame (h : UserSpace slot vm) (hz : PagesZero slot vm)
    (hn : n < vm.frames.pageCount) (hf : vm.frames.isFree n = true) :
    Clean slot (vm.zeroFrame n) (n * kPageSize) := by
  obtain ⟨hu, hr⟩ := h.zeroFrame hn hf
  refine ⟨hu, fun a ha x h1 h2 => ?_, hr, fun x h1 h2 => Memory.fill_apply_of_mem ⟨h1, h2⟩⟩
  by_cases hx : n * kPageSize ≤ x ∧ x < n * kPageSize + kPageSize
  · exact Memory.fill_apply_of_mem hx
  · refine (Memory.fill_apply_of_not_mem hx).trans ?_
    exact hz a ((slotPage_congr (fun q j hs hl =>
      (h.tree.zeroFrame_same hf).2 q j hs (by omega))).mp ha) x h1 h2

theorem Clean.setLeaf (h : Clean slot vm (entryAddress e)) (hs : pageIndex va 39 = slot)
    (hg : vm.tables (leafPath va) = some g) : PagesZero slot (vm.setLeaf g va e) := by
  obtain ⟨hu, hz, hr, hzero⟩ := h
  have hentry : ∀ q j, InSlot slot (q ++ [j]) → q.length ≤ 3 → (vm.setLeaf g va e).entryOf q j =
      if q = leafPath va ∧ j = pageIndex va 12 then e else vm.entryOf q j :=
    fun q j hq hl => entryOf_setLeaf hu.tree hs hg hq hl
  have hkeep : ∀ x, ¬ InTable (· = slot) 3 vm x → (vm.setLeaf g va e).mem x = vm.mem x := by
    intro x hx
    refine Memory.store64_apply_of_not_mem (fun hmem => hx ?_)
    have hlt := pageIndex_lt va 12
    refine ⟨leafPath va, g, (leafPath_inSlots va hs hlt).of_append, by simp [leafPath], hg, ?_, ?_⟩
    · omega
    · unfold kPageSize
      omega
  intro a ha x h1 h2
  obtain ⟨q, j, hq, hl, hne, haddr⟩ := slotPage_iff.mp ha
  rw [hentry q j hq (by omega)] at hne haddr
  split at hne <;> rename_i hc
  · rw [if_pos hc] at haddr
    subst haddr
    rw [hkeep x (hr.not_inTable hu h1 h2)]
    exact hzero x h1 h2
  · rw [if_neg hc] at haddr
    have ha' : SlotPage slot vm a := slotPage_iff.mpr ⟨q, j, hq, hl, hne, haddr⟩
    rw [hkeep x (hu.slotPage_not_inTable ha' h1 h2)]
    exact hz a ha' x h1 h2

/-- The pages that `allocate_and_map` maps are zero. -/
theorem UserSpace.allocateAndMap_pagesZero {n : BitVec 64} (h : UserSpace slot vm)
    (hz : PagesZero slot vm) (hslot : ∀ i < n.toNat, pageIndex (pageAt va i) 39 = slot) :
    PagesZero slot (vm.allocateAndMap va n flags).2 := by
  rw [VirtualMemory.allocateAndMap]
  split
  · exact hz
  rename_i hr
  have haligned : va &&& kPageOffsetMask = 0#64 := by
    by_contra hne
    exact hr (Or.inr hne)
  have hinv : ∀ m, LoopInv (· = slot) (Grows (· = slot) 3) va n.toNat
      (fun _ s => Clean slot s (m * kPageSize)) := fun m =>
    ⟨hslot, fun i s hi _ hs => hs.1.noLargePage (hslot i hi),
      fun i s s' hs _ hts' hg => hs.grow hts' hg⟩
  obtain ⟨-, k, -, hI, -⟩ := allocatePages_rule
    (I := fun _ s => UserSpace slot s ∧ PagesZero slot s)
    (J := fun _ m s => Clean slot s (m * kPageSize)) walksTo_grows haligned hinv
    (fun i s m _ _ hs hm hf => Clean.zeroFrame hs.1 hs.2 hm hf) (fun i s m hs => ⟨hs.1, hs.2.1⟩)
    (fun i s m g hi hm _ hs hg => by
      have haddr := entryAddress_frameWord flags hm
      rw [← haddr] at hs
      exact ⟨hs.1.setLeaf (hslot i hi) hg hs.2.2.1, hs.setLeaf (hslot i hi) hg⟩)
    n.toNat 0 0 (Nat.zero_add _) h.tree ⟨h, hz⟩ (Prod.mk.eta).symm
  exact hI.2

/-! ## Destroying a space that was built -/

/-- A user slot is destroyed cleanly exactly when the pages mapped under it hold only zeroes:
`destroy_table` takes the words of a leaf page for entries. -/
theorem destroy_clean_iff_zero (slot : Nat) (hslot : slot < 512) (vm : VirtualMemory)
    (hfresh : vm.initialized = false) (hframes : vm.frames.Tracked)
    (hready : vm.frames.initialized = true) (ops : List BuildOp)
    (hlegal : Along BuildOp.exec (BuildOp.Legal slot) vm ops) (m : Memory)
    (hm : WritesPages slot (build vm ops) m) :
    CleanDestroy slot { build vm ops with mem := m }
        (destroyUserSlot { build vm ops with mem := m } slot).2 ↔
      PagesZero slot { build vm ops with mem := m } := by
  have h := (build_userSpace (userSpace_fresh hfresh hframes hready) hlegal).of_writesPages hm
  exact ⟨h.zero_of_cleanDestroy hslot, h.cleanDestroy_of_zero hslot⟩

/-- One page of a new address space, mapped at the first address of slot 1. -/
def onePage : List BuildOp := [.allocateAndMap 0x8000000000#64 1#64 ⟨true, true, true, true⟩]

theorem onePage_legal : Along BuildOp.exec (BuildOp.Legal 1) bootedSpace onePage := by
  refine ⟨fun i hi => ?_, trivial⟩
  obtain rfl : i = 0 := by simpa using hi
  decide

theorem bootedSpace_userSpace : UserSpace 1 bootedSpace :=
  userSpace_fresh rfl bootedFrames_tracked rfl

theorem bootedSpace_pagesZero : PagesZero 1 bootedSpace := fun _ _ _ _ _ => rfl

theorem onePage_pagesZero : PagesZero 1 (build bootedSpace onePage) := by
  rw [build, onePage, List.foldl_cons, List.foldl_nil, BuildOp.exec]
  exact bootedSpace_userSpace.allocateAndMap_pagesZero bootedSpace_pagesZero onePage_legal.1

theorem destroy_clean_iff_zero_untouched :
    CleanDestroy 1 { build bootedSpace onePage with mem := (build bootedSpace onePage).mem }
      (destroyUserSlot
        { build bootedSpace onePage with mem := (build bootedSpace onePage).mem } 1).2 := by
  apply (destroy_clean_iff_zero 1 (by decide) bootedSpace rfl bootedFrames_tracked rfl onePage
    onePage_legal (build bootedSpace onePage).mem (fun _ hx => (hx rfl).elim)).mpr
  have hz := onePage_pagesZero
  generalize build bootedSpace onePage = vm at hz ⊢
  exact hz

/-- The program stores a word into its page that reads as an entry for the root frame. -/
def writtenPage : Memory := (build bootedSpace onePage).mem.store64 0x200000 0x201003#64

theorem onePage_slotPage : SlotPage 1 (build bootedSpace onePage) 0x200000 := by
  refine ⟨[1, 0, 0] ++ [0], ⟨by decide, by decide⟩, rfl, nodeAt_snoc.mpr ?_⟩
  decide +kernel

theorem writtenPage_writesPages : WritesPages 1 (build bootedSpace onePage) writtenPage := by
  intro x hx
  refine ⟨0x200000, onePage_slotPage, ?_⟩
  by_contra hout
  refine hx (Memory.store64_apply_of_not_mem (fun hmem => hout ?_))
  unfold kPageSize
  omega

/-- Destruction also takes the content of the page for entries and overwrites it. -/
theorem destroy_overwrites_user_page :
    Along BuildOp.exec (BuildOp.Legal 1) bootedSpace onePage ∧
      WritesPages 1 (build bootedSpace onePage) writtenPage ∧
      ¬ CleanDestroy 1 { build bootedSpace onePage with mem := writtenPage }
        (destroyUserSlot { build bootedSpace onePage with mem := writtenPage } 1).2 := by
  refine ⟨onePage_legal, writtenPage_writesPages, fun hc => ?_⟩
  have hspace := (build_userSpace bootedSpace_userSpace onePage_legal).of_writesPages
    writtenPage_writesPages
  have hpage : SlotPage 1 { build bootedSpace onePage with mem := writtenPage } 0x200000 := by
    refine ⟨[1, 0, 0] ++ [0], ⟨by decide, by decide⟩, rfl, nodeAt_snoc.mpr ?_⟩
    decide +kernel
  have hzero := hspace.zero_of_cleanDestroy (by decide) hc 0x200000 hpage 0x200000 (le_refl _)
    (by decide)
  exact absurd hzero (by decide +kernel)

end Os1.VirtualMemory
