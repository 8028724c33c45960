import Os1.Mm.UserWrite

/-! The operations do not depend on what free frames hold. -/
namespace Os1.VirtualMemory

open PageFrameContainer

variable {slot : Nat} {vm vm' : VirtualMemory} {va e : BitVec 64} {g j n : Nat}
  {flags : PageFlags}

/-- Memories that agree outside the free frames. -/
def AgreeBusy (f : PageFrameContainer) (m m' : Memory) : Prop :=
  ∀ x, f.isFree (x / kPageSize) = false → m' x = m x

/-- Two address spaces that differ in the contents of free frames only. -/
structure SameBusy (vm vm' : VirtualMemory) : Prop where
  frames : vm'.frames = vm.frames
  root : vm'.root = vm.root
  initialized : vm'.initialized = vm.initialized
  mem : AgreeBusy vm.frames vm.mem vm'.mem

theorem AgreeBusy.load64 {f : PageFrameContainer} {m m' : Memory} (h : AgreeBusy f m m')
    (hg : Busy f g) (hj : j < 512) : m'.load64 (g + 8 * j) = m.load64 (g + 8 * j) := by
  obtain ⟨k, -, rfl, hk⟩ := hg
  refine Memory.load64_congr fun x h1 h2 => h x ?_
  have hx : x / kPageSize = k := by
    unfold kPageSize at *
    omega
  rw [hx, hk]

theorem AgreeBusy.fill {f : PageFrameContainer} {m m' : Memory} (h : AgreeBusy f m m') (n : Nat) :
    AgreeBusy (f.take n) (m.fill (n * kPageSize) kPageSize 0#8)
      (m'.fill (n * kPageSize) kPageSize 0#8) := by
  intro x hx
  by_cases hin : n * kPageSize ≤ x ∧ x < n * kPageSize + kPageSize
  · rw [Memory.fill_apply_of_mem hin, Memory.fill_apply_of_mem hin]
  · rw [Memory.fill_apply_of_not_mem hin, Memory.fill_apply_of_not_mem hin]
    refine h x ?_
    rw [isFree_take] at hx
    have hne : x / kPageSize ≠ n := by
      rintro rfl
      unfold kPageSize at hin
      omega
    simpa [hne] using hx

theorem AgreeBusy.store64 {f : PageFrameContainer} {m m' : Memory} (h : AgreeBusy f m m')
    (a : Nat) (e : BitVec 64) : AgreeBusy f (m.store64 a e) (m'.store64 a e) := by
  intro x hx
  by_cases hin : a ≤ x ∧ x < a + 8
  · rw [Memory.store64_apply_of_mem hin, Memory.store64_apply_of_mem hin]
  · rw [Memory.store64_apply_of_not_mem hin, Memory.store64_apply_of_not_mem hin, h x hx]

namespace SameBusy

variable (h : SameBusy vm vm')
include h

theorem zeroFrame (n : Nat) : SameBusy (vm.zeroFrame n) (vm'.zeroFrame n) :=
  ⟨congrArg (·.take n) h.frames, h.root, h.initialized, h.mem.fill n⟩

theorem storeEntry (a : Nat) (e : BitVec 64) :
    SameBusy (vm.storeEntry a e) (vm'.storeEntry a e) :=
  ⟨h.frames, h.root, h.initialized, h.mem.store64 a e⟩

/-- The new root is a cleared frame, so it is the same on both sides. -/
theorem ensureRoot (ht : vm.frames.Tracked) :
    (vm'.ensureRoot).1 = (vm.ensureRoot).1 ∧ SameBusy vm.ensureRoot.2 vm'.ensureRoot.2 := by
  unfold VirtualMemory.ensureRoot
  rw [h.initialized]
  split
  · exact ⟨rfl, h⟩
  · rw [h.frames]
    cases ha : vm.frames.allocate with
    | none => exact ⟨rfl, h⟩
    | some r =>
      obtain ⟨a, frames⟩ := r
      obtain ⟨n, rfl, -, -, rfl, -⟩ := allocate_some ht ha
      exact ⟨rfl, rfl, rfl, rfl, h.mem.fill n⟩

theorem stepDown (ht : vm.frames.Tracked) (hg : Busy vm.frames g) (hj : j < 512)
    (create user : Bool) :
    (vm'.stepDown g j create user).2 = (vm.stepDown g j create user).2 ∧
      SameBusy (vm.stepDown g j create user).1 (vm'.stepDown g j create user).1 := by
  have hword := h.mem.load64 hg hj
  unfold VirtualMemory.stepDown ensureTableEntry
  dsimp only
  rw [hword]
  cases create with
  | false =>
    simp only [Bool.false_eq_true, if_false]
    split
    · exact ⟨rfl, h⟩
    · exact ⟨rfl, h⟩
  | true =>
    simp only [if_true]
    by_cases h0 : vm.mem.load64 (g + 8 * j) = 0#64
    · simp only [h0, if_true]
      rw [h.frames]
      cases ha : vm.frames.allocate with
      | none => exact ⟨rfl, h⟩
      | some r =>
        obtain ⟨a, frames⟩ := r
        obtain ⟨n, rfl, -, -, rfl, -⟩ := allocate_some ht ha
        dsimp only
        rw [Memory.load64_store64_self, Memory.load64_store64_self]
        exact ⟨rfl, rfl, h.root, h.initialized, (h.mem.fill n).store64 _ _⟩
    · simp only [h0, if_false]
      cases user with
      | false =>
        simp only [Bool.false_eq_true, if_false, hword]
        exact ⟨trivial, h⟩
      | true =>
        simp only [if_true, Memory.load64_store64_self]
        exact ⟨trivial, h.storeEntry _ _⟩

/-- A creating walk takes the same way on both sides. -/
theorem descend {p : List Nat} (ht : Tree (· = slot) vm) (hs : pageIndex va 39 = slot)
    (hlarge : NoLargePage vm va) (user : Bool) (hp : p <+: leafPath va) :
    (vm'.descend true user p).2 = (vm.descend true user p).2 ∧
      SameBusy (vm.descend true user p).1 (vm'.descend true user p).1 := by
  induction p using List.reverseRecOn with
  | nil =>
    obtain ⟨hok, h0⟩ := h.ensureRoot ht.tracked
    unfold VirtualMemory.descend
    generalize vm.ensureRoot = r at hok h0
    generalize vm'.ensureRoot = r' at hok h0
    obtain ⟨ok, vm0⟩ := r
    obtain ⟨ok', vm0'⟩ := r'
    obtain rfl : ok' = ok := hok
    cases ok' with
    | false => exact ⟨rfl, h0⟩
    | true => exact ⟨congrArg (fun root : BitVec 64 => some root.toNat) h0.root, h0⟩
  | append_singleton q j ih =>
    have hq : q <+: leafPath va := (List.prefix_append q [j]).trans hp
    obtain ⟨hr, h1⟩ := ih hq
    have hb := built_descend (u := user) ht hs hlarge hq
    obtain ⟨hqj, hl, -⟩ := level_inSlots (· = slot) vm hs hp
    rw [descend_snoc, descend_snoc]
    generalize vm.descend true user q = r at hr h1 hb
    generalize vm'.descend true user q = r' at hr h1
    obtain ⟨vm1, r⟩ := r
    obtain ⟨vm1', r'⟩ := r'
    obtain rfl : r' = r := hr
    cases r' with
    | none => exact ⟨rfl, h1⟩
    | some g =>
      exact SameBusy.stepDown h1 hb.tree.tracked
        (hb.tree.owned q g hqj.of_append (by omega) (hb.reached g rfl)) hqj.last true user

theorem walkToLeaf (ht : Tree (· = slot) vm) (hs : pageIndex va 39 = slot)
    (hlarge : NoLargePage vm va) (user : Bool) :
    (vm'.walkToLeaf va true user).2 = (vm.walkToLeaf va true user).2 ∧
      SameBusy (vm.walkToLeaf va true user).1 (vm'.walkToLeaf va true user).1 := by
  obtain ⟨hr, h1⟩ := h.descend ht hs hlarge user (List.prefix_refl _)
  rw [walkToLeaf_eq, walkToLeaf_eq, hr]
  exact ⟨rfl, h1⟩

theorem mapPhysical (ht : Tree (· = slot) vm) (hs : pageIndex va 39 = slot)
    (hlarge : NoLargePage vm va) (pa : BitVec 64) (flags : PageFlags) :
    (vm'.mapPhysical va pa 1#64 flags).1 = (vm.mapPhysical va pa 1#64 flags).1 ∧
      SameBusy (vm.mapPhysical va pa 1#64 flags).2 (vm'.mapPhysical va pa 1#64 flags).2 := by
  rw [VirtualMemory.mapPhysical, VirtualMemory.mapPhysical]
  split
  · exact ⟨rfl, h⟩
  · rw [show (1#64).toNat = 0 + 1 from rfl, mapPhysicalPages, mapPhysicalPages, pageAt_zero]
    obtain ⟨hr, h1⟩ := h.walkToLeaf ht hs hlarge flags.user
    rcases e1 : vm.walkToLeaf va true flags.user with ⟨vm1, r1⟩
    rcases e1' : vm'.walkToLeaf va true flags.user with ⟨vm1', r1'⟩
    rw [e1, e1'] at hr h1
    obtain rfl : r1' = r1 := hr
    cases r1' with
    | none => exact ⟨rfl, h1⟩
    | some leafEntry => exact ⟨rfl, h1.storeEntry _ _⟩

theorem allocatePages (hspace : UserSpace slot vm) (hva : va &&& kPageOffsetMask = 0#64)
    (remaining i first : Nat)
    (hslot : ∀ k, i ≤ k → k < i + remaining → pageIndex (pageAt va k) 39 = slot) :
    (allocatePages va flags remaining i first vm').1 =
        (allocatePages va flags remaining i first vm).1 ∧
      SameBusy (allocatePages va flags remaining i first vm).2
        (allocatePages va flags remaining i first vm').2 := by
  induction remaining generalizing i first vm vm' with
  | zero => exact ⟨rfl, h⟩
  | succ remaining ih =>
    rw [VirtualMemory.allocatePages, VirtualMemory.allocatePages, h.frames]
    cases ha : vm.frames.allocate with
    | none => exact ⟨rfl, h⟩
    | some p =>
      obtain ⟨a, frames⟩ := p
      obtain ⟨m, rfl, hm, hf, rfl, -⟩ := allocate_some hspace.tree.tracked ha
      have hm40 : m < 2 ^ 40 := lt_of_lt_of_le hm hspace.tree.tracked.bounded
      have hs := hslot i (Nat.le_refl i) (by omega)
      obtain ⟨hz, hready⟩ := hspace.zeroFrame hm hf
      have hlarge := hz.noLargePage hs
      have h0 := h.zeroFrame m
      obtain ⟨hr, h1⟩ := h0.mapPhysical hz.tree hs hlarge (BitVec.ofNat 64 (m * kPageSize))
        flags.withPresent
      unfold VirtualMemory.zeroFrame at hr h1
      rw [h.frames] at hr h1
      dsimp only
      rcases e1 : VirtualMemory.mapPhysical
        { vm with frames := vm.frames.take m, mem := vm.mem.fill (m * kPageSize) kPageSize 0#8 }
        (pageAt va i) (BitVec.ofNat 64 (m * kPageSize)) 1#64 flags.withPresent with ⟨ok, vm1⟩
      rcases e1' : VirtualMemory.mapPhysical
        { vm' with frames := vm.frames.take m, mem := vm'.mem.fill (m * kPageSize) kPageSize 0#8 }
        (pageAt va i) (BitVec.ofNat 64 (m * kPageSize)) 1#64 flags.withPresent with ⟨ok', vm1'⟩
      rw [e1, e1'] at hr h1
      obtain rfl : ok' = ok := hr
      obtain ⟨vm2, r, hw, hcase⟩ := mapPhysical_one hz.tree hs hlarge (pageAt_aligned hva i) hm40 e1
      obtain ⟨ht2, hg2, -⟩ := walkToLeaf_create_spec hz.tree hs hlarge hw
      cases ok' with
      | false => exact ⟨rfl, h1⟩
      | true =>
        rcases hcase with ⟨-, hfalse, -⟩ | ⟨-, -, g, hg, rfl⟩
        · cases hfalse
        · have haddr := entryAddress_frameWord flags hm40
          exact ih h1 ((hz.grow ht2 hg2).setLeaf hs hg (haddr ▸ hready.grow hg2)) (i + 1) _
            fun k h1 h2 => hslot k (by omega) (by omega)

theorem allocateAndMap {count : BitVec 64} (hspace : UserSpace slot vm)
    (hslot : ∀ i < count.toNat, pageIndex (pageAt va i) 39 = slot) (flags : PageFlags) :
    (vm'.allocateAndMap va count flags).1 = (vm.allocateAndMap va count flags).1 ∧
      SameBusy (vm.allocateAndMap va count flags).2 (vm'.allocateAndMap va count flags).2 := by
  rw [VirtualMemory.allocateAndMap, VirtualMemory.allocateAndMap]
  split
  · exact ⟨rfl, h⟩
  next hr =>
    refine h.allocatePages hspace (by_contra fun hne => hr (Or.inr hne)) count.toNat 0 0 ?_
    exact fun k _ hk => hslot k (by omega)

/-- The kernel's entries are read from an allocated frame. -/
theorem cloneKernelMappings {source : BitVec 64} (ht : Tree (· = slot) vm)
    (hsource : Busy vm.frames source.toNat) :
    (vm'.cloneKernelMappings source).1 = (vm.cloneKernelMappings source).1 ∧
      SameBusy (vm.cloneKernelMappings source).2 (vm'.cloneKernelMappings source).2 := by
  unfold VirtualMemory.cloneKernelMappings
  obtain ⟨hok, h0⟩ := h.ensureRoot ht.tracked
  rcases e0 : vm.ensureRoot with ⟨ok, vm0⟩
  rcases e0' : vm'.ensureRoot with ⟨ok', vm0'⟩
  rw [e0, e0'] at hok h0
  obtain rfl : ok' = ok := hok
  replace h0 : SameBusy vm0 vm0' := h0
  obtain ⟨-, hgrows, -⟩ := ensureRoot_spec ht e0
  have hbusy : Busy vm0.frames source.toNat := hgrows.busy hsource
  cases ok' with
  | false => exact ⟨rfl, h0⟩
  | true =>
    dsimp only
    rw [h0.root, h0.mem.load64 hbusy (by decide : kKernelPml4Index < 512)]
    have h1 := h0.storeEntry (vm0.root.toNat + 8 * kKernelPml4Index)
      (vm0.mem.load64 (source.toNat + 8 * kKernelPml4Index))
    have hword := h1.mem.load64 hbusy (by decide : kDirectMapPml4Index < 512)
    unfold VirtualMemory.storeEntry at h1 hword
    rw [hword]
    exact ⟨rfl, h0.frames, rfl, h0.initialized, h1.mem.store64 _ _⟩

/-- The tables of the slot are allocated frames, so they are the same on both sides. -/
theorem tables (ht : Tree (· = slot) vm) :
    (∀ q, InSlot slot q → q.length ≤ 3 → vm'.tables q = vm.tables q) ∧
      ∀ q j, InSlot slot (q ++ [j]) → q.length ≤ 3 → vm'.entryOf q j = vm.entryOf q j :=
  same_of_load vm vm' h.initialized h.root fun q g j hs hl hg =>
    h.mem.load64 (ht.owned q g hs.of_append hl hg) hs.last

theorem userSpace (hspace : UserSpace slot vm) : UserSpace slot vm' := by
  obtain ⟨htables, hentry⟩ := h.tables hspace.tree
  refine hspace.of_same (hspace.tree.of_same (h.frames ▸ hspace.tree.tracked) htables hentry ?_)
    (h.frames ▸ hspace.ready) htables hentry fun a ha => h.frames ▸ ha
  exact fun q g hs hl hg => h.frames ▸ hspace.tree.owned q g hs hl hg

theorem translate (hspace : UserSpace slot vm) (hs : pageIndex va 39 = slot) :
    vm'.translate va = vm.translate va := by
  rw [translate_slot (h.userSpace hspace) hs, translate_slot hspace hs,
    leafOf_congr hs (h.tables hspace.tree).2]

theorem writeRange {address : BitVec 64} {source : Nat → BitVec 8} {k : Nat}
    (hspace : UserSpace slot vm) (hs : ∀ i < k, pageIndex (byteAt address i) 39 = slot) :
    SameBusy { vm with mem := vm.writeRange address source k }
      { vm' with mem := vm'.writeRange address source k } := by
  refine ⟨h.frames, h.root, h.initialized, ?_⟩
  induction k with
  | zero => exact h.mem
  | succ k ih =>
    have ih := ih fun i hi => hs i (by omega)
    intro x hx
    dsimp only [VirtualMemory.writeRange]
    rw [h.translate hspace (hs k (by omega))]
    cases vm.translate (byteAt address k) with
    | none => exact ih x hx
    | some r =>
      dsimp only [Function.update]
      split
      · rfl
      · exact ih x hx

end SameBusy

end Os1.VirtualMemory
