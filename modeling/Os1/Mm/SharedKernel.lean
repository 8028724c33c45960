import Os1.Mm.DirectMap

/-! User address spaces see the kernel's direct map through one copied top-level entry. -/
namespace Os1

open PageFrameContainer VirtualMemory

variable {vm vm' vm'' : VirtualMemory} {g m p u : Nat} {va e : BitVec 64} {ok : Bool}

/-! ## Address spaces -/

/-- The kernel address space and the roots of the user address spaces. All use the memory and the
frames of the kernel's. -/
structure Spaces where
  kernel : VirtualMemory
  users : List (BitVec 64) := []

inductive SpaceStep where
  /-- A new address space is made with `clone_kernel_mappings`. -/
  | clone
  | call (call : DirectCall)
  deriving DecidableEq, Repr

namespace Spaces

variable {s : Spaces} {r : BitVec 64} {n i : Nat}

def clone (s : Spaces) : Spaces :=
  let fresh : VirtualMemory := { mem := s.kernel.mem, frames := s.kernel.frames }
  let (cloned, vm) := fresh.cloneKernelMappings s.kernel.root
  { kernel := { s.kernel with mem := vm.mem, frames := vm.frames }
    users := if cloned then s.users ++ [vm.root] else s.users }

def step (s : Spaces) : SpaceStep → Spaces
  | .clone => s.clone
  | .call call => { s with kernel := call.next s.kernel }

def run (s : Spaces) (steps : List SpaceStep) : Spaces := steps.foldl step s

/-- Wherever the kernel translates an address of the direct map, every user address space translates
it to the same physical address. -/
def Visible (s : Spaces) : Prop :=
  ∀ r ∈ s.users, ∀ p < kDirectMapLimit, ∀ a f,
    s.kernel.translate (physToVirt (BitVec.ofNat 64 p)) = some (a, f) →
      ∃ f', (s.kernel.attach r).translate (physToVirt (BitVec.ofNat 64 p)) = some (a, f')

/-- What one top-level entry of the direct map covers. -/
def kDirectMapSlotSize : Nat := 2 ^ 39

theorem kDirectMapPml4Index_eq : kDirectMapPml4Index = 256 := by decide

theorem kKernelPml4Index_eq : kKernelPml4Index = 511 := by decide

theorem pageIndex_physToVirt (hp : p < kDirectMapLimit) :
    pageIndex (physToVirt (BitVec.ofNat 64 p)) 39 = 256 + p / kDirectMapSlotSize := by
  rw [pageIndex_eq, toNat_physToVirt hp]
  unfold kDirectMapBase kDirectMapLimit kDirectMapSlotSize at *
  omega

/-- A root made by a clone: a frame of its own, empty but for the two copied entries. -/
structure Cloned (vm : VirtualMemory) (r : BitVec 64) : Prop where
  attached : r ≠ ~~~0#64
  beside : Beside vm r.toNat
  empty : ∀ i < 512, i ≠ kKernelPml4Index → i ≠ kDirectMapPml4Index →
    vm.mem.load64 (r.toNat + 8 * i) = 0#64

theorem load64_keeps (h : Keeps vm vm') (hu : Beside vm u) (hi : i < 512) :
    vm'.mem.load64 (u + 8 * i) = vm.mem.load64 (u + 8 * i) := by
  apply Memory.load64_congr
  intro x h1 h2
  exact h.bytes u hu x (by omega) (by unfold kPageSize; omega)

theorem Cloned.keep (h : Cloned vm r) (hk : Keeps vm vm') : Cloned vm' r :=
  ⟨h.attached, hk.beside _ h.beside, fun i hi hkernel hdirect =>
    (load64_keeps hk h.beside hi).trans (h.empty i hi hkernel hdirect)⟩

/-- An address under an entry that was not copied is not translated. -/
theorem Cloned.translate_none (h : Cloned vm r) (hkernel : pageIndex va 39 ≠ kKernelPml4Index)
    (hdirect : pageIndex va 39 ≠ kDirectMapPml4Index) : (vm.attach r).translate va = none := by
  have hzero := h.empty _ (pageIndex_lt va 39) hkernel hdirect
  simp [VirtualMemory.translate, VirtualMemory.attach, hzero]

/-- An address under a top-level entry that leads to the same table is translated alike. -/
theorem Cloned.translate_shared (h : Cloned vm r) (hi : vm.initialized = true)
    (hg : vm.tables [pageIndex va 39] = some g)
    (hchild : child vm.mem r.toNat (pageIndex va 39) = some g) :
    (vm.attach r).translate va = vm.translate va := by
  have hentry : ∀ e, nextTable e = some g → e ≠ 0#64 ∧ entryAddress e = g := by
    intro e he
    unfold nextTable at he
    split at he
    · rename_i htable
      exact ⟨(isTableEntry_iff.mp htable).1, Option.some.inj he⟩
    · exact absurd he (by simp)
  have hkernel : nextTable (vm.mem.load64 (vm.root.toNat + 8 * pageIndex va 39)) = some g := by
    rw [← List.nil_append [pageIndex va 39], tables_snoc, entryOf_eq (tables_root hi)] at hg
    exact hg
  obtain ⟨hne, haddress⟩ := hentry _ hkernel
  obtain ⟨hne', haddress'⟩ := hentry _ hchild
  simp only [VirtualMemory.translate, VirtualMemory.attach, hi, h.attached, ne_eq,
    not_false_eq_true, decide_true, Bool.not_true, Bool.false_eq_true, if_false, if_neg hne,
    if_neg hne', haddress, haddress']

/-! ## A clone -/

/-- The memory after the frame `n` became a root with the two copied entries. -/
def clonedMem (vm : VirtualMemory) (n : Nat) : Memory :=
  let mem := vm.mem.fill (n * kPageSize) kPageSize 0#8
  let mem := mem.store64 (n * kPageSize + 8 * kKernelPml4Index)
    (mem.load64 (vm.root.toNat + 8 * kKernelPml4Index))
  mem.store64 (n * kPageSize + 8 * kDirectMapPml4Index)
    (mem.load64 (vm.root.toNat + 8 * kDirectMapPml4Index))

/-- The kernel address space after the frame `n` became a root. -/
def besideClone (vm : VirtualMemory) (n : Nat) : VirtualMemory :=
  { vm with mem := clonedMem vm n, frames := vm.frames.take n }

theorem clone_cases (h : s.kernel.frames.Tracked) : s.clone = s ∨
    ∃ n, n < s.kernel.frames.pageCount ∧ s.kernel.frames.isFree n = true ∧
      s.clone = { kernel := besideClone s.kernel n
                  users := s.users ++ [BitVec.ofNat 64 (n * kPageSize)] } := by
  unfold clone cloneKernelMappings ensureRoot
  dsimp only
  cases ha : s.kernel.frames.allocate with
  | none => exact Or.inl rfl
  | some result =>
    obtain ⟨a, frames⟩ := result
    obtain ⟨n, rfl, hn, hf, rfl, -⟩ := allocate_some h ha
    refine Or.inr ⟨n, hn, hf, ?_⟩
    have hroot : (BitVec.ofNat 64 (n * kPageSize)).toNat = n * kPageSize :=
      toNat_frame (lt_of_lt_of_le hn h.bounded)
    simp [besideClone, clonedMem, hroot]

theorem clonedMem_outside {x : Nat} (hx : ¬ (n * kPageSize ≤ x ∧ x < n * kPageSize + kPageSize)) :
    clonedMem vm n x = vm.mem x := by
  have hentry : ∀ i < 512, ¬ (n * kPageSize + 8 * i ≤ x ∧ x < n * kPageSize + 8 * i + 8) := by
    unfold kPageSize at *
    omega
  rw [clonedMem, Memory.store64_apply_of_not_mem (hentry kDirectMapPml4Index (pageIndex_lt _ _)),
    Memory.store64_apply_of_not_mem (hentry kKernelPml4Index (pageIndex_lt _ _)),
    Memory.fill_apply_of_not_mem hx]

theorem besideClone_same (h : Direct vm) (hf : vm.frames.isFree n = true) :
    (∀ q, InSlots AllSlots q → q.length ≤ 3 → (besideClone vm n).tables q = vm.tables q) ∧
    ∀ q j, InSlots AllSlots (q ++ [j]) → q.length ≤ 3 →
      (besideClone vm n).entryOf q j = vm.entryOf q j :=
  same_of_mem vm (besideClone vm n) rfl rfl fun _ hx =>
    clonedMem_outside (h.tree.inTable_apart hf hx)

theorem besideClone_direct (h : Direct vm) (hn : n < vm.frames.pageCount)
    (hf : vm.frames.isFree n = true) : Direct (besideClone vm n) ∧
    ∀ p < kDirectMapLimit, MappedAt (besideClone vm n) p → MappedAt vm p := by
  obtain ⟨htables, hentry⟩ := besideClone_same h hf
  have htree : Tree AllSlots (besideClone vm n) :=
    h.tree.of_same (h.tree.tracked.take hn hf) htables hentry
      fun q g hs hl hg => (h.tree.owned q g hs hl hg).of_taken n
  obtain ⟨hd, hiff⟩ := h.of_lookup (R := fun _ => False) htree fun p _ => by
    rw [if_neg not_false, VirtualMemory.lookup, VirtualMemory.lookup,
      mapped_congr (hentry _ _ (midPath_inSlots _ trivial) (by simp [midPath])),
      mapped_congr (hentry _ _ (allSlots_path _) (by simp [leafPath]))]
  exact ⟨hd, fun p hp hm => ((hiff p hp).mp hm).resolve_right not_false⟩

theorem besideClone_keeps (h : Direct vm) (hi : vm.initialized = true)
    (hf : vm.frames.isFree n = true) : Keeps vm (besideClone vm n) := by
  obtain ⟨htables, -⟩ := besideClone_same h hf
  refine ⟨hi, rfl, fun i g h512 hg => (htables [i] (inSlots_one h512) (by simp)).trans hg,
    fun u hu => ⟨hu.busy.of_taken n, fun q hs hl => htables q hs hl ▸ hu.notTable q hs hl⟩, ?_⟩
  intro u hu x h1 h2
  apply clonedMem_outside
  obtain ⟨m, -, rfl, hbusy⟩ := hu.busy
  have hne : m ≠ n := by
    rintro rfl
    exact absurd (hbusy.symm.trans hf) (by simp)
  unfold kPageSize at *
  omega

theorem besideClone_cloned (h : Direct vm) (hn : n < vm.frames.pageCount)
    (hf : vm.frames.isFree n = true) :
    Cloned (besideClone vm n) (BitVec.ofNat 64 (n * kPageSize)) := by
  have hn40 : n < 2 ^ 40 := lt_of_lt_of_le hn h.tree.tracked.bounded
  have hroot := toNat_frame hn40
  obtain ⟨htables, -⟩ := besideClone_same h hf
  refine ⟨fun heq => ?_, ?_, ?_⟩
  · have htop := congrArg BitVec.toNat heq
    rw [hroot] at htop
    have : (~~~0#64).toNat = 2 ^ 64 - 1 := by decide
    unfold kPageSize at htop
    omega
  · rw [hroot]
    refine ⟨busy_zeroFrame hn, fun q hs hl => ?_⟩
    rw [htables q hs hl]
    exact h.tree.not_free hs hl hf
  · intro i h512 hkernel hdirect
    rw [hroot]
    unfold besideClone clonedMem
    dsimp only
    rw [Memory.load64_store64_of_disjoint (by omega), Memory.load64_store64_of_disjoint (by omega),
      Memory.load64_fill_zero (by omega) (by unfold kPageSize; omega)]

/-- The direct-map entry of the new root is the kernel's. -/
theorem besideClone_child (h : Direct vm) (hi : vm.initialized = true)
    (hf : vm.frames.isFree n = true) (hg : vm.tables [kDirectMapPml4Index] = some g) :
    child (besideClone vm n).mem (n * kPageSize) kDirectMapPml4Index = some g := by
  have hkernel := kKernelPml4Index_eq
  have hdirect := kDirectMapPml4Index_eq
  have hbusy := h.tree.owned [] _ ⟨by simp, by simp⟩ (by simp) (tables_root hi)
  have hapart : vm.root.toNat + kPageSize ≤ n * kPageSize ∨
      n * kPageSize + kPageSize ≤ vm.root.toNat := by
    obtain ⟨m, -, hm, hb⟩ := hbusy
    have hne : m ≠ n := by
      rintro rfl
      exact absurd (hb.symm.trans hf) (by simp)
    rw [hm]
    unfold kPageSize
    omega
  rw [← List.nil_append [kDirectMapPml4Index], tables_snoc, entryOf_eq (tables_root hi)] at hg
  unfold child besideClone clonedMem
  dsimp only
  rw [Memory.load64_store64_self, Memory.load64_store64_of_disjoint (by
      unfold kPageSize at *; omega), Memory.load64_fill_of_disjoint (by
      unfold kPageSize at *; omega)]
  exact hg

/-! ## Runs -/

/-- The kernel's direct map is sound, and every user root was made by a clone. -/
structure Kept (s : Spaces) : Prop where
  direct : Direct s.kernel
  ready : s.kernel.initialized = true
  users : ∀ r ∈ s.users, Cloned s.kernel r

/-- All roots lead to the kernel's table of the first 512 GiB. -/
structure Shares (s : Spaces) (g : Nat) : Prop where
  kernel : s.kernel.tables [kDirectMapPml4Index] = some g
  users : ∀ r ∈ s.users, child s.kernel.mem r.toNat kDirectMapPml4Index = some g

/-- Nothing beyond the first 512 GiB is mapped. -/
def Low (s : Spaces) : Prop :=
  ∀ p < kDirectMapLimit, kDirectMapSlotSize ≤ p → ¬ MappedAt s.kernel p

/-- A call is for physical memory below `stop`. -/
def Below (stop : Nat) : SpaceStep → Prop
  | .clone => True
  | .call call => call.start + call.length ≤ stop

theorem Kept.step_call {call : DirectCall} (h : Kept s)
    (ha : call.start + call.length ≤ kDirectMapLimit) : Kept (s.step (.call call)) := by
  have hext := DirectCall.next_extends h.direct ha (le_refl _) (by decide)
  have hkeeps := hext.keeps h.ready
  exact ⟨hext.direct, hkeeps.ready, fun r hr => (h.users r hr).keep hkeeps⟩

theorem Kept.step_clone (h : Kept s) : Kept (s.step .clone) := by
  change Kept s.clone
  rcases clone_cases h.direct.tree.tracked with heq | ⟨n, hn, hf, heq⟩
  · rwa [heq]
  · rw [heq]
    refine ⟨(besideClone_direct h.direct hn hf).1, h.ready, fun r hr => ?_⟩
    rcases List.mem_append.mp hr with hr | hr
    · exact (h.users r hr).keep (besideClone_keeps h.direct h.ready hf)
    · rw [List.mem_singleton.mp hr]
      exact besideClone_cloned h.direct hn hf

theorem Kept.step {a : SpaceStep} (h : Kept s) (ha : Below kDirectMapLimit a) :
    Kept (s.step a) := by
  cases a with
  | clone => exact h.step_clone
  | call call => exact h.step_call ha

theorem Shares.keep {vm : VirtualMemory} (h : Shares s g) (hs : Kept s)
    (hk : Keeps s.kernel vm) : Shares { s with kernel := vm } g := by
  refine ⟨hk.slots _ g (pageIndex_lt _ _) h.kernel, fun r hr => ?_⟩
  have hload := load64_keeps (i := kDirectMapPml4Index) hk (hs.users r hr).beside (pageIndex_lt _ _)
  rw [child, hload]
  exact h.users r hr

theorem Shares.step {a : SpaceStep} (h : Shares s g) (hs : Kept s)
    (ha : Below kDirectMapLimit a) : Shares (s.step a) g := by
  cases a with
  | call call =>
    exact h.keep hs ((DirectCall.next_extends hs.direct ha (le_refl _) (by decide)).keeps hs.ready)
  | clone =>
    change Shares s.clone g
    rcases clone_cases hs.direct.tree.tracked with heq | ⟨n, hn, hf, heq⟩
    · rwa [heq]
    · rw [heq]
      have hkeep := h.keep hs (besideClone_keeps hs.direct hs.ready hf)
      refine ⟨hkeep.kernel, fun r hr => ?_⟩
      rcases List.mem_append.mp hr with hr | hr
      · exact hkeep.users r hr
      · rw [List.mem_singleton.mp hr,
          toNat_frame (lt_of_lt_of_le hn hs.direct.tree.tracked.bounded)]
        exact besideClone_child hs.direct hs.ready hf h.kernel

theorem Low.step {a : SpaceStep} (h : Low s) (hs : Kept s) (ha : Below kDirectMapSlotSize a) :
    Low (s.step a) := by
  cases a with
  | call call =>
    intro p hp hhigh hm
    have hext := DirectCall.next_extends hs.direct ha (by decide) (by decide)
    rcases hext.below p hp hm with hold | hlt
    · exact h p hp hhigh hold
    · exact absurd hlt (not_lt.mpr hhigh)
  | clone =>
    change Low s.clone
    rcases clone_cases hs.direct.tree.tracked with heq | ⟨n, hn, hf, heq⟩
    · rwa [heq]
    · rw [heq]
      exact fun p hp hhigh hm => h p hp hhigh ((besideClone_direct hs.direct hn hf).2 p hp hm)

theorem Shares.visible (h : Shares s g) (hs : Kept s) (hlow : Low s) : Visible s := by
  intro r hr p hp a f hf
  have hlt : p < kDirectMapSlotSize := by
    by_contra hhigh
    refine hlow p hp (not_lt.mp hhigh) ⟨f, ?_⟩
    rw [hf, hs.direct.exact p hp a f hf]
  have hslot : pageIndex (physToVirt (BitVec.ofNat 64 p)) 39 = kDirectMapPml4Index := by
    rw [pageIndex_physToVirt hp, Nat.div_eq_of_lt hlt, kDirectMapPml4Index_eq]
  refine ⟨f, ?_⟩
  rw [(hs.users r hr).translate_shared hs.ready (g := g) (hslot ▸ h.kernel)
    (hslot ▸ h.users r hr)]
  exact hf

/-- What the kernel maps beyond the first 512 GiB is seen in no user address space. -/
theorem Kept.not_visible (hs : Kept s) (hr : r ∈ s.users) (hp : p < kDirectMapLimit)
    (hhigh : kDirectMapSlotSize ≤ p) (hm : MappedAt s.kernel p) : ¬ Visible s := by
  intro hvisible
  obtain ⟨f, hf⟩ := hm
  obtain ⟨f', hf'⟩ := hvisible r hr p hp _ f hf
  have hslot := pageIndex_physToVirt hp
  have hquot : 1 ≤ p / kDirectMapSlotSize ∧ p / kDirectMapSlotSize < 128 := by
    unfold kDirectMapSlotSize kDirectMapLimit at *
    omega
  rw [(hs.users r hr).translate_none (by rw [hslot, kKernelPml4Index_eq]; omega)
    (by rw [hslot, kDirectMapPml4Index_eq]; omega)] at hf'
  exact absurd hf' (by simp)

theorem run_kept {steps : List SpaceStep} (h : Kept s)
    (ha : ∀ a ∈ steps, Below kDirectMapLimit a) : Kept (run s steps) := by
  induction steps generalizing s with
  | nil => exact h
  | cons a steps ih =>
    exact ih (h.step (ha a (by simp))) fun b hb => ha b (List.mem_cons_of_mem a hb)

theorem run_visible {steps : List SpaceStep} (h : Kept s) (hshares : Shares s g) (hlow : Low s)
    (ha : ∀ a ∈ steps, Below kDirectMapSlotSize a) : Visible (run s steps) := by
  induction steps generalizing s with
  | nil => exact hshares.visible h hlow
  | cons a steps ih =>
    have hslot := ha a (by simp)
    have hlimit : Below kDirectMapLimit a := by
      cases a with
      | clone => trivial
      | call call => exact le_trans hslot (by decide)
    exact ih (h.step hlimit) (hshares.step h hlimit) (hlow.step h hslot)
      fun b hb => ha b (List.mem_cons_of_mem a hb)

theorem table_of_mapped (h : Direct vm) (hp : p < kDirectMapSlotSize) (hm : MappedAt vm p) :
    ∃ g, vm.tables [kDirectMapPml4Index] = some g := by
  have hlimit : p < kDirectMapLimit := lt_of_lt_of_le hp (by decide)
  have hslot : pageIndex (physToVirt (BitVec.ofNat 64 p)) 39 = kDirectMapPml4Index := by
    rw [pageIndex_physToVirt hlimit, Nat.div_eq_of_lt hp, kDirectMapPml4Index_eq]
  rw [← Option.ne_none_iff_exists']
  intro hnone
  rw [h.mappedAt_iff hlimit] at hm
  apply hm
  apply lookup_of_no_table
  rw [← hslot] at hnone
  exact tables_append_none (r := [pageIndex _ 30]) hnone

/-- While the direct map stays below 512 GiB it is visible in all address spaces that were cloned
from the kernel's; a mapping beyond is visible in none of them. -/
theorem direct_map_visible {kernel : VirtualMemory} (hdirect : Direct kernel)
    (hready : kernel.initialized = true) {p₀ : Nat} (hp₀ : p₀ < kDirectMapLimit)
    (hm : MappedAt kernel p₀) (steps : List SpaceStep) :
    (Low { kernel := kernel } → (∀ a ∈ steps, Below kDirectMapSlotSize a) →
      ∀ k, Visible (run { kernel := kernel } (steps.take k))) ∧
    ((∀ a ∈ steps, Below kDirectMapLimit a) → ∀ k,
      (run { kernel := kernel } (steps.take k)).users ≠ [] →
      ¬ Low (run { kernel := kernel } (steps.take k)) →
      ¬ Visible (run { kernel := kernel } (steps.take k))) := by
  have hkept : Kept { kernel := kernel } := ⟨hdirect, hready, by simp⟩
  refine ⟨fun hlow ha k => ?_, fun ha k husers hhigh => ?_⟩
  · have hfirst : p₀ < kDirectMapSlotSize := not_le.mp fun hle => hlow p₀ hp₀ hle hm
    obtain ⟨g, hg⟩ := table_of_mapped hdirect hfirst hm
    exact run_visible hkept ⟨hg, by simp⟩ hlow fun a hmem => ha a (List.mem_of_mem_take hmem)
  · obtain ⟨r, hr⟩ := List.exists_mem_of_ne_nil _ husers
    simp only [Low, not_forall, not_not] at hhigh
    obtain ⟨p, hp, hle, hmapped⟩ := hhigh
    exact (run_kept hkept fun a hmem => ha a (List.mem_of_mem_take hmem)).not_visible hr hp hle
      hmapped

/-- The first 2 MiB in the direct map of a new address space. -/
def lowKernel : VirtualMemory := (DirectCall.direct 0 0x200000).next bootedSpace

theorem lowKernel_direct : Direct lowKernel ∧ Low { kernel := lowKernel } := by
  have hfresh : Direct bootedSpace := DirectCall.direct_fresh rfl bootedFrames_tracked
  have hext : Extends 0x200000 bootedSpace lowKernel :=
    DirectCall.next_extends hfresh (by decide) (by decide) (by decide)
  refine ⟨hext.direct, fun p hp hhigh hm => ?_⟩
  dsimp only at hm
  rcases hext.below p hp hm with ⟨f, hf⟩ | hlt
  · simp [bootedSpace, VirtualMemory.translate] at hf
  · unfold kDirectMapSlotSize at hhigh
    omega

/-- A clone before and a clone after a device page is mapped. -/
def cloneAround : List SpaceStep := [.clone, .call (.mmio 0xFEE00000 0x1000), .clone]

theorem direct_map_visible_around :
    (run { kernel := lowKernel } cloneAround).users.length = 2 ∧
      MappedAt (run { kernel := lowKernel } cloneAround).kernel 0xFEE00000 ∧
      Visible (run { kernel := lowKernel } cloneAround) := by
  refine ⟨by decide +kernel, by decide +kernel, ?_⟩
  have hmapped : MappedAt lowKernel 0 := by decide +kernel
  refine (direct_map_visible lowKernel_direct.1 (by decide +kernel) (by decide) hmapped
    cloneAround).1 lowKernel_direct.2 ?_ 3
  simp [cloneAround, Below, DirectCall.start, DirectCall.length, kDirectMapSlotSize]

/-- A kernel address space with a page of the kernel image and the first 2 MiB of the direct map. -/
def imageKernel : VirtualMemory :=
  (DirectCall.direct 0 0x200000).next
    (bootedSpace.mapPhysical (BitVec.ofNat 64 kKernelVirtualOffset) 0#64 1#64 { write := true }).2

/-- A device at 512 GiB is mapped after the clone: the kernel reaches it, the clone does not. -/
theorem clone_misses_device :
    (imageKernel.translate (BitVec.ofNat 64 kKernelVirtualOffset)).isSome = true ∧
      MappedAt imageKernel 0 ∧
      ¬ Visible (run { kernel := imageKernel } [.clone, .call (.mmio 0x8000000000 0x1000)]) := by
  refine ⟨by decide +kernel, by decide +kernel, fun hvisible => ?_⟩
  have husers : (run { kernel := imageKernel } [.clone, .call (.mmio 0x8000000000 0x1000)]).users =
      [BitVec.ofNat 64 0x206000] := by decide +kernel
  have hmapped : MappedAt
      (run { kernel := imageKernel } [.clone, .call (.mmio 0x8000000000 0x1000)]).kernel
      0x8000000000 := by decide +kernel
  obtain ⟨f, hf⟩ := hmapped
  obtain ⟨f', hf'⟩ := hvisible (BitVec.ofNat 64 0x206000) (by rw [husers]; simp) 0x8000000000
    (by decide) _ f hf
  have hnone : ((run { kernel := imageKernel }
      [.clone, .call (.mmio 0x8000000000 0x1000)]).kernel.attach
        (BitVec.ofNat 64 0x206000)).translate
          (physToVirt (BitVec.ofNat 64 0x8000000000)) = none := by
    decide +kernel
  rw [hnone] at hf'
  exact absurd hf' (by simp)

end Spaces
end Os1
