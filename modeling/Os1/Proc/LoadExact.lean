import Os1.Lib.Overlay
import Os1.Proc.LoadView

/-! When a loaded program finds its segments as the file describes them. -/
namespace Os1.UserProgram

open Elf UserElf VirtualMemory

/-- The address is in the memory range of the segment. -/
def Covers (p : Elf64ProgramHeader) (va : BitVec 64) : Prop :=
  p.vaddr.toNat ≤ va.toNat ∧ va.toNat < p.vaddr.toNat + p.memsz.toNat

/-- The page of the address holds a byte of the memory range of the segment. -/
def TouchesPage (p : Elf64ProgramHeader) (va : BitVec 64) : Prop :=
  0 < p.memsz.toNat ∧ p.vaddr.toNat / kPageSize ≤ va.toNat / kPageSize ∧
    va.toNat / kPageSize ≤ (p.vaddr.toNat + p.memsz.toNat - 1) / kPageSize

instance (p : Elf64ProgramHeader) (va : BitVec 64) : Decidable (Covers p va) :=
  inferInstanceAs (Decidable (_ ∧ _))

instance (p : Elf64ProgramHeader) (va : BitVec 64) : Decidable (TouchesPage p va) :=
  inferInstanceAs (Decidable (_ ∧ _ ∧ _))

def Writable (p : Elf64ProgramHeader) : Prop := p.flags &&& kProgramFlagWrite ≠ 0#32

def Executable (p : Elf64ProgramHeader) : Prop := p.flags &&& kProgramFlagExecute ≠ 0#32

/-- The address is in the stack pages. -/
def InStack (va : BitVec 64) : Prop := stackBase ≤ va.toNat ∧ va.toNat < kUserStackTop

instance (va : BitVec 64) : Decidable (InStack va) := inferInstanceAs (Decidable (_ ∧ _))

/-- The address space holds the loadable segments of the image, with their file bytes, zeroes and
rights, and a stack above an unmapped page. -/
structure LoadsExactly (image : Image) (vm : VirtualMemory) : Prop where
  file : ∀ before p after, loadHeaders image = before ++ p :: after → ∀ k < p.filesz.toNat,
    (∀ q ∈ after, ¬ Covers q (byteAt p.vaddr k)) →
    ∃ rights, vm.userView (byteAt p.vaddr k) = some (rights, fileBytes image p k)
  bss : ∀ before p after, loadHeaders image = before ++ p :: after →
    ∀ k, p.filesz.toNat ≤ k → k < p.memsz.toNat →
    (∀ q ∈ before ++ after, ¬ Covers q (byteAt p.vaddr k)) →
    ∃ rights, vm.userView (byteAt p.vaddr k) = some (rights, 0#8)
  user : ∀ p ∈ loadHeaders image, ∀ va, TouchesPage p va → (vm.userView va).isSome = true
  write : ∀ p ∈ loadHeaders image, Writable p → ∀ va, TouchesPage p va →
    ∃ v ∈ vm.userView va, v.1.write = true
  execute : ∀ p ∈ loadHeaders image, Executable p → ∀ va, TouchesPage p va →
    ∃ v ∈ vm.userView va, v.1.execute = true
  stack : ∀ va, InStack va → vm.userView va = some (⟨true, false⟩, 0#8)
  guard : ∀ va, stackGuardBase ≤ va.toNat → va.toNat < stackBase → vm.translate va = none

/-- The segments agree on the pages they share: the last segment on a page has the rights of the
others, and file bytes of an earlier segment that it does not cover are zero. Where a segment has
file bytes and no memory, other segments or the stack hold the same bytes. -/
structure PagesAgree (image : Image) : Prop where
  shared : ∀ before p after, loadHeaders image = before ++ p :: after → p.memsz ≠ 0#64 →
    ∀ k < p.filesz.toNat, (∀ q ∈ after, ¬ Covers q (byteAt p.vaddr k)) →
    (∃ q ∈ after, TouchesPage q (byteAt p.vaddr k)) → fileBytes image p k = 0#8
  noMemory : ∀ before p after, loadHeaders image = before ++ p :: after → p.memsz = 0#64 →
    ∀ k < p.filesz.toNat, (∀ q ∈ after, ¬ Covers q (byteAt p.vaddr k)) →
    (InStack (byteAt p.vaddr k) ∧ fileBytes image p k = 0#8) ∨
      ∃ q, IsTop TouchesPage (loadHeaders image) q (byteAt p.vaddr k) ∧
        segmentByte image q (byteAt p.vaddr k) = fileBytes image p k
  write : ∀ p ∈ loadHeaders image, Writable p → ∀ q va, TouchesPage p va →
    IsTop TouchesPage (loadHeaders image) q va → Writable q
  execute : ∀ p ∈ loadHeaders image, Executable p → ∀ q va, TouchesPage p va →
    IsTop TouchesPage (loadHeaders image) q va → Executable q

variable {image : Image} {p q : Elf64ProgramHeader} {va : BitVec 64} {vm : VirtualMemory}
  {plan : LoadSegmentPlan}

/-! ## The memory by program headers -/

/-- The rights and the byte that a segment gives to an address of its pages. -/
def headerView (image : Image) (p : Elf64ProgramHeader) (va : BitVec 64) :
    UserRights × BitVec 8 :=
  (flagRights (segmentFlags p), segmentByte image p va)

theorem touches_iff (b : SegmentBounds image p plan) (va : BitVec 64) :
    Segment.Touches (p, plan) va ↔ TouchesPage p va := by
  have hstart := b.start
  have hstop := b.stop
  have hpos := b.memsz_pos
  unfold Segment.Touches TouchesPage
  dsimp only
  rw [hstart, hstop]
  simp only [kPageSize_eq] at *
  omega

theorem TouchesPage.memsz_ne (h : TouchesPage p va) : p.memsz ≠ 0#64 := by
  rintro heq
  have hpos := h.1
  rw [heq] at hpos
  exact absurd hpos (by decide)

theorem Covers.touches (h : Covers p va) : TouchesPage p va := by
  obtain ⟨h1, h2⟩ := h
  exact ⟨by omega, Nat.div_le_div_right h1, Nat.div_le_div_right (by omega)⟩

theorem segmentMemory_eq {segments : List Segment} (hsize : image.length < 2 ^ 64)
    (h : Accepted image segments) :
    segmentMemory image segments =
      overlay TouchesPage (headerView image) (segments.map Prod.fst) := by
  funext va
  induction segments using List.reverseRecOn with
  | nil => rfl
  | append_singleton segments s ih =>
    have b := segmentBounds hsize (h s (List.mem_append_right _ (List.mem_singleton_self s)))
    rw [segmentMemory_append, addSegment_apply b, List.map_append, List.map_singleton,
      overlay_append, ih fun s' hs' => h s' (List.mem_append_left _ hs'), b.flags]
    simp only [touches_iff b va]
    rfl

/-- What the loader guarantees about an accepted image. -/
structure LoadedImage (image : Image) (vm : VirtualMemory) : Prop where
  bounds : ∀ p ∈ loadHeaders image, p.memsz ≠ 0#64 → ∃ plan, SegmentBounds image p plan
  program : ProgramSpace vm
  view : ∀ va, vm.userView va = if InStack va then some (⟨true, false⟩, 0#8)
    else overlay TouchesPage (headerView image) (loadHeaders image) va

theorem loadedImage {machine : Machine} {kernelRootCr3 : BitVec 64} {outcome : LoadOutcome}
    {e : UserEntry} (hsize : image.length < 2 ^ 64) (hframes : machine.frames.Tracked)
    (hready : machine.frames.initialized = true) (hkernel : KernelRoot machine kernelRootCr3)
    (h : loadUserElf machine kernelRootCr3 image = .ok outcome) (he : outcome.loaded = some e) :
    LoadedImage image (outcome.machine.space e.cr3) := by
  obtain ⟨haccepted, hheaders, hprogram, hview⟩ :=
    loaded_view hsize hframes hready hkernel h he
  refine ⟨fun p hp hne => ?_, hprogram, fun va => ?_⟩
  · have hmem : p ∈ outcome.segments.map Prod.fst := by
      rw [hheaders]
      exact List.mem_filter.mpr ⟨hp, by simpa using hne⟩
    obtain ⟨s, hs, rfl⟩ := List.mem_map.mp hmem
    exact ⟨s.2, segmentBounds hsize (haccepted s hs)⟩
  · rw [hview, programMemory, segmentMemory_eq hsize haccepted, hheaders,
      overlay_filter fun p va ht => by simpa using ht.memsz_ne]
    rfl

/-! ## One address -/

theorem write_headerView : (headerView image p va).1.write = true ↔ Writable p := by
  simp [headerView, flagRights, segmentFlags, Writable]

theorem execute_headerView : (headerView image p va).1.execute = true ↔ Executable p := by
  simp [headerView, flagRights, segmentFlags, Executable]

theorem segmentByte_uncovered (b : SegmentBounds image q plan) (h : ¬ Covers q va) :
    segmentByte image q va = 0#8 := by
  have hle := b.filesz_le
  unfold Covers at h
  rw [segmentByte, if_neg (by omega)]

theorem toNat_segmentByte (b : SegmentBounds image p plan) {k : Nat} (hk : k < p.memsz.toNat) :
    (byteAt p.vaddr k).toNat = p.vaddr.toNat + k := by
  have h1 := b.end_le
  have h2 := b.stop_lt
  exact toNat_byteAt_of_lt (by omega)

theorem covers_byteAt (b : SegmentBounds image p plan) {k : Nat} (hk : k < p.memsz.toNat) :
    Covers p (byteAt p.vaddr k) := by
  have hat := toNat_segmentByte b hk
  unfold Covers
  omega

theorem segmentByte_byteAt (b : SegmentBounds image p plan) {k : Nat} (hk : k < p.memsz.toNat) :
    segmentByte image p (byteAt p.vaddr k) =
      if k < p.filesz.toNat then fileBytes image p k else 0#8 := by
  have hat := toNat_segmentByte b hk
  rw [segmentByte, hat]
  by_cases hfile : k < p.filesz.toNat
  · rw [if_pos ⟨by omega, by omega⟩, if_pos hfile, Nat.add_sub_cancel_left]
  · rw [if_neg (by omega), if_neg hfile]

namespace LoadedImage

variable (L : LoadedImage image vm)
include L

theorem below_guard (hp : p ∈ loadHeaders image) (ht : TouchesPage p va) :
    va.toNat < stackGuardBase := by
  obtain ⟨plan, b⟩ := L.bounds p hp ht.memsz_ne
  exact lt_of_lt_of_le ((touches_iff b va).mpr ht).2 b.guard

theorem not_inStack (hp : p ∈ loadHeaders image) (ht : TouchesPage p va) : ¬ InStack va := by
  have hlt := L.below_guard hp ht
  have hbelow : stackGuardBase ≤ stackBase := by decide
  intro hs
  have hbase := hs.1
  omega

/-- Between the segments and the stack nothing is mapped. -/
theorem guard_unmapped (h1 : stackGuardBase ≤ va.toNat) (h2 : va.toNat < stackBase) :
    vm.translate va = none := by
  have hwin : InWindow kUserPml4Index va := by
    unfold InWindow
    simp only [stackGuardBase, stackBase, kUserStackTop, kUserStackPages, kPageSize,
      kUserPml4Index] at *
    omega
  refine L.program.translate_none (hwin.pageIndex (by decide)) ?_
  rw [← (if_pos hwin : ite _ (vm.slotView va) none = _), ← L.program.userView, L.view,
    if_neg fun hs => Nat.not_lt.mpr hs.1 h2]
  cases hview : overlay TouchesPage (headerView image) (loadHeaders image) va with
  | none => rfl
  | some v =>
    obtain ⟨q, htop, -⟩ := overlay_eq_some hview
    obtain ⟨-, -, -, ht, -⟩ := id htop
    exact absurd (L.below_guard htop.mem ht) (Nat.not_lt.mpr h1)

/-- The last segment on a page decides what is there. -/
theorem view_top (h : IsTop TouchesPage (loadHeaders image) q va) :
    vm.userView va = some (headerView image q va) := by
  obtain ⟨before, after, heq, ht, -⟩ := id h
  rw [L.view, if_neg (L.not_inStack h.mem ht), h.overlay]

/-- On a page that a later segment takes over, bytes it does not cover are zero. -/
theorem view_taken_over {before after : List Elf64ProgramHeader}
    (heq : loadHeaders image = before ++ p :: after) (huncovered : ∀ q ∈ after, ¬ Covers q va)
    (htaken : ∃ q ∈ after, TouchesPage q va) :
    ∃ rights, vm.userView va = some (rights, 0#8) := by
  obtain ⟨q, hq, ht⟩ := htaken
  obtain ⟨z, hz, htop⟩ : ∃ z ∈ after, IsTop TouchesPage (before ++ p :: after) z va :=
    IsTop.of_after hq ht
  rw [← heq] at htop
  obtain ⟨-, -, -, hzt, -⟩ := id htop
  obtain ⟨plan, b⟩ := L.bounds z htop.mem hzt.memsz_ne
  have hview := L.view_top htop
  rw [headerView, segmentByte_uncovered b (huncovered z hz)] at hview
  exact ⟨_, hview⟩

/-- On a page that no later segment touches, a segment finds its own bytes. -/
theorem view_own {before after : List Elf64ProgramHeader} {k : Nat}
    (heq : loadHeaders image = before ++ p :: after) (hk : k < p.memsz.toNat)
    (hlast : ¬ ∃ q ∈ after, TouchesPage q (byteAt p.vaddr k)) :
    ∃ rights, vm.userView (byteAt p.vaddr k) =
      some (rights, if k < p.filesz.toNat then fileBytes image p k else 0#8) := by
  have hne : p.memsz ≠ 0#64 := by
    rintro h0
    rw [h0] at hk
    exact absurd hk (by simp)
  obtain ⟨plan, b⟩ := L.bounds p (by rw [heq]; simp) hne
  have hview := L.view_top ⟨before, after, heq, (covers_byteAt b hk).touches,
    fun y hy ht => hlast ⟨y, hy, ht⟩⟩
  rw [headerView, segmentByte_byteAt b hk] at hview
  exact ⟨_, hview⟩

end LoadedImage

/-! ## The whole image -/

theorem LoadedImage.pagesAgree (L : LoadedImage image vm) (h : LoadsExactly image vm) :
    PagesAgree image := by
  refine ⟨fun before p after heq _ k hk huncovered htaken => ?_,
    fun before p after heq hmemsz k hk huncovered => ?_, fun p hp hw q va ht htop => ?_,
    fun p hp hw q va ht htop => ?_⟩
  · obtain ⟨rights, hview⟩ := h.file before p after heq k hk huncovered
    obtain ⟨rights', hview'⟩ := L.view_taken_over heq huncovered htaken
    exact congrArg Prod.snd (Option.some.inj (hview.symm.trans hview'))
  · obtain ⟨rights, hview⟩ := h.file before p after heq k hk huncovered
    rw [L.view] at hview
    split at hview
    next hs => exact Or.inl ⟨hs, (congrArg Prod.snd (Option.some.inj hview)).symm⟩
    next hs =>
      obtain ⟨q, htop, heq'⟩ := overlay_eq_some hview
      exact Or.inr ⟨q, htop, (congrArg Prod.snd heq').symm⟩
  · obtain ⟨v, hv, hwrite⟩ := h.write p hp hw va ht
    obtain rfl := Option.some.inj (hv.symm.trans (L.view_top htop))
    exact write_headerView.mp hwrite
  · obtain ⟨v, hv, hexecute⟩ := h.execute p hp hw va ht
    obtain rfl := Option.some.inj (hv.symm.trans (L.view_top htop))
    exact execute_headerView.mp hexecute

theorem LoadedImage.loadsExactly (L : LoadedImage image vm) (h : PagesAgree image) :
    LoadsExactly image vm := by
  refine ⟨fun before p after heq k hk huncovered => ?_,
    fun before p after heq k hfile hk huncovered => ?_, fun p hp va ht => ?_,
    fun p hp hw va ht => ?_, fun p hp hw va ht => ?_, fun va hs => ?_, fun va h1 h2 => ?_⟩
  · by_cases hmemsz : p.memsz = 0#64
    · rcases h.noMemory before p after heq hmemsz k hk huncovered with ⟨hs, hz⟩ | ⟨q, htop, hbyte⟩
      · exact ⟨_, by rw [L.view, if_pos hs, hz]⟩
      · exact ⟨_, by rw [L.view_top htop, headerView, hbyte]⟩
    · obtain ⟨plan, b⟩ := L.bounds p (by rw [heq]; simp) hmemsz
      by_cases htaken : ∃ q ∈ after, TouchesPage q (byteAt p.vaddr k)
      · rw [h.shared before p after heq hmemsz k hk huncovered htaken]
        exact L.view_taken_over heq huncovered htaken
      · have hown := L.view_own heq (lt_of_lt_of_le hk b.filesz_le) htaken
        rwa [if_pos hk] at hown
  · by_cases htaken : ∃ q ∈ after, TouchesPage q (byteAt p.vaddr k)
    · exact L.view_taken_over heq (fun q hq => huncovered q (List.mem_append_right _ hq)) htaken
    · have hown := L.view_own heq hk htaken
      rwa [if_neg (by omega)] at hown
  · obtain ⟨q, htop⟩ := exists_isTop hp ht
    rw [L.view_top htop]
    rfl
  · obtain ⟨q, htop⟩ := exists_isTop hp ht
    exact ⟨_, L.view_top htop, write_headerView.mpr (h.write p hp hw q va ht htop)⟩
  · obtain ⟨q, htop⟩ := exists_isTop hp ht
    exact ⟨_, L.view_top htop, execute_headerView.mpr (h.execute p hp hw q va ht htop)⟩
  · rw [L.view, if_pos hs]
  · exact L.guard_unmapped h1 h2

/-- A loaded program finds its segments as the file describes them exactly when the segments agree
on the pages they share. -/
theorem load_exact_iff (machine : Machine) (kernelRootCr3 : BitVec 64) (image : Image)
    (hsize : image.length < 2 ^ 64) (hframes : machine.frames.Tracked)
    (hready : machine.frames.initialized = true) (hkernel : KernelRoot machine kernelRootCr3)
    (outcome : LoadOutcome) (e : UserEntry)
    (h : loadUserElf machine kernelRootCr3 image = .ok outcome) (he : outcome.loaded = some e) :
    LoadsExactly image (outcome.machine.space e.cr3) ↔ PagesAgree image :=
  have L := loadedImage hsize hframes hready hkernel h he
  ⟨L.pagesAgree, L.loadsExactly⟩

/-! ## One segment, and two segments on one page -/

/-- What the program finds at an address, if the load succeeds. -/
def loadedView (machine : Machine) (kernelRootCr3 : BitVec 64) (image : Image) (va : BitVec 64) :
    Option (Option (UserRights × BitVec 8)) :=
  match loadUserElf machine kernelRootCr3 image with
  | .ok outcome => outcome.loaded.map fun e => (outcome.machine.space e.cr3).userView va
  | .error _ => none

theorem loadedView_eq_some (machine : Machine) (kernelRootCr3 : BitVec 64) (image : Image)
    (va : BitVec 64) (v : Option (UserRights × BitVec 8))
    (h : loadedView machine kernelRootCr3 image va = some v) :
    ∃ outcome e, loadUserElf machine kernelRootCr3 image = .ok outcome ∧
      outcome.loaded = some e ∧ (outcome.machine.space e.cr3).userView va = v := by
  unfold loadedView at h
  split at h
  next outcome hload =>
    obtain ⟨e, he, hv⟩ := Option.map_eq_some_iff.mp h
    exact ⟨outcome, e, hload, he, hv⟩
  · cases h

theorem roomyMachine_kernelRoot : KernelRoot roomyMachine 0x1000#64 :=
  ⟨⟨1, by decide +kernel, rfl, by decide +kernel⟩, by decide +kernel, by decide +kernel⟩

theorem smallImage_loadHeaders : loadHeaders smallImage = [smallProgram] := by decide +kernel

theorem smallImage_pagesAgree : PagesAgree smallImage := by
  have hsingle : ∀ {before p after}, loadHeaders smallImage = before ++ p :: after →
      before = [] ∧ p = smallProgram ∧ after = [] := by
    intro before p after heq
    rw [smallImage_loadHeaders] at heq
    cases before with
    | nil => exact ⟨rfl, (List.cons.inj heq).1.symm, (List.cons.inj heq).2.symm⟩
    | cons x xs => exact absurd (congrArg List.length heq) (by simp)
  have hsame : ∀ {p q va}, p ∈ loadHeaders smallImage →
      IsTop TouchesPage (loadHeaders smallImage) q va → p = q := by
    intro p q va hp htop
    have hq := htop.mem
    rw [smallImage_loadHeaders, List.mem_singleton] at hp hq
    rw [hp, hq]
  refine ⟨fun before p after heq _ k _ _ htaken => ?_, fun before p after heq hmemsz => ?_,
    fun p hp hw q va _ htop => hsame hp htop ▸ hw, fun p hp hw q va _ htop => hsame hp htop ▸ hw⟩
  · obtain ⟨-, -, rfl⟩ := hsingle heq
    obtain ⟨q, hq, -⟩ := htaken
    cases hq
  · obtain ⟨-, rfl, -⟩ := hsingle heq
    exact absurd hmemsz (by decide)

theorem load_exact_iff_smallImage : ∃ outcome e,
    loadUserElf roomyMachine 0x1000#64 smallImage = .ok outcome ∧ outcome.loaded = some e ∧
      LoadsExactly smallImage (outcome.machine.space e.cr3) := by
  obtain ⟨outcome, e, hload, he, -⟩ := loadedView_eq_some roomyMachine 0x1000#64 smallImage
    0x8000000000#64 (some (⟨false, true⟩, 0x90#8)) (by decide +kernel)
  exact ⟨outcome, e, hload, he, (load_exact_iff roomyMachine 0x1000#64 smallImage
    (by decide +kernel) roomyFrames_tracked rfl roomyMachine_kernelRoot outcome e hload he).mpr
    smallImage_pagesAgree⟩

/-- Writable data in the page of the code. -/
def sharedPageData : Elf64ProgramHeader where
  type := kProgramTypeLoad
  flags := 6#32
  offset := 180#64
  vaddr := 0x8000000800#64
  filesz := 4#64
  memsz := 4#64

def sharedPageCode : Elf64ProgramHeader := { smallProgram with offset := 176#64 }

def sharedPageImage : Image :=
  encodeImage (BitVec.ofNat 64 kUserSpaceBase) [sharedPageCode, sharedPageData]
    [0x90#8, 0x90#8, 0xEB#8, 0xFC#8, 1#8, 2#8, 3#8, 4#8]

theorem shared_page_loses_code : ∃ outcome e,
    loadUserElf roomyMachine 0x1000#64 sharedPageImage = .ok outcome ∧ outcome.loaded = some e ∧
      ¬ LoadsExactly sharedPageImage (outcome.machine.space e.cr3) := by
  obtain ⟨outcome, e, hload, he, hview⟩ := loadedView_eq_some roomyMachine 0x1000#64
    sharedPageImage (byteAt sharedPageCode.vaddr 0) (some (⟨true, false⟩, 0#8)) (by decide +kernel)
  refine ⟨outcome, e, hload, he, fun h => ?_⟩
  have hheaders : loadHeaders sharedPageImage = [] ++ sharedPageCode :: [sharedPageData] := by
    decide +kernel
  obtain ⟨rights, hfile⟩ := h.file [] _ _ hheaders 0 (by decide) (by decide)
  have hbyte : 0#8 = fileBytes sharedPageImage sharedPageCode 0 :=
    congrArg Prod.snd (Option.some.inj (hview.symm.trans hfile))
  exact absurd hbyte (by decide +kernel)

end Os1.UserProgram
