import Os1.Proc.FrameDraft

/-! When a failed or undone load gives back exactly the frames it took. -/
namespace Os1

open Elf UserElf VirtualMemory PageFrameContainer UserProgram

namespace Draft

/-- Copy the file bytes of a segment. -/
def copySegment (image : Image) (program : Elf64ProgramHeader) (d : Draft) : Draft :=
  { d with
    memory := d.memory.write program.vaddr.toNat program.filesz.toNat (fileBytes image program) }

def loadSegment (image : Image) (program : Elf64ProgramHeader) (d : Draft) : Bool × Draft :=
  match planLoadSegment program (imageSize image) with
  | none => (false, d)
  | some segment =>
    match d.mapPages segment.segmentStart (flagRights segment.pageFlags)
        segment.numPages.toNat 0 with
    | (false, d) => (false, d)
    | (true, d) => (true, d.copySegment image program)

def loadSegments (image : Image) (header : Elf64Header) :
    (remaining i : Nat) → Draft → Bool × Draft
  | 0, _, d => (true, d)
  | remaining + 1, i, d =>
    match programHeader image header i with
    | none => (false, d)
    | some program =>
      if isSkipped program then loadSegments image header remaining (i + 1) d
      else
        match d.loadSegment image program with
        | (false, d) => (false, d)
        | (true, d) => loadSegments image header remaining (i + 1) d

def loadStack (d : Draft) : Bool × Draft :=
  d.mapPages (BitVec.ofNat 64 stackBase) (flagRights stackFlags) kUserStackPages 0

/-- The account of a load that starts with the given free frames. The first one becomes the
root. -/
def load (image : Image) (free : List Nat) : Draft :=
  match acceptedHeader image, free with
  | some header, _ :: free =>
    match { free : Draft }.loadSegments image header header.phnum.toNat 0 with
    | (false, d) => d
    | (true, d) => d.loadStack.2
  | _, free => { free }

/-- Word `k` of a page. -/
def word (d : Draft) (page : BitVec 36) (k : Nat) : BitVec 64 :=
  Memory.load64 (fun x => ((d.memory (BitVec.ofNat 64 x)).map (·.2)).getD 0#8)
    (page.toNat * kPageSize + 8 * k)

/-- Some non-zero word of the loaded pages has the frame in its address field. -/
def Names (d : Draft) (frame : Nat) : Prop :=
  ∃ p ∈ d.pages, ∃ k < 512, d.word p.1 k ≠ 0#64 ∧ entryAddress (d.word p.1 k) = frame * kPageSize

/-- Every lost frame is named by a word of the loaded pages, and those words name no tracked frame
that was taken before the load. -/
structure Reclaims (d : Draft) (before : PageFrameContainer) : Prop where
  lost : ∀ n ∈ d.lost, d.Names n
  named : ∀ n < before.pageCount, d.Names n → before.isFree n = true

end Draft

namespace UserProgram

variable {image : Image} {s : Segment} {l : Loading}
  {vm vm' : VirtualMemory} {d : Draft} {before : PageFrameContainer} {machine : Machine}
  {kernelRootCr3 : BitVec 64}

/-- The draft of a load follows the address space. -/
abbrev Follows (before : PageFrameContainer) (d : Draft) (vm : VirtualMemory) : Prop :=
  Drafts kUserPml4Index before d.lost d vm

theorem mapSegment_follows {ok : Bool} (hsize : image.length < 2 ^ 64)
    (hplan : planLoadSegment s.1 (imageSize image) = some s.2) (h : Follows before d vm)
    (he : mapSegment image s vm = (ok, vm')) :
    (d.loadSegment image s.1).1 = ok ∧ Follows before (d.loadSegment image s.1).2 vm' := by
  have b := segmentBounds hsize hplan
  rw [mapSegment] at he
  rcases hmap : vm.allocateAndMap s.2.segmentStart s.2.numPages s.2.pageFlags with ⟨r, vm1⟩
  obtain ⟨k, -, hm, hr⟩ := segment_mapsPages b h.space hmap
  rw [hmap] at he
  have halloc := hmap
  rw [allocateAndMap, if_neg (by simp [b.numPages_ne, aligned_of_mod b.aligned])] at halloc
  have huser : s.2.pageFlags.user = true := by
    rw [b.flags]
    rfl
  have hwin : ∀ i < s.2.numPages.toNat, InWindow kUserPml4Index (pageAt s.2.segmentStart i) :=
    fun i hi => userPage_inWindow (b.userPage hi)
  obtain ⟨hok, h1⟩ := h.allocatePages (by decide) (aligned_of_mod b.aligned) huser hwin _ 0 0
    (Nat.zero_add _) halloc
  rw [Draft.loadSegment, hplan]
  dsimp only
  rcases e1 : d.mapPages s.2.segmentStart (flagRights s.2.pageFlags) s.2.numPages.toNat 0 with
    ⟨ok1, d1⟩
  rw [e1] at hok h1
  obtain rfl : ok1 = r.isSome := hok
  cases r with
  | none =>
    cases he
    exact ⟨rfl, h1⟩
  | some first =>
    obtain rfl := hr.mp rfl
    obtain ⟨hwrites, hcopy, hview⟩ := segment_copied b hm
    dsimp only at he
    rw [hcopy] at he
    cases he
    refine ⟨rfl, Drafts.writesPages (by decide) h1 hwrites fun va hw => ?_⟩
    rw [hview va hw]
    unfold UserMemory.write
    rw [h1.memory va hw]

theorem loadSegments_follows (hsize : image.length < 2 ^ 64) (header : Elf64Header) (n i : Nat)
    (h : Follows before d l.vm) :
    ∃ r, loadSegments header image n i l = .ok r ∧ (d.loadSegments image header n i).1 = r.1 ∧
      Follows before (d.loadSegments image header n i).2 r.2.vm := by
  induction n generalizing i l d with
  | zero => exact ⟨(true, l), rfl, rfl, h⟩
  | succ n ih =>
    rw [loadSegments, programHeaderFromImage_eq hsize, Draft.loadSegments]
    cases programHeader image header i with
    | none => exact ⟨(false, l), rfl, rfl, h⟩
    | some program =>
      dsimp only [Except.bind]
      split
      · exact ih (i + 1) h
      cases hplan : planLoadSegment program (imageSize image) with
      | none =>
        rw [loadSegment_reject hplan, Draft.loadSegment, hplan]
        exact ⟨(false, l), rfl, rfl, h⟩
      | some segment =>
        rw [loadSegment_eq hsize hplan]
        rcases e1 : mapSegment image (program, segment) l.vm with ⟨ok, vm1⟩
        obtain ⟨hok, h1⟩ := mapSegment_follows (s := (program, segment)) hsize hplan h e1
        rcases e2 : d.loadSegment image program with ⟨ok', d1⟩
        rw [e2] at hok h1
        obtain rfl : ok' = ok := hok
        cases ok' with
        | false => exact ⟨_, rfl, rfl, h1⟩
        | true => exact ih (i + 1) h1

theorem loadStack_follows {ok : Bool} (h : Follows before d vm) (he : loadStack vm = (ok, vm')) :
    Follows before d.loadStack.2 vm' := by
  have hwin : ∀ i < kUserStackPages,
      InWindow kUserPml4Index (pageAt (BitVec.ofNat 64 stackBase) i) := by decide
  rw [UserProgram.loadStack] at he
  rcases hmap : vm.allocateAndMap (BitVec.ofNat 64 stackBase) (BitVec.ofNat 64 kUserStackPages)
    stackFlags with ⟨r, vm1⟩
  rw [hmap] at he
  rw [allocateAndMap, if_neg (by decide)] at hmap
  obtain ⟨-, h1⟩ := h.allocatePages (by decide) (by decide) rfl hwin _ 0 0 rfl hmap
  cases r with
  | none =>
    cases he
    exact h1
  | some first =>
    cases he
    exact h1

/-- A new address space holds its root only. -/
theorem cloneKernelMappings_follows (hframes : machine.frames.Tracked)
    (hready : machine.frames.initialized = true) (hkernel : KernelRoot machine kernelRootCr3)
    (he : machine.newSpace.cloneKernelMappings kernelRootCr3 = (true, vm)) :
    ∃ root free, machine.frames.freeFrames = root :: free ∧
      Follows machine.frames { free } vm := by
  obtain ⟨hprogram, hempty, n, ha, hvm, hroot⟩ :=
    cloneKernelMappings_programSpace hframes hready hkernel he
  obtain ⟨p, hp, -, hf, -, hfree⟩ := freeFrames_of_some hframes ha
  obtain rfl : n = p := Nat.eq_of_mul_eq_mul_right (by decide) hp
  have htables : ∀ q, InSlot kUserPml4Index q → q ≠ [] → vm.tables q = none := by
    intro q hs hne
    obtain ⟨q', j, rfl⟩ := (List.eq_nil_or_concat' q).resolve_left hne
    rw [tables_snoc, entryOf_of_empty_slot hempty hs, nextTable_zero]
  have hpage : ∀ a, ¬ SlotPage kUserPml4Index vm a := by
    intro a hp
    obtain ⟨q, j, hq, -, hne, -⟩ := slotPage_iff.mp hp
    exact hne (entryOf_of_empty_slot hempty hq)
  have hleaf : ∀ va, InWindow kUserPml4Index va → vm.leafOf va = 0#64 := fun va hw =>
    leafOf_of_empty_slot hempty (hw.pageIndex (by decide))
  refine ⟨n, _, hfree, hprogram.space, hprogram.init, hprogram.leaves, ?_, ?_,
    fun q hs hne hl => ?_, fun va hw f => ?_, fun p hp => (by cases hp), fun va hw => ?_,
    fun n hn => (by cases hn), fun m => ?_⟩
  · rw [hvm, (take_shape _ _).pageCount]
  · rw [hvm]
  · rw [htables q hs hne]
    exact ⟨(fun h => by cases h), (fun h => by cases h)⟩
  · rw [hleaf va hw]
    exact ⟨(fun h => by cases h), fun h => (h.1 rfl).elim⟩
  · rw [slotView, hleaf va hw, leafView_zero]
  · have hheld : Held kUserPml4Index vm m ↔ m = n := by
      constructor
      · rintro (⟨q, hs, hl, ht⟩ | hp)
        · by_cases hq : q = []
          · rw [hq, tables_root hprogram.init, hroot] at ht
            exact (Nat.eq_of_mul_eq_mul_right (by decide) (Option.some.inj ht)).symm
          · rw [htables q hs hq] at ht
            cases ht
        · exact (hpage _ hp).elim
      · rintro rfl
        exact Or.inl ⟨[], ⟨by simp, by simp⟩, by simp, by rw [tables_root hprogram.init, hroot]⟩
    rw [hheld, hvm, isFree_take]
    by_cases hm : m = n
    · simp [hm, hf]
    · simp [hm]

/-! ## What the teardown gives back -/

/-- The machine after a failed load, or after a load whose address space is destroyed before the
program runs. -/
def LoadOutcome.reclaimed (outcome : LoadOutcome) : Machine :=
  match outcome.loaded with
  | none => outcome.machine
  | some e => (destroyUserAddressSpace outcome.machine e.cr3).2

/-- A load either takes no frame at all, or its account follows the address space that is
destroyed in the end. -/
theorem load_follows (hsize : image.length < 2 ^ 64) (hframes : machine.frames.Tracked)
    (hready : machine.frames.initialized = true) (hkernel : KernelRoot machine kernelRootCr3) :
    ∃ outcome, loadUserElf machine kernelRootCr3 image = .ok outcome ∧
      (outcome.reclaimed.frames = machine.frames ∧
          Draft.load image machine.frames.freeFrames = { free := machine.frames.freeFrames } ∨
        ∃ vm, Follows machine.frames (Draft.load image machine.frames.freeFrames) vm ∧
          outcome.reclaimed = (destroyUserAddressSpace vm.machine vm.root).2) := by
  rcases loadUserElf_split hsize with ⟨haccept, hnone⟩ | ⟨header, haccept, -, -, hsome⟩
  · refine ⟨_, hnone machine kernelRootCr3, Or.inl ⟨rfl, ?_⟩⟩
    unfold Draft.load
    rw [haccept]
  rw [hsome machine kernelRootCr3, loadAccepted]
  rcases hclone : machine.newSpace.cloneKernelMappings kernelRootCr3 with ⟨_ | _, vm⟩
  · have hnone : machine.frames.allocate = none ∧ vm.frames = machine.frames := by
      rw [VirtualMemory.cloneKernelMappings, ensureRoot, if_neg (by simp [Machine.newSpace])]
        at hclone
      cases ha : machine.newSpace.frames.allocate with
      | none =>
        rw [ha] at hclone
        exact ⟨ha, (congrArg VirtualMemory.frames (Prod.mk.inj hclone).2).symm⟩
      | some r =>
        rw [ha] at hclone
        cases congrArg Prod.fst hclone
    refine ⟨_, rfl, Or.inl ⟨hnone.2, ?_⟩⟩
    unfold Draft.load
    rw [freeFrames_of_none hframes hready hnone.1, haccept]
  · obtain ⟨root, free, hfree, h0⟩ := cloneKernelMappings_follows hframes hready hkernel hclone
    obtain ⟨⟨ok, l⟩, hl, hok, h1⟩ :=
      loadSegments_follows (l := { vm }) hsize header header.phnum.toNat 0 h0
    unfold Draft.load
    rw [hfree, haccept]
    dsimp only
    rw [hl]
    rcases e1 : { free : Draft }.loadSegments image header header.phnum.toNat 0 with ⟨ok', d1⟩
    rw [e1] at hok h1
    obtain rfl : ok' = ok := hok
    cases ok' with
    | false => exact ⟨_, rfl, Or.inr ⟨l.vm, h1, rfl⟩⟩
    | true =>
      rcases hstack : UserProgram.loadStack l.vm with ⟨ok, vm'⟩
      have h2 := loadStack_follows h1 hstack
      refine ⟨_, rfl, Or.inr ⟨vm', h2, ?_⟩⟩
      dsimp only
      rw [finishLoad, hstack]
      cases ok <;> rfl

theorem toNat_pageNumber_window {slot : Nat} {va : BitVec 64} (hslot : slot < 512)
    (hw : InWindow slot va) : (pageNumber va).toNat = va.toNat / kPageSize := by
  unfold InWindow at hw
  rw [toNat_pageNumber]
  unfold kPageSize
  omega

/-- The words of the draft are those of the mapped pages. -/
theorem Follows.word_eq {va : BitVec 64} {k : Nat} (h : Follows before d vm)
    (hw : InWindow kUserPml4Index va) (hne : vm.leafOf va ≠ 0#64) (hk : k < 512) :
    d.word (pageNumber va) k = vm.mem.load64 (entryAddress (vm.leafOf va) + 8 * k) := by
  refine Memory.load64_shift fun i hi => ?_
  have hpage := toNat_pageNumber_window (by decide) hw
  have hlt : va.toNat < 2 ^ 48 := by
    unfold InWindow at hw
    simp only [kUserPml4Index] at hw
    omega
  obtain ⟨x, hx⟩ : ∃ x, x = (pageNumber va).toNat * kPageSize + 8 * k + i := ⟨_, rfl⟩
  have hxva : x / kPageSize = va.toNat / kPageSize ∧ x % kPageSize = 8 * k + i := by
    unfold kPageSize at *
    omega
  have hat : (BitVec.ofNat 64 x).toNat = x := by
    rw [BitVec.toNat_ofNat]
    unfold kPageSize at *
    omega
  have hw' : InWindow kUserPml4Index (BitVec.ofNat 64 x) := by
    unfold InWindow at hw ⊢
    rw [hat]
    unfold kPageSize at *
    omega
  have hnum : pageNumber (BitVec.ofNat 64 x) = pageNumber va := by
    apply BitVec.eq_of_toNat_eq
    rw [toNat_pageNumber_window (by decide) hw', hat, hpage, hxva.1]
  have hleaf : vm.leafOf (BitVec.ofNat 64 x) = vm.leafOf va := by
    obtain ⟨hpath, hindex⟩ := (pageNumber_eq_iff _ _).mp hnum
    rw [leafOf, leafOf, hpath, hindex]
  rw [← hx, ← h.memory _ hw', slotView, hleaf, leafView,
    if_pos (h.leaves va (hw.pageIndex (by decide)) hne), hat, hxva.2, Nat.add_assoc]
  rfl

theorem Follows.names_iff {n : Nat} (h : Follows before d vm) :
    Named kUserPml4Index vm (n * kPageSize) ↔ d.Names n := by
  constructor
  · rintro ⟨a, hp, k, hk, hword⟩
    obtain ⟨va, hw, hne, rfl⟩ := hp.exists_address (by decide)
    obtain ⟨f, -, hf, -⟩ := slotPage_busy h.space hp
    refine ⟨(pageNumber va, f), (h.pages va hw f).mpr ⟨hne, hf⟩, k, hk, ?_⟩
    rw [h.word_eq hw hne hk]
    exact hword
  · rintro ⟨p, hp, k, hk, hword⟩
    obtain ⟨va, hw, hpage⟩ := h.window p hp
    rw [← hpage] at hword
    obtain ⟨hne, -⟩ := (h.pages va hw p.2).mp (by rw [hpage]; exact hp)
    rw [h.word_eq hw hne hk] at hword
    exact ⟨_, slotPage_leafOf (hw.pageIndex (by decide)) hne, k, hk, hword⟩

theorem held_iff {slot n : Nat} (h : UserSpace slot vm) (hinit : vm.initialized = true) :
    Held slot vm n ↔ (SlotTable slot vm (n * kPageSize) ∨ SlotPage slot vm (n * kPageSize)) ∨
      vm.root.toNat = n * kPageSize := by
  constructor
  · rintro (⟨q, hs, hl, ht⟩ | hp)
    · by_cases hq : q = []
      · rw [hq, tables_root hinit] at ht
        exact Or.inr (Option.some.inj ht)
      · obtain ⟨q', j, rfl⟩ := (List.eq_nil_or_concat' q).resolve_left hq
        refine Or.inl (Or.inl ⟨_, hs, hl, nodeAt_snoc.mpr ?_⟩)
        rw [tables_snoc, nextTable] at ht
        split at ht
        next htable => exact ⟨(isTableEntry_iff.mp htable).1, Option.some.inj ht⟩
        · cases ht
    · exact Or.inl (Or.inr hp)
  · rintro ((⟨p, hs, hl, hn⟩ | hp) | hroot)
    · rcases h.nodeAt_cases hs (by omega) hn with ⟨h3, ht⟩ | ⟨q, j, rfl, h3, -, -⟩
      · exact Or.inl ⟨p, hs, h3, ht⟩
      · rw [List.length_append, h3, List.length_singleton] at hl
        exact absurd hl (by decide)
    · exact Or.inr hp
    · exact Or.inl ⟨[], ⟨by simp, by simp⟩, by simp, by rw [tables_root hinit, hroot]⟩

/-- After the teardown a frame is free when it was free, held, or named by a page. -/
theorem Follows.isFree_destroyed {n : Nat} (h : Follows before d vm)
    (hzero : before.isFree 0 = false) :
    (destroyUserAddressSpace vm.machine vm.root).2.frames.isFree n = true ↔
      vm.frames.isFree n = true ∨ Held kUserPml4Index vm n ∨
        n < before.pageCount ∧ d.Names n := by
  obtain ⟨r, hr, hroot, -⟩ :=
    h.space.tree.owned [] _ ⟨by simp, by simp⟩ (by simp) (tables_root h.init)
  have hheld : Held kUserPml4Index vm r := (held_iff h.space h.init).mpr (Or.inr hroot)
  have hne : vm.root ≠ 0#64 := by
    intro h0
    have hr0 : r = 0 := by
      rw [h0] at hroot
      unfold kPageSize at hroot
      simp at hroot
      omega
    have hfree := (h.account r).mpr (Or.inr (Or.inl hheld))
    rw [hr0, hzero] at hfree
    cases hfree
  have hlt : Held kUserPml4Index vm n → n < before.pageCount := by
    intro hn
    obtain ⟨m, hm, heq, -⟩ : Busy vm.frames (n * kPageSize) := by
      rcases hn with ⟨q, hs, hl, ht⟩ | hp
      · exact h.space.tree.owned q _ hs hl ht
      · exact slotPage_busy h.space hp
    rwa [Nat.eq_of_mul_eq_mul_right (by decide) heq, ← h.pageCount]
  have hframes : (destroyUserAddressSpace vm.machine vm.root).2.frames =
      (subFrames vm.mem 4 (vm.entryOf [] kUserPml4Index) ++ [vm.root.toNat]).foldl release
        vm.frames := by
    rw [destroyUserAddressSpace, if_neg hne, machine_space h.space h.init, List.foldl_append,
      ← (h.space.destroyUserSlot_destroys (by decide)).frames]
    rfl
  rw [hframes, isFree_foldl_release_iff h.space.tree.tracked h.space.ready fun a ha => ?_,
    List.mem_append, h.space.mem_destroyed (by decide), List.mem_singleton, h.names_iff,
    h.pageCount]
  · rw [held_iff h.space h.init] at hlt ⊢
    refine or_congr_right ⟨?_, ?_⟩
    · rintro ⟨hn, (htable | hpage | hnamed) | heq⟩
      · exact Or.inl (Or.inl (Or.inl htable))
      · exact Or.inl (Or.inl (Or.inr hpage))
      · exact Or.inr ⟨hn, hnamed⟩
      · exact Or.inl (Or.inr heq.symm)
    · rintro (hn | ⟨hn, hnamed⟩)
      · refine ⟨hlt hn, ?_⟩
        rcases hn with (htable | hpage) | heq
        · exact Or.inl (Or.inl htable)
        · exact Or.inl (Or.inr (Or.inl hpage))
        · exact Or.inr heq.symm
      · exact ⟨hn, Or.inl (Or.inr (Or.inr hnamed))⟩
  · rcases List.mem_append.mp ha with ha | ha
    · exact aligned_of_mem_subFrames ha
    · rw [List.mem_singleton.mp ha, hroot]
      exact Nat.mul_mod_left r kPageSize

/-- The teardown restores the free frames exactly when the words of the pages make up for what was
lost and name nothing else that was taken. -/
theorem Follows.reclaims_iff (h : Follows before d vm) (hzero : before.isFree 0 = false) :
    (∀ n, (destroyUserAddressSpace vm.machine vm.root).2.frames.isFree n = before.isFree n) ↔
      d.Reclaims before := by
  have hdestroyed := fun n => h.isFree_destroyed (n := n) hzero
  constructor
  · intro hall
    refine ⟨fun n hn => ?_, fun n hlt hnamed => ?_⟩
    · have hready := h.ready n hn
      have hfree := hall n
      rw [(h.account n).mpr (Or.inr (Or.inr hn)), hdestroyed] at hfree
      rcases hfree with hfree | (⟨q, hs, hl, ht⟩ | hpage) | ⟨-, hnamed⟩
      · cases (hready.busy.not_free rfl).symm.trans hfree
      · exact (hready.notTable q hs hl ht).elim
      · obtain ⟨q, j, hs, hl, hne, haddr⟩ := slotPage_iff.mp hpage
        exact (hready.notLeaf q j hs hl hne haddr).elim
      · exact hnamed
    · rw [← hall n]
      exact (hdestroyed n).mpr (Or.inr (Or.inr ⟨hlt, hnamed⟩))
  · intro hreclaims n
    rw [Bool.eq_iff_iff, hdestroyed, h.account n]
    constructor
    · rintro (hfree | hheld | ⟨hlt, hnamed⟩)
      · exact Or.inl hfree
      · exact Or.inr (Or.inl hheld)
      · exact (h.account n).mp (hreclaims.named n hlt hnamed)
    · rintro (hfree | hheld | hn)
      · exact Or.inl hfree
      · exact Or.inr (Or.inl hheld)
      · refine Or.inr (Or.inr ⟨?_, hreclaims.lost n hn⟩)
        obtain ⟨m, hm, heq, -⟩ := (h.ready n hn).busy
        rwa [Nat.eq_of_mul_eq_mul_right (by decide) heq, ← h.pageCount]

/-- A load that fails, or whose address space is destroyed before the program runs, leaves the free
frames as they were exactly when its account reclaims them. -/
theorem load_reclaims_iff {outcome : LoadOutcome} (hsize : image.length < 2 ^ 64)
    (hframes : machine.frames.Tracked) (hready : machine.frames.initialized = true)
    (hzero : machine.frames.isFree 0 = false) (hkernel : KernelRoot machine kernelRootCr3)
    (h : loadUserElf machine kernelRootCr3 image = .ok outcome) :
    (∀ n, outcome.reclaimed.frames.isFree n = machine.frames.isFree n) ↔
      (Draft.load image machine.frames.freeFrames).Reclaims machine.frames := by
  obtain ⟨outcome', hload, hcases⟩ := load_follows hsize hframes hready hkernel
  obtain rfl := Except.ok.inj (hload.symm.trans h)
  rcases hcases with ⟨hsame, hdraft⟩ | ⟨vm, hfollows, hreclaimed⟩
  · rw [hsame, hdraft]
    refine iff_of_true (fun _ => rfl) ⟨fun n hn => (by cases hn), fun n _ hnamed => ?_⟩
    obtain ⟨p, hp, -⟩ := hnamed
    cases hp
  · rw [hreclaimed]
    exact hfollows.reclaims_iff hzero

end UserProgram
end Os1
