import Os1.Mm.PageOps

/-!
# Address spaces as maps

A 4 KiB address space is for callers a map from virtual page numbers to frames and flags. The
page tables implement that map.
-/

namespace Os1

/-- Bits 12 to 47 of a virtual address. -/
def pageNumber (va : BitVec 64) : BitVec 36 := va.extractLsb' 12 36

/-- What a page is mapped to. -/
structure Mapping where
  frame : BitVec 64
  flags : BitVec 64
  deriving DecidableEq, Repr

/-- Keys range over a finite type, so this is a finite map. -/
abbrev PageMap := BitVec 36 → Option Mapping

namespace PageMap

def empty : PageMap := fun _ => none

def set (m : PageMap) (p : BitVec 36) (v : Option Mapping) : PageMap :=
  fun p' => if p' = p then v else m p'

def translate (m : PageMap) (va : BitVec 64) : Option (BitVec 64 × BitVec 64) :=
  (m (pageNumber va)).map fun v => (v.frame ||| (va &&& kPageOffsetMask), v.flags)

/-- The flags a mapping is given. -/
def mappingFlags (flags : PageFlags) : BitVec 64 := flags.withPresent.toWord

/-- Map the first `k` pages at `va` to consecutive frames from `pa`. -/
def mapPages (m : PageMap) (va pa : BitVec 64) (flags : PageFlags) : Nat → PageMap
  | 0 => m
  | k + 1 => (mapPages m va pa flags k).set (pageNumber (pageAt va k))
      (some ⟨pageAt pa k, mappingFlags flags⟩)

/-- Map the pages at `va` to the listed frames, the last one first in the list. -/
def mapFrames (m : PageMap) (va : BitVec 64) (flags : PageFlags) : List Nat → PageMap
  | [] => m
  | f :: fs => (mapFrames m va flags fs).set (pageNumber (pageAt va fs.length))
      (some ⟨BitVec.ofNat 64 (f * kPageSize), mappingFlags flags⟩)

/-- Change the flags of the first `k` pages at `va`. -/
def protectPages (m : PageMap) (va : BitVec 64) (flags : PageFlags) : Nat → PageMap
  | 0 => m
  | k + 1 =>
    let m' := protectPages m va flags k
    m'.set (pageNumber (pageAt va k))
      ((m' (pageNumber (pageAt va k))).map fun v => ⟨v.frame, mappingFlags flags⟩)

/-- Remove the first `k` pages at `va`. -/
def unmapPages (m : PageMap) (va : BitVec 64) : Nat → PageMap
  | 0 => m
  | k + 1 => (unmapPages m va k).set (pageNumber (pageAt va k)) none

end PageMap

/-- The 4 KiB operations of an address space. -/
inductive PageOp where
  | mapPhysical (va pa n : BitVec 64) (flags : PageFlags)
  | allocateAndMap (va n : BitVec 64) (flags : PageFlags)
  | protect (va n : BitVec 64) (flags : PageFlags)
  | free (va n : BitVec 64)
  deriving DecidableEq, Repr

namespace PageOp

/-- The result and the state after a call. -/
def exec : PageOp → VirtualMemory → Bool × VirtualMemory
  | mapPhysical va pa n flags, vm => vm.mapPhysical va pa n flags
  | allocateAndMap va n flags, vm =>
    ((vm.allocateAndMap va n flags).1.isSome, (vm.allocateAndMap va n flags).2)
  | protect va n flags, vm => vm.protect va n flags
  | free va n, vm => vm.freeRange va n

def start : PageOp → BitVec 64
  | mapPhysical va _ _ _ | allocateAndMap va _ _ | protect va _ _ | free va _ => va

def count : PageOp → Nat
  | mapPhysical _ _ n _ | allocateAndMap _ n _ | protect _ n _ | free _ n => n.toNat

/-- Calls for no page or with an unaligned address are refused. -/
def Refused : PageOp → Prop
  | mapPhysical va pa n _ =>
    n = 0#64 ∨ va &&& kPageOffsetMask ≠ 0#64 ∨ pa &&& kPageOffsetMask ≠ 0#64
  | allocateAndMap va n _ | protect va n _ | free va n =>
    n = 0#64 ∨ va &&& kPageOffsetMask ≠ 0#64

/-- The page lies in the range of the call. -/
def Touches (op : PageOp) (p : BitVec 36) : Prop :=
  ∃ i, i < op.count ∧ p = pageNumber (pageAt op.start i)

/-- What a call that handles its first `k` pages does to the map. The frames of
`allocate_and_map` are distinct and were free before the call; `protect` and `free` stop at the
first page that is not mapped. -/
def Effect (frames : PageFrameContainer) (k : Nat) (m m' : PageMap) : PageOp → Prop
  | mapPhysical va pa _ flags => m' = m.mapPages va pa flags k
  | allocateAndMap va _ flags => ∃ fs : List Nat, fs.length = k ∧ fs.Nodup ∧
      (∀ f ∈ fs, frames.isFree f = true) ∧ m' = m.mapFrames va flags fs
  | protect va n flags => m' = m.protectPages va flags k ∧
      (∀ i < k, m.protectPages va flags i (pageNumber (pageAt va i)) ≠ none) ∧
      (k < n.toNat → m' (pageNumber (pageAt va k)) = none)
  | free va n => m' = m.unmapPages va k ∧
      (∀ i < k, m.unmapPages va i (pageNumber (pageAt va i)) ≠ none) ∧
      (k < n.toNat → m' (pageNumber (pageAt va k)) = none)

/-- The abstract step: a refused call changes nothing; any other handles all its pages and
returns true, or a proper part of them and returns false. -/
def AbstractStep (frames : PageFrameContainer) (op : PageOp) (ok : Bool) (m m' : PageMap) : Prop :=
  (op.Refused ∧ ok = false ∧ m' = m) ∨
    (¬ op.Refused ∧ ∃ k ≤ op.count, op.Effect frames k m m' ∧ (ok = true ↔ k = op.count))

/-- Physical addresses fit the address field of an entry. -/
def Addressable : PageOp → Prop
  | mapPhysical _ pa n _ => pa.toNat + n.toNat * kPageSize ≤ 2 ^ 52
  | _ => True

section Outside

variable {m m' : PageMap} {va : BitVec 64} {p : BitVec 36} {k : Nat}

/-- A chain of updates at the pages from `va` leaves every other page. -/
theorem chain_outside {M : Nat → PageMap}
    (hM : ∀ k, ∃ v, M (k + 1) = (M k).set (pageNumber (pageAt va k)) v)
    (hp : ∀ i < k, p ≠ pageNumber (pageAt va i)) : M k p = M 0 p := by
  induction k with
  | zero => rfl
  | succ k ih =>
    obtain ⟨v, hv⟩ := hM k
    rw [hv, PageMap.set, if_neg (hp k (by omega)), ih (fun i hi => hp i (by omega))]

theorem mapFrames_outside (fs : List Nat) (flags : PageFlags)
    (hp : ∀ i < fs.length, p ≠ pageNumber (pageAt va i)) : m.mapFrames va flags fs p = m p := by
  induction fs with
  | nil => rfl
  | cons f fs ih =>
    rw [PageMap.mapFrames, PageMap.set, if_neg (hp fs.length (by simp)),
      ih (fun i hi => hp i (by simp; omega))]

theorem AbstractStep.outside {frames : PageFrameContainer} {op : PageOp} {ok : Bool}
    (h : op.AbstractStep frames ok m m') (hp : ¬ op.Touches p) : m' p = m p := by
  rcases h with ⟨-, -, rfl⟩ | ⟨-, k, hk, he, -⟩
  · rfl
  have hout : ∀ i < k, p ≠ pageNumber (pageAt op.start i) := fun i hi heq =>
    hp ⟨i, lt_of_lt_of_le hi hk, heq⟩
  cases op with
  | mapPhysical va pa n flags =>
    unfold Effect at he
    rw [he]
    exact chain_outside (M := m.mapPages va pa flags) (fun k => ⟨_, rfl⟩) hout
  | allocateAndMap va n flags =>
    obtain ⟨fs, rfl, -, -, rfl⟩ := he
    exact mapFrames_outside fs flags hout
  | protect va n flags =>
    rw [he.1]
    exact chain_outside (M := m.protectPages va flags) (fun k => ⟨_, rfl⟩) hout
  | free va n =>
    rw [he.1]
    exact chain_outside (M := m.unmapPages va) (fun k => ⟨_, rfl⟩) hout

end Outside

/-- Run the calls in order. -/
def run (ops : List PageOp) (vm : VirtualMemory) : VirtualMemory :=
  ops.foldl (fun vm op => (op.exec vm).2) vm

end PageOp

/-! ## Page numbers and table indices -/

theorem pageIndex_eq (va : BitVec 64) (s : Nat) : pageIndex va s = va.toNat / 2 ^ s % 512 := by
  rw [pageIndex, BitVec.toNat_and, BitVec.toNat_ushiftRight, Nat.shiftRight_eq_div_pow,
    show (0x1FF#64).toNat = 2 ^ 9 - 1 from rfl, Nat.and_two_pow_sub_one_eq_mod]

theorem toNat_pageNumber (va : BitVec 64) : (pageNumber va).toNat = va.toNat / 2 ^ 12 % 2 ^ 36 := by
  simp [pageNumber, Nat.shiftRight_eq_div_pow]

/-- The page number is the four table indices together. -/
theorem pageNumber_eq_iff (va va' : BitVec 64) :
    pageNumber va = pageNumber va' ↔
      VirtualMemory.leafPath va = VirtualMemory.leafPath va' ∧
        pageIndex va 12 = pageIndex va' 12 := by
  rw [← BitVec.toNat_inj, toNat_pageNumber, toNat_pageNumber]
  simp only [VirtualMemory.leafPath, List.cons.injEq, and_true, pageIndex_eq]
  omega

namespace VirtualMemory

open PageFrameContainer

variable {vm vm' : VirtualMemory} {m : PageMap} {va pa e : BitVec 64} {flags : PageFlags} {g : Nat}
  {ok : Bool}

/-- Every slot of the root belongs to the address space. -/
abbrev AllSlots : Nat → Prop := fun _ => True

/-- The mapping a leaf entry stands for. -/
def decodeLeaf (e : BitVec 64) : Option Mapping :=
  if e = 0#64 then none else some ⟨e &&& kEntryAddressMask, e &&& ~~~kEntryAddressMask⟩

/-- The tables hold exactly the mappings of `m`. -/
structure Implements (vm : VirtualMemory) (m : PageMap) : Prop where
  noLarge : ∀ va, NoLargePage vm va
  leaf : ∀ va, decodeLeaf (vm.leafOf va) = m (pageNumber va)

theorem Implements.translate (h : Implements vm m) (ht : Tree AllSlots vm) (va : BitVec 64) :
    vm.translate va = m.translate va := by
  have hlarge : vm.mapped (midPath va) (pageIndex va 21) = 0#64 := h.noLarge va
  have hleaf := h.leaf va
  rw [translate_eq_lookup ht trivial, PageMap.translate, ← hleaf, lookup, decodeLeaf, leafOf]
  by_cases h0 : vm.mapped (leafPath va) (pageIndex va 12) = 0#64 <;> simp [hlarge, h0]

theorem allSlots_path (va : BitVec 64) : InSlots AllSlots (leafPath va ++ [pageIndex va 12]) :=
  leafPath_inSlots va trivial (pageIndex_lt va 12)

theorem Implements.grow (h : Implements vm m) (hg : Grows AllSlots 3 vm vm') :
    Implements vm' m := by
  refine ⟨fun va => hg.noLargePage trivial (h.noLarge va), fun va => ?_⟩
  rw [← h.leaf va, leafOf, leafOf,
    hg.mapped (leafPath va) _ (allSlots_path va) (by simp [leafPath])]

theorem leafOf_setLeaf (ht : Tree AllSlots vm) (hg : vm.tables (leafPath va) = some g)
    (va' : BitVec 64) : (vm.setLeaf g va e).leafOf va' =
      if pageNumber va' = pageNumber va then e else vm.leafOf va' := by
  rw [leafOf, mapped_setLeaf ht trivial hg (allSlots_path va') (by simp [leafPath])]
  simp only [pageNumber_eq_iff, leafOf]

/-- Writing a leaf entry updates the map at one page. -/
theorem Implements.setLeaf (h : Implements vm m) (ht : Tree AllSlots vm)
    (hg : vm.tables (leafPath va) = some g) :
    Implements (vm.setLeaf g va e) (m.set (pageNumber va) (decodeLeaf e)) := by
  refine ⟨fun va' => ?_, fun va' => ?_⟩
  · unfold NoLargePage
    rw [mapped_setLeaf ht trivial hg (allSlots_path va').of_append.of_append (by simp [midPath]),
      if_neg (by simp [midPath, leafPath])]
    exact h.noLarge va'
  · rw [leafOf_setLeaf ht hg, PageMap.set]
    split
    · rfl
    · exact h.leaf va'

/-- Clearing a leaf entry removes its page from the map. -/
theorem Implements.clearLeaf (h : Implements vm m) (ht : Tree AllSlots vm)
    (hg : vm.tables (leafPath va) = some g) :
    Implements (vm.clearLeaf g va) (m.set (pageNumber va) none) := by
  have hset := h.setLeaf (e := 0#64) ht hg
  exact ⟨hset.noLarge, hset.leaf⟩

theorem Implements.zeroFrame {n : Nat} (h : Implements vm m) (ht : Tree AllSlots vm)
    (hf : vm.frames.isFree n = true) : Implements (vm.zeroFrame n) m := by
  obtain ⟨-, hentry⟩ := ht.zeroFrame_same hf
  refine ⟨fun va => ?_, fun va => ?_⟩
  · unfold NoLargePage
    rw [mapped_congr (hentry _ _ (allSlots_path va).of_append.of_append (by simp [midPath]))]
    exact h.noLarge va
  · rw [leafOf, mapped_congr (hentry _ _ (allSlots_path va) (by simp [leafPath]))]
    exact h.leaf va

/-! ## Leaf words and mappings -/

theorem and_not_of_masked {a f m : BitVec 64} (ha : a &&& m = a) (hf : f &&& m = 0#64) :
    (a ||| f) &&& ~~~m = f := by
  apply BitVec.eq_of_getLsbD_eq
  intro k hk
  have ha' : (a &&& m).getLsbD k = a.getLsbD k := by rw [ha]
  have hf' : (f &&& m).getLsbD k = false := by rw [hf]; simp
  simp only [BitVec.getLsbD_and, BitVec.getLsbD_or, BitVec.getLsbD_not, hk, decide_true,
    Bool.true_and] at ha' hf' ⊢
  cases ham : a.getLsbD k <;> cases hm : m.getLsbD k <;> cases hfm : f.getLsbD k <;> simp_all

theorem decodeLeaf_or {a : BitVec 64} (ha : a &&& kEntryAddressMask = a) (flags : PageFlags) :
    decodeLeaf (a ||| flagsToEntry flags.withPresent) =
      some ⟨a, PageMap.mappingFlags flags⟩ := by
  have hne : a ||| flagsToEntry flags.withPresent ≠ 0#64 :=
    or_ne_zero_of_right (toWord_withPresent_ne_zero flags)
  have hflags : flagsToEntry flags.withPresent &&& kEntryAddressMask = 0#64 := toWord_and_mask _
  rw [decodeLeaf, if_neg hne, and_or_of_masked ha hflags, and_not_of_masked ha hflags]
  rfl

theorem decodeLeaf_leafWord {i n : Nat} (ha : pa &&& kPageOffsetMask = 0#64)
    (hpa : pa.toNat + n * kPageSize ≤ 2 ^ 52) (hi : i < n) (flags : PageFlags) :
    decodeLeaf (leafWord pa flags i) = some ⟨pageAt pa i, PageMap.mappingFlags flags⟩ := by
  have hmask : pageAt pa i &&& kEntryAddressMask = pageAt pa i := by
    apply and_kEntryAddressMask_of_aligned (pageAt_aligned ha i)
    rw [pageAt, BitVec.toNat_add, BitVec.toNat_ofNat]
    unfold kPageSize at *
    omega
  rw [leafWord, hmask, decodeLeaf_or hmask]

theorem decodeLeaf_frameWord {f : Nat} (hf : f < 2 ^ 40) (flags : PageFlags) :
    decodeLeaf (frameWord f flags) =
      some ⟨BitVec.ofNat 64 (f * kPageSize), PageMap.mappingFlags flags⟩ := by
  have hmask := frame_and_kEntryAddressMask hf
  rw [frameWord, leafWord, pageAt_zero, hmask, decodeLeaf_or hmask]
  rfl

theorem decodeLeaf_protect (he : e ≠ 0#64) (flags : PageFlags) :
    decodeLeaf ((e &&& kEntryAddressMask) ||| flagsToEntry flags.withPresent) =
      (decodeLeaf e).map fun v => ⟨v.frame, PageMap.mappingFlags flags⟩ := by
  have hmask : (e &&& kEntryAddressMask) &&& kEntryAddressMask = e &&& kEntryAddressMask := by
    rw [BitVec.and_assoc, BitVec.and_self]
  rw [decodeLeaf_or hmask, decodeLeaf, if_neg he]
  rfl

theorem decodeLeaf_eq_none : decodeLeaf e = none ↔ e = 0#64 := by
  unfold decodeLeaf
  split <;> simp_all

/-! ## The operations -/

theorem Implements.rootOnly (h : Implements vm m) (hg : RootOnly AllSlots vm vm') :
    Implements vm' m :=
  h.grow (hg.grows.mono (by decide) (by decide))

theorem mapPhysical_implements {n : BitVec 64} (h : Implements vm m) (ht : Tree AllSlots vm)
    (hpa : pa.toNat + n.toNat * kPageSize ≤ 2 ^ 52)
    (hr : ¬ (PageOp.mapPhysical va pa n flags).Refused)
    (he : vm.mapPhysical va pa n flags = (ok, vm')) :
    Tree AllSlots vm' ∧ ∃ k ≤ n.toNat, Implements vm' (m.mapPages va pa flags k) ∧
      (ok = true ↔ k = n.toNat) := by
  unfold PageOp.Refused at hr
  rw [mapPhysical, if_neg hr] at he
  have haligned : pa &&& kPageOffsetMask = 0#64 := by
    by_contra hne
    exact hr (Or.inr (Or.inr hne))
  refine mapPhysicalPages_rule (I := fun i s => Implements s (m.mapPages va pa flags i))
    ⟨fun _ _ => trivial, fun i s _ _ hs => hs.noLarge _, fun i s s' hs _ _ hg => hs.grow hg⟩ ?_
    n.toNat 0 (Nat.zero_add _) ht h he
  intro i s g hi hts hs hg
  rw [PageMap.mapPages, ← decodeLeaf_leafWord haligned hpa hi flags]
  exact hs.setLeaf hts hg

/-- The pages `protect` and `free` have passed were mapped. -/
def AllMapped (M : Nat → PageMap) (va : BitVec 64) (k : Nat) : Prop :=
  ∀ i < k, M i (pageNumber (pageAt va i)) ≠ none

theorem AllMapped.succ {M : Nat → PageMap} {i : Nat} (h : AllMapped M va i)
    (hs : Implements vm (M i)) (hne : vm.leafOf (pageAt va i) ≠ 0#64) : AllMapped M va (i + 1) := by
  intro i' hi'
  by_cases hlast : i' = i
  · subst hlast
    rw [← hs.leaf (pageAt va i')]
    exact fun hc => hne (decodeLeaf_eq_none.mp hc)
  · exact h i' (by omega)

theorem protect_implements {n : BitVec 64} (h : Implements vm m) (ht : Tree AllSlots vm)
    (hr : ¬ (PageOp.protect va n flags).Refused) (he : vm.protect va n flags = (ok, vm')) :
    Tree AllSlots vm' ∧ ∃ k ≤ n.toNat, Implements vm' (m.protectPages va flags k) ∧
      AllMapped (m.protectPages va flags) va k ∧ (ok = true ↔ k = n.toNat) ∧
      (k < n.toNat → vm'.leafOf (pageAt va k) = 0#64) := by
  unfold PageOp.Refused at hr
  rw [protect, if_neg hr] at he
  have hrule := protectPages_rule (I := fun i s => Implements s (m.protectPages va flags i) ∧
      AllMapped (m.protectPages va flags) va i)
    ⟨fun _ _ => trivial, fun i s _ _ hs => hs.1.noLarge _,
      fun i s s' hs _ _ hg => ⟨hs.1.rootOnly hg, hs.2⟩⟩ ?_
    n.toNat 0 (Nat.zero_add _) ht ⟨h, fun i hi => absurd hi (by omega)⟩ he
  · obtain ⟨ht', k, hk, ⟨hI, hmapped⟩, hok, hstop⟩ := hrule
    exact ⟨ht', k, hk, hI, hmapped, hok, hstop⟩
  · intro i s g _ hts hs hg hne
    refine ⟨?_, hs.2.succ hs.1 hne⟩
    have hset := hs.1.setLeaf (e := (s.leafOf (pageAt va i) &&& kEntryAddressMask) |||
      flagsToEntry flags.withPresent) hts hg
    rw [decodeLeaf_protect hne, hs.1.leaf (pageAt va i)] at hset
    exact hset

/-- No page is mapped to a page table. -/
def TablesUnmapped (vm : VirtualMemory) : Prop :=
  ∀ va q, vm.leafOf va ≠ 0#64 → InSlots AllSlots q → q.length ≤ 3 →
    vm.tables q ≠ some (entryAddress (vm.leafOf va))

theorem TablesUnmapped.rootOnly (h : TablesUnmapped vm) (hg : RootOnly AllSlots vm vm') :
    TablesUnmapped vm' := by
  rcases hg with rfl | ⟨-, h0⟩
  · exact h
  · intro va q hne
    rw [leafOf, mapped_leaf, (h0 _ _ (allSlots_path va)).2] at hne
    exact (hne rfl).elim

theorem TablesUnmapped.clearLeaf (h : TablesUnmapped vm) (ht : Tree AllSlots vm)
    (hg : vm.tables (leafPath va) = some g) : TablesUnmapped (vm.clearLeaf g va) := by
  intro va' q hne hq hl
  have hleaf : (vm.clearLeaf g va).leafOf va' =
      if pageNumber va' = pageNumber va then 0#64 else vm.leafOf va' := leafOf_setLeaf ht hg va'
  rw [hleaf] at hne ⊢
  split at hne
  · exact (hne rfl).elim
  · rename_i hva
    rw [if_neg hva, show (vm.clearLeaf g va).tables q = _ from tables_setLeaf ht trivial hg hq hl]
    exact h va' q hne hq hl

theorem freeRange_implements {n : BitVec 64} (h : Implements vm m) (ht : Tree AllSlots vm)
    (hu : TablesUnmapped vm) (hr : ¬ (PageOp.free va n).Refused)
    (he : vm.freeRange va n = (ok, vm')) :
    Tree AllSlots vm' ∧ ∃ k ≤ n.toNat, Implements vm' (m.unmapPages va k) ∧
      AllMapped (m.unmapPages va) va k ∧ (ok = true ↔ k = n.toNat) ∧
      (k < n.toNat → vm'.leafOf (pageAt va k) = 0#64) := by
  unfold PageOp.Refused at hr
  rw [freeRange, if_neg hr] at he
  have hrule := freePages_rule (I := fun i s => TablesUnmapped s ∧
      Implements s (m.unmapPages va i) ∧ AllMapped (m.unmapPages va) va i)
    ⟨fun _ _ => trivial, fun i s _ _ hs => hs.2.1.noLarge _,
      fun i s s' hs _ _ hg => ⟨hs.1.rootOnly hg, hs.2.1.rootOnly hg, hs.2.2⟩⟩
    (fun i s _ _ hs hne q hq hl => hs.1 _ q hne hq hl) ?_
    n.toNat 0 (Nat.zero_add _) ht ⟨hu, h, fun i hi => absurd hi (by omega)⟩ he
  · obtain ⟨ht', k, hk, ⟨-, hI, hmapped⟩, hok, hstop⟩ := hrule
    exact ⟨ht', k, hk, hI, hmapped, hok, hstop⟩
  · intro i s g _ hts hs hg hne
    exact ⟨hs.1.clearLeaf hts hg, hs.2.1.clearLeaf hts hg, hs.2.2.succ hs.2.1 hne⟩

/-- The frames an allocation has mapped so far: distinct, free before the call, taken now. -/
structure FreshFrames (before now : PageFrameContainer) (fs : List Nat) : Prop where
  nodup : fs.Nodup
  free : ∀ f ∈ fs, before.isFree f = true
  taken : ∀ f ∈ fs, now.isFree f = false

/-- In the middle of `allocate_and_map`: `i` pages are mapped and the frames in `pending` are
taken but not mapped. No frame has become free since the call began. -/
def Allocating (before : PageFrameContainer) (m : PageMap) (va : BitVec 64) (flags : PageFlags)
    (pending : List Nat) (i : Nat) (s : VirtualMemory) : Prop :=
  (∀ f, s.frames.isFree f = true → before.isFree f = true) ∧ ∃ fs : List Nat, fs.length = i ∧
    FreshFrames before s.frames (pending ++ fs) ∧ Implements s (m.mapFrames va flags fs)

section Allocating

variable {before : PageFrameContainer} {pending : List Nat} {i f : Nat}

theorem Allocating.grow (h : Allocating before m va flags pending i vm)
    (hg : Grows AllSlots 3 vm vm') : Allocating before m va flags pending i vm' := by
  obtain ⟨hold, fs, hlen, hfresh, hI⟩ := h
  refine ⟨fun f' hf' => hold f' (hg.kept f' hf'), fs, hlen, ⟨hfresh.nodup, hfresh.free, ?_⟩,
    hI.grow hg⟩
  intro f' hf'
  by_contra hfree
  have := hg.kept f' (by simpa using hfree)
  rw [hfresh.taken f' hf'] at this
  exact absurd this (by simp)

theorem Allocating.take (h : Allocating before m va flags [] i vm) (ht : Tree AllSlots vm)
    (hf : vm.frames.isFree f = true) : Allocating before m va flags [f] i (vm.zeroFrame f) := by
  obtain ⟨hold, fs, hlen, hfresh, hI⟩ := h
  refine ⟨fun f' hf' => ?_, fs, hlen, ⟨?_, ?_, ?_⟩, hI.zeroFrame ht hf⟩
  · simp only [zeroFrame, isFree_take, Bool.and_eq_true] at hf'
    exact hold f' hf'.1
  · refine List.nodup_cons.mpr ⟨fun hmem => ?_, hfresh.nodup⟩
    rw [hfresh.taken f hmem] at hf
    exact absurd hf (by simp)
  · intro f' hf'
    rcases List.mem_cons.mp hf' with rfl | hmem
    · exact hold f' hf
    · exact hfresh.free f' hmem
  · intro f' hf'
    rcases List.mem_cons.mp hf' with rfl | hmem
    · simp [zeroFrame, isFree_take]
    · simp [zeroFrame, isFree_take, hfresh.taken f' hmem]

theorem Allocating.leak (h : Allocating before m va flags [f] i vm) :
    Allocating before m va flags [] i vm := by
  obtain ⟨hold, fs, hlen, hfresh, hI⟩ := h
  exact ⟨hold, fs, hlen, ⟨(List.nodup_cons.mp hfresh.nodup).2,
    fun f' hf' => hfresh.free f' (List.mem_cons_of_mem _ hf'),
    fun f' hf' => hfresh.taken f' (List.mem_cons_of_mem _ hf')⟩, hI⟩

theorem Allocating.map (h : Allocating before m va flags [f] i vm) (ht : Tree AllSlots vm)
    (hf : f < 2 ^ 40) (hg : vm.tables (leafPath (pageAt va i)) = some g) :
    Allocating before m va flags [] (i + 1)
      (vm.setLeaf g (pageAt va i) (frameWord f flags)) := by
  obtain ⟨hold, fs, hlen, hfresh, hI⟩ := h
  refine ⟨hold, f :: fs, by simp [hlen], hfresh, ?_⟩
  rw [PageMap.mapFrames, ← decodeLeaf_frameWord hf flags, hlen]
  exact hI.setLeaf ht hg

end Allocating

theorem allocateAndMap_implements {n : BitVec 64} {r : Option Nat} (h : Implements vm m)
    (ht : Tree AllSlots vm) (hr : ¬ (PageOp.allocateAndMap va n flags).Refused)
    (he : vm.allocateAndMap va n flags = (r, vm')) :
    Tree AllSlots vm' ∧ ∃ k ≤ n.toNat, (∃ fs : List Nat, fs.length = k ∧ fs.Nodup ∧
      (∀ f ∈ fs, vm.frames.isFree f = true) ∧ Implements vm' (m.mapFrames va flags fs)) ∧
      (r.isSome = true ↔ k = n.toNat) := by
  unfold PageOp.Refused at hr
  rw [allocateAndMap, if_neg hr] at he
  have haligned : va &&& kPageOffsetMask = 0#64 := by
    by_contra hne
    exact hr (Or.inr hne)
  have hstart : Allocating vm.frames m va flags [] 0 vm :=
    ⟨fun _ hf => hf, [], rfl, ⟨List.nodup_nil, by simp, by simp⟩, h⟩
  obtain ⟨ht', k, hk, ⟨-, fs, hlen, hfresh, hI⟩, hok⟩ := allocatePages_rule
    (I := Allocating vm.frames m va flags [])
    (J := fun i f => Allocating vm.frames m va flags [f] i)
    walksTo_grows haligned
    (fun f => ⟨fun _ _ => trivial, fun i s _ _ ⟨_, _, _, _, hI⟩ => hI.noLarge _,
      fun i s s' hs _ _ hg => hs.grow hg⟩)
    (fun i s f _ hts hs _ hf => hs.take hts hf) (fun i s f hs => hs.leak)
    (fun i s f g _ hf hts hs hg => hs.map hts hf hg) n.toNat 0 0 (Nat.zero_add _) ht hstart he
  exact ⟨ht', k, hk, ⟨fs, hlen, hfresh.nodup, hfresh.free, hI⟩, hok⟩

/-! ## Runs -/

theorem exec_of_refused {op : PageOp} (h : op.Refused) : op.exec vm = (false, vm) := by
  cases op with
  | mapPhysical va pa n flags => exact if_pos h
  | allocateAndMap va n flags =>
    unfold PageOp.Refused at h
    simp only [PageOp.exec, allocateAndMap, if_pos h]
    rfl
  | protect va n flags => exact if_pos h
  | free va n => exact if_pos h

/-- One call refines one abstract step. -/
theorem exec_refines {op : PageOp} (h : Implements vm m) (ht : Tree AllSlots vm)
    (hu : TablesUnmapped vm) (ha : op.Addressable) :
    Tree AllSlots (op.exec vm).2 ∧ ∃ m', Implements (op.exec vm).2 m' ∧
      op.AbstractStep vm.frames (op.exec vm).1 m m' := by
  by_cases hr : op.Refused
  · rw [exec_of_refused hr]
    exact ⟨ht, m, h, Or.inl ⟨hr, rfl, rfl⟩⟩
  cases op with
  | mapPhysical va pa n flags =>
    obtain ⟨ht', k, hk, hI, hok⟩ := mapPhysical_implements h ht ha hr (Prod.mk.eta).symm
    exact ⟨ht', _, hI, Or.inr ⟨hr, k, hk, rfl, hok⟩⟩
  | allocateAndMap va n flags =>
    obtain ⟨ht', k, hk, ⟨fs, hlen, hnd, hfree, hI⟩, hok⟩ :=
      allocateAndMap_implements h ht hr (Prod.mk.eta).symm
    exact ⟨ht', _, hI, Or.inr ⟨hr, k, hk, ⟨fs, hlen, hnd, hfree, rfl⟩, hok⟩⟩
  | protect va n flags =>
    obtain ⟨ht', k, hk, hI, hmapped, hok, hstop⟩ := protect_implements h ht hr (Prod.mk.eta).symm
    refine ⟨ht', _, hI, Or.inr ⟨hr, k, hk, ⟨rfl, hmapped, fun hkn => ?_⟩, hok⟩⟩
    rw [← hI.leaf, hstop hkn]
    rfl
  | free va n =>
    obtain ⟨ht', k, hk, hI, hmapped, hok, hstop⟩ :=
      freeRange_implements h ht hu hr (Prod.mk.eta).symm
    refine ⟨ht', _, hI, Or.inr ⟨hr, k, hk, ⟨rfl, hmapped, fun hkn => ?_⟩, hok⟩⟩
    rw [← hI.leaf, hstop hkn]
    rfl

/-- The code's results follow the abstract map call by call: `translate` agrees with the map
everywhere, each call is an abstract step, and no page outside its range changes. -/
def Simulates : VirtualMemory → PageMap → List PageOp → Prop
  | vm, m, [] => ∀ va, vm.translate va = m.translate va
  | vm, m, op :: ops => (∀ va, vm.translate va = m.translate va) ∧
      ∃ m', op.AbstractStep vm.frames (op.exec vm).1 m m' ∧
        (∀ p, ¬ op.Touches p → m' p = m p) ∧ Simulates (op.exec vm).2 m' ops

theorem simulates_of_implements (ops : List PageOp) (h : Implements vm m) (ht : Tree AllSlots vm)
    (haddr : ∀ op ∈ ops, op.Addressable)
    (hu : ∀ k < ops.length, TablesUnmapped (PageOp.run (ops.take k) vm)) : Simulates vm m ops := by
  induction ops generalizing vm m with
  | nil => exact h.translate ht
  | cons op ops ih =>
    obtain ⟨ht', m', h', hstep⟩ := exec_refines h ht (hu 0 (by simp)) (haddr op (by simp))
    refine ⟨h.translate ht, m', hstep, fun p => hstep.outside, ih h' ht' ?_ ?_⟩
    · exact fun op' hop' => haddr op' (List.mem_cons_of_mem _ hop')
    · intro k hk
      exact hu (k + 1) (by simpa using hk)

theorem implements_fresh (h : vm.initialized = false) : Implements vm PageMap.empty := by
  have h0 : ∀ q j, vm.mapped q j = 0#64 := fun q j =>
    mapped_none (tables_of_not_initialized (by simp [h]) q)
  exact ⟨fun va => h0 _ _, fun va => by rw [leafOf, h0]; rfl⟩

/-- Every run of 4 KiB operations on a new address space implements the abstract map. -/
theorem run_refines_pageMap (vm : VirtualMemory) (hfresh : vm.initialized = false)
    (hframes : vm.frames.Tracked) (ops : List PageOp) (haddr : ∀ op ∈ ops, op.Addressable)
    (hunmapped : ∀ k < ops.length, TablesUnmapped (PageOp.run (ops.take k) vm)) :
    Simulates vm PageMap.empty ops :=
  simulates_of_implements ops (implements_fresh hfresh) (tree_fresh hfresh hframes) haddr hunmapped

/-- Mappings of addresses above the tracked memory, such as device registers, map no table. -/
theorem Implements.tablesUnmapped (h : Implements vm m) (ht : Tree AllSlots vm)
    (hm : ∀ p v, m p = some v → vm.frames.pageCount * kPageSize ≤ v.frame.toNat) :
    TablesUnmapped vm := by
  intro va q hne hq hl hg
  obtain ⟨n, hn, hframe, -⟩ := ht.owned q _ hq hl hg
  have hleaf := h.leaf va
  rw [decodeLeaf, if_neg hne] at hleaf
  have hle := hm _ _ hleaf.symm
  rw [entryAddress] at hframe
  simp only [hframe] at hle
  exact absurd (Nat.le_of_mul_le_mul_right hle (by decide)) (by omega)

/-- Map a device page at 512 GiB. -/
def mapDevice : PageOp := .mapPhysical 0x8000000000#64 0xFEE00000#64 1#64 { write := true }

theorem mapDevice_tablesUnmapped : TablesUnmapped (mapDevice.exec bootedSpace).2 := by
  have h0 : Implements bootedSpace PageMap.empty := implements_fresh rfl
  have hu0 : TablesUnmapped bootedSpace :=
    h0.tablesUnmapped bootedSpace_tree (by simp [PageMap.empty])
  have haddr : mapDevice.Addressable := by simp [mapDevice, PageOp.Addressable, kPageSize]
  obtain ⟨ht, m', hI, hstep⟩ := exec_refines h0 bootedSpace_tree hu0 haddr
  have hcount : (mapDevice.exec bootedSpace).2.frames.pageCount * kPageSize ≤ 0xFEE00000 := by
    decide +kernel
  apply hI.tablesUnmapped ht
  intro p v hv
  rcases hstep with ⟨-, -, rfl⟩ | ⟨-, k, hk, he, -⟩
  · simp [PageMap.empty] at hv
  · have hk1 : k ≤ 1 := hk
    unfold PageOp.Effect mapDevice at he
    rw [he] at hv
    obtain rfl | rfl : k = 0 ∨ k = 1 := by omega
    · simp [PageMap.mapPages, PageMap.empty] at hv
    · simp only [PageMap.mapPages, PageMap.set, PageMap.empty, pageAt_zero] at hv
      split at hv
      · rw [← Option.some.inj hv]
        exact hcount
      · simp at hv

/-- Mapping and unmapping a device page follows the abstract map. -/
theorem run_refines_pageMap_device :
    Simulates bootedSpace PageMap.empty [mapDevice, .free 0x8000000000#64 1#64] ∧
      (mapDevice.exec bootedSpace).2.translate 0x8000000123#64 = some (0xFEE00123#64, 3#64) := by
  have haddr : ∀ op ∈ [mapDevice, .free 0x8000000000#64 1#64], op.Addressable := by
    simp [mapDevice, PageOp.Addressable, kPageSize]
  refine ⟨run_refines_pageMap bootedSpace rfl bootedFrames_tracked _ haddr ?_, by decide +kernel⟩
  intro k hk
  have hk2 : k < 2 := hk
  obtain rfl | rfl : k = 0 ∨ k = 1 := by omega
  · exact (implements_fresh rfl).tablesUnmapped bootedSpace_tree (by simp [PageMap.empty])
  · exact mapDevice_tablesUnmapped

end VirtualMemory
end Os1
