import Os1.Mm.UserWrite

/-! Every frame that `destroy_user_slot` gives back, whatever the mapped pages hold. -/
namespace Os1

open VirtualMemory Memory

variable {m m' : Memory} {vm vm' : VirtualMemory} {l entry n t : Nat} {e : BitVec 64}

namespace VirtualMemory

open PageFrameContainer

variable {slot : Nat} {q : List Nat} {j a : Nat}

/-! ## The frames that the pages name -/

/-- Some word of the page at `p` names the frame at `a`. -/
def WordNames (m : Memory) (p a : Nat) : Prop :=
  ∃ k < 512, m.load64 (p + 8 * k) ≠ 0#64 ∧ entryAddress (m.load64 (p + 8 * k)) = a

/-- Some word of a page mapped under the slot names the frame at `a`. -/
def Named (slot : Nat) (vm : VirtualMemory) (a : Nat) : Prop :=
  ∃ p, SlotPage slot vm p ∧ WordNames vm.mem p a

theorem mem_subFrames_page (he : e ≠ 0#64) :
    a ∈ subFrames m 1 e ↔ WordNames m (entryAddress e) a ∨ a = entryAddress e := by
  rw [subFrames_succ he, List.mem_append, List.mem_flatMap, List.mem_singleton]
  refine or_congr_left ⟨?_, ?_⟩
  · rintro ⟨k, hk, ha⟩
    rw [subFrames] at ha
    split at ha
    · cases ha
    next hne => exact ⟨k, List.mem_range.mp hk, hne, (List.mem_singleton.mp ha).symm⟩
  · rintro ⟨k, hk, hne, rfl⟩
    exact ⟨k, List.mem_range.mpr hk, entryAddress_mem_subFrames hne⟩

/-- One level further down, the list also has the frames that the pages name. -/
theorem UserSpace.mem_subFrames_below (h : UserSpace slot vm) (hs : InSlot slot (q ++ [j]))
    (hl : q.length + l = 3) : a ∈ subFrames vm.mem (l + 1) (vm.entryOf q j) ↔
      a ∈ subFrames vm.mem l (vm.entryOf q j) ∨ ∃ r p, InSlot slot (q ++ [j] ++ r) ∧
        r.length = l ∧ NodeAt vm (q ++ [j] ++ r) p ∧ WordNames vm.mem p a := by
  induction l generalizing q j with
  | zero =>
    by_cases hne : vm.entryOf q j = 0#64
    · rw [hne, subFrames_zero, subFrames_zero]
      refine ⟨(fun ha => by cases ha), ?_⟩
      rintro (ha | ⟨r, p, -, hr, hn, -⟩)
      · cases ha
      · obtain rfl : r = [] := List.length_eq_zero_iff.mp hr
        rw [List.append_nil, nodeAt_snoc] at hn
        exact (hn.1 hne).elim
    rw [mem_subFrames_page hne, subFrames, if_neg hne, List.mem_singleton, or_comm]
    refine or_congr_right ⟨fun hw => ⟨[], _, by simpa using hs, rfl, ?_, hw⟩, ?_⟩
    · rw [List.append_nil, nodeAt_snoc]
      exact ⟨hne, rfl⟩
    · rintro ⟨r, p, -, hr, hn, hw⟩
      obtain rfl : r = [] := List.length_eq_zero_iff.mp hr
      rw [List.append_nil, nodeAt_snoc] at hn
      exact hn.2 ▸ hw
  | succ l ih =>
    have hchild := fun k (hk : k < 512) => ih (hs.snoc (by simp) hk) (by simp; omega)
    rw [h.subFrames_eq hs (by omega), h.subFrames_eq hs (by omega), List.mem_append,
      List.mem_append, List.mem_flatMap, List.mem_flatMap, or_right_comm]
    refine or_congr_left ⟨?_, ?_⟩
    · rintro ⟨k, hk, ha⟩
      rcases (hchild k (List.mem_range.mp hk)).mp ha with ha | ⟨r, p, hr, hrl, hn, hw⟩
      · exact Or.inl ⟨k, hk, ha⟩
      · exact Or.inr ⟨k :: r, p, by simpa using hr, by simp [hrl], by simpa using hn, hw⟩
    · rintro (⟨k, hk, ha⟩ | ⟨r, p, hr, hrl, hn, hw⟩)
      · exact ⟨k, hk, (hchild k (List.mem_range.mp hk)).mpr (Or.inl ha)⟩
      · cases r with
        | nil => cases hrl
        | cons k r =>
          have hk : k < 512 := hr.1 k (by simp)
          exact ⟨k, List.mem_range.mpr hk, (hchild k hk).mpr (Or.inr
            ⟨r, p, by simpa using hr, by simpa using hrl, by simpa using hn, hw⟩)⟩

/-! ## The free frames after the destruction -/

theorem isFree_foldl_release_iff {f : PageFrameContainer} {F : List Nat} (ht : f.Tracked)
    (hi : f.initialized = true) (hal : ∀ a ∈ F, a % kPageSize = 0) :
    (F.foldl release f).isFree n = true ↔
      f.isFree n = true ∨ n < f.pageCount ∧ n * kPageSize ∈ F := by
  induction F generalizing f with
  | nil => simp
  | cons a F ih =>
    obtain ⟨hspec, hshape⟩ := free_spec ht a
    have ha := hal a List.mem_cons_self
    rw [List.foldl_cons, release, ih hspec (hshape.initialized.trans hi)
      (fun b hb => hal b (List.mem_cons_of_mem _ hb)), hshape.pageCount, isFree_free, List.mem_cons]
    have hshift : n = a >>> 12 ↔ n * kPageSize = a := by
      rw [Nat.shiftRight_eq_div_pow]
      unfold kPageSize at *
      omega
    rw [hshift]
    constructor
    · rintro ((hf | ⟨⟨-, -, hlt, -⟩, heq⟩) | ⟨hlt, hmem⟩)
      · exact Or.inl hf
      · rw [← hshift.mpr heq] at hlt
        exact Or.inr ⟨hlt, Or.inl heq⟩
      · exact Or.inr ⟨hlt, Or.inr hmem⟩
    · rintro (hf | ⟨hlt, heq | hmem⟩)
      · exact Or.inl (Or.inl hf)
      · by_cases hfree : f.isFree n = true
        · exact Or.inl (Or.inl hfree)
        · have hn := hshift.mpr heq
          exact Or.inl (Or.inr ⟨⟨hi, ha, hn ▸ hlt, by rw [← hn]; simpa using hfree⟩, heq⟩)
      · exact Or.inr ⟨hlt, hmem⟩

theorem aligned_of_mem_subFrames (ha : a ∈ subFrames m l e) : a % kPageSize = 0 := by
  induction l generalizing e with
  | zero =>
    rw [subFrames] at ha
    split at ha
    · cases ha
    · rw [List.mem_singleton.mp ha]
      exact entryAddress_aligned e
  | succ l ih =>
    by_cases he : e = 0#64
    · rw [he, subFrames_zero] at ha
      cases ha
    · rw [subFrames_succ he, List.mem_append, List.mem_flatMap, List.mem_singleton] at ha
      rcases ha with ⟨k, -, ha⟩ | rfl
      · exact ih ha
      · exact entryAddress_aligned e

section Slot

variable (h : UserSpace slot vm) (hslot : slot < 512)
include h hslot

/-- What `destroy_user_slot` gives back: the frames of the slot and those named in its pages. -/
theorem UserSpace.mem_destroyed : a ∈ subFrames vm.mem 4 (vm.entryOf [] slot) ↔
    SlotTable slot vm a ∨ SlotPage slot vm a ∨ Named slot vm a := by
  have hnamed : (∃ r p, InSlot slot ([] ++ [slot] ++ r) ∧ r.length = 3 ∧
      NodeAt vm ([] ++ [slot] ++ r) p ∧ WordNames vm.mem p a) ↔ Named slot vm a := by
    constructor
    · rintro ⟨r, p, hr, hl, hn, hw⟩
      exact ⟨p, ⟨_, hr, by simp [hl], hn⟩, hw⟩
    · rintro ⟨p, ⟨path, hs, hl, hn⟩, hw⟩
      cases path with
      | nil => cases hl
      | cons i r =>
        obtain rfl : i = slot := hs.2 i rfl
        exact ⟨r, p, hs, by simpa using hl, hn, hw⟩
  rw [h.mem_subFrames_below (inSlot_root hslot) rfl, hnamed, ← or_assoc, ← h.mem_slotFrames hslot]
  rfl

end Slot

/-- A page of the slot has an address. -/
theorem SlotPage.exists_address (hslot : slot < 512) (hp : SlotPage slot vm a) :
    ∃ va, InWindow slot va ∧ vm.leafOf va ≠ 0#64 ∧ entryAddress (vm.leafOf va) = a := by
  obtain ⟨q, j, hs, hl, hn⟩ := slotPage_iff.mp hp
  obtain ⟨i, i1, i2, rfl⟩ := List.length_eq_three.mp hl
  obtain rfl : i = slot := hs.2 i rfl
  have h1 : i1 < 512 := hs.1 i1 (by simp)
  have h2 : i2 < 512 := hs.1 i2 (by simp)
  have hj : j < 512 := hs.last
  have hva : (BitVec.ofNat 64 (i * 2 ^ 39 + i1 * 2 ^ 30 + i2 * 2 ^ 21 + j * 2 ^ 12)).toNat =
      i * 2 ^ 39 + i1 * 2 ^ 30 + i2 * 2 ^ 21 + j * 2 ^ 12 := by
    rw [BitVec.toNat_ofNat]
    omega
  refine ⟨BitVec.ofNat 64 (i * 2 ^ 39 + i1 * 2 ^ 30 + i2 * 2 ^ 21 + j * 2 ^ 12), ?_, ?_⟩
  · rw [InWindow, hva]
    omega
  · have hpath : leafPath (BitVec.ofNat 64 (i * 2 ^ 39 + i1 * 2 ^ 30 + i2 * 2 ^ 21 + j * 2 ^ 12)) =
        [i, i1, i2] := by
      simp only [leafPath, pageIndex_eq, hva, List.cons.injEq, and_true]
      omega
    have hindex : pageIndex (BitVec.ofNat 64 (i * 2 ^ 39 + i1 * 2 ^ 30 + i2 * 2 ^ 21 + j * 2 ^ 12))
        12 = j := by
      rw [pageIndex_eq, hva]
      omega
    rw [leafOf, mapped_leaf, hpath, hindex]
    exact hn

end VirtualMemory
end Os1
