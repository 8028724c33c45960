import Os1.Lib.Trie
import Os1.Mm.PageFrameSpec
import Os1.Mm.VirtualMemory

/-! The tree of page tables, and what the walks do to it. -/
namespace Os1

/-! ## Entry words -/

theorem getLsbD_kEntryAddressMask (k : Nat) :
    kEntryAddressMask.getLsbD k = decide (12 ≤ k ∧ k < 52) := by
  by_cases hk : k < 64
  · have h : ∀ k < 64, kEntryAddressMask.getLsbD k = decide (12 ≤ k ∧ k < 52) := by decide
    exact h k hk
  · rw [BitVec.getLsbD_of_ge _ _ (by omega)]
    simp
    omega

/-- An aligned address below 2^52 fills only the address bits of an entry. -/
theorem and_field_of_aligned {a m : BitVec 64} {lo : Nat}
    (hm : ∀ k, m.getLsbD k = decide (lo ≤ k ∧ k < 52)) (ha : a.toNat % 2 ^ lo = 0)
    (hlt : a.toNat < 2 ^ 52) : a &&& m = a := by
  apply BitVec.eq_of_getLsbD_eq
  intro k _
  rw [BitVec.getLsbD_and, hm]
  by_cases hlow : k < lo
  · have h0 : a.getLsbD k = false := by
      have hmul := Nat.div_add_mod a.toNat (2 ^ lo)
      rw [ha, Nat.add_zero] at hmul
      rw [BitVec.getLsbD, ← hmul, Nat.testBit_two_pow_mul]
      simp [hlow]
    simp [h0]
  · by_cases hhigh : k < 52
    · simp [hhigh, show lo ≤ k by omega]
    · have h0 : a.getLsbD k = false := by
        rw [BitVec.getLsbD]
        exact Nat.testBit_lt_two_pow (lt_of_lt_of_le hlt (Nat.pow_le_pow_right (by decide)
          (by omega)))
      simp [h0]

theorem aligned_iff (a : BitVec 64) : a &&& kPageOffsetMask = 0#64 ↔ a.toNat % kPageSize = 0 := by
  rw [← BitVec.toNat_inj, BitVec.toNat_and, show kPageOffsetMask.toNat = 2 ^ 12 - 1 from rfl,
    Nat.and_two_pow_sub_one_eq_mod]
  rfl

theorem and_kEntryAddressMask_of_aligned {a : BitVec 64} (ha : a &&& kPageOffsetMask = 0#64)
    (hlt : a.toNat < 2 ^ 52) : a &&& kEntryAddressMask = a :=
  and_field_of_aligned getLsbD_kEntryAddressMask ((aligned_iff a).mp ha) hlt

theorem toNat_frame {n : Nat} (hn : n < 2 ^ 40) :
    (BitVec.ofNat 64 (n * kPageSize)).toNat = n * kPageSize := by
  rw [BitVec.toNat_ofNat]
  unfold kPageSize
  omega

theorem frame_and_kEntryAddressMask {n : Nat} (hn : n < 2 ^ 40) :
    BitVec.ofNat 64 (n * kPageSize) &&& kEntryAddressMask = BitVec.ofNat 64 (n * kPageSize) := by
  apply and_kEntryAddressMask_of_aligned
  · rw [aligned_iff, toNat_frame hn]
    exact Nat.mul_mod_left n kPageSize
  · rw [toNat_frame hn]
    unfold kPageSize
    omega

/-- Flag words touch neither the address bits nor the large-page bit. -/
theorem toWord_and_mask (f : PageFlags) : f.toWord &&& kEntryAddressMask = 0#64 := by
  rcases f with ⟨_ | _, _ | _, _ | _, _ | _⟩ <;> decide

theorem toWord_withPresent_ne_zero (f : PageFlags) : f.withPresent.toWord ≠ 0#64 := by
  rcases f with ⟨_ | _, _ | _, _ | _, _ | _⟩ <;> decide

theorem tableEntryFlags_and_mask (u : Bool) :
    VirtualMemory.tableEntryFlags u &&& kEntryAddressMask = 0#64 := by
  cases u <;> decide

theorem tableEntryFlags_and_large (u : Bool) :
    VirtualMemory.tableEntryFlags u &&& kEntryLargePage = 0#64 := by
  cases u <;> decide

theorem and_or_of_masked {a f m : BitVec 64} (ha : a &&& m = a) (hf : f &&& m = 0#64) :
    (a ||| f) &&& m = a := by
  rw [BitVec.and_comm, BitVec.and_or_distrib_left, BitVec.and_comm m a, BitVec.and_comm m f, ha, hf,
    BitVec.or_zero]

theorem or_ne_zero_of_right {a f : BitVec 64} (hf : f ≠ 0#64) : a ||| f ≠ 0#64 := by
  intro h
  exact hf (BitVec.or_eq_zero_iff.mp h).2

theorem entryAddress_frame {n : Nat} {f : BitVec 64} (hn : n < 2 ^ 40)
    (hf : f &&& kEntryAddressMask = 0#64) :
    entryAddress ((BitVec.ofNat 64 (n * kPageSize) &&& kEntryAddressMask) ||| f) =
      n * kPageSize := by
  rw [entryAddress, frame_and_kEntryAddressMask hn,
    and_or_of_masked (frame_and_kEntryAddressMask hn) hf, toNat_frame hn]

theorem entryAddress_or {e f : BitVec 64} (hf : f &&& kEntryAddressMask = 0#64) :
    entryAddress (e ||| f) = entryAddress e := by
  rw [entryAddress, BitVec.and_comm, BitVec.and_or_distrib_left, BitVec.and_comm _ f, hf,
    BitVec.or_zero, BitVec.and_comm, entryAddress]

theorem and_kEntryLargePage_or {e f : BitVec 64} (hf : f &&& kEntryLargePage = 0#64) :
    (e ||| f) &&& kEntryLargePage = e &&& kEntryLargePage := by
  rw [BitVec.and_comm, BitVec.and_or_distrib_left, BitVec.and_comm _ f, hf, BitVec.or_zero,
    BitVec.and_comm]

namespace VirtualMemory

/-! ## The tree -/

/-- An entry that points to a lower table. -/
def isTableEntry (e : BitVec 64) : Bool := e ≠ 0#64 && e &&& kEntryLargePage = 0#64

def nextTable (e : BitVec 64) : Option Nat :=
  if isTableEntry e then some (entryAddress e) else none

/-- The table below entry `j` of the table at `g`. -/
def child (m : Memory) (g j : Nat) : Option Nat := nextTable (m.load64 (g + 8 * j))

/-- The table at the end of a path of indices. -/
def tables (vm : VirtualMemory) (q : List Nat) : Option Nat :=
  if vm.initialized then Trie.follow (child vm.mem) vm.root.toNat q else none

/-- Entry `j` of the table at the end of `q`, zero where there is no table. -/
def entryOf (vm : VirtualMemory) (q : List Nat) (j : Nat) : BitVec 64 :=
  match vm.tables q with
  | none => 0#64
  | some g => vm.mem.load64 (g + 8 * j)

/-- The entry when it maps a page: a leaf entry or a large entry of the third level. -/
def mapped (vm : VirtualMemory) (q : List Nat) (j : Nat) : BitVec 64 :=
  if q.length = 3 ∨ q.length = 2 ∧ vm.entryOf q j &&& kEntryLargePage ≠ 0#64 then vm.entryOf q j
  else 0#64

/-- A path whose indices are in range and whose first one is a slot of interest. -/
def InSlots (slots : Nat → Prop) (q : List Nat) : Prop :=
  (∀ i ∈ q, i < 512) ∧ ∀ i, q.head? = some i → slots i

/-- The frame at address `g` is tracked by the container and allocated. -/
def Busy (f : PageFrameContainer) (g : Nat) : Prop :=
  ∃ n, n < f.pageCount ∧ g = n * kPageSize ∧ f.isFree n = false

/-- The tables under the slots are distinct allocated frames, and large entries stand only at
the third level. -/
structure Tree (slots : Nat → Prop) (vm : VirtualMemory) : Prop where
  tracked : vm.frames.Tracked
  owned : ∀ q g, InSlots slots q → q.length ≤ 3 → vm.tables q = some g → Busy vm.frames g
  distinct : ∀ q q' g, InSlots slots q → q.length ≤ 3 → InSlots slots q' → q'.length ≤ 3 →
    vm.tables q = some g → vm.tables q' = some g → q = q'
  upper : ∀ q j, InSlots slots (q ++ [j]) → q.length ≤ 1 → vm.entryOf q j ≠ 0#64 →
    isTableEntry (vm.entryOf q j) = true

variable {slots : Nat → Prop} {vm vm' : VirtualMemory} {q q' : List Nat} {g g' j k : Nat}
  {e : BitVec 64}

theorem InSlots.of_append {r : List Nat} (h : InSlots slots (q ++ r)) : InSlots slots q := by
  refine ⟨fun i hi => h.1 i (List.mem_append_left _ hi), fun i hi => h.2 i ?_⟩
  cases q with
  | nil => simp at hi
  | cons a q => simpa using hi

theorem InSlots.last (h : InSlots slots (q ++ [j])) : j < 512 := h.1 j (by simp)

theorem isTableEntry_iff : isTableEntry e = true ↔ e ≠ 0#64 ∧ e &&& kEntryLargePage = 0#64 := by
  simp [isTableEntry]

theorem nextTable_zero : nextTable 0#64 = none := by decide

theorem tables_snoc (vm : VirtualMemory) (q : List Nat) (j : Nat) :
    vm.tables (q ++ [j]) = nextTable (vm.entryOf q j) := by
  by_cases hi : vm.initialized = true
  · simp only [entryOf, tables, hi, if_true, Trie.follow_snoc]
    cases Trie.follow (child vm.mem) vm.root.toNat q with
    | none => simp [nextTable_zero]
    | some g => simp [child]
  · simp [entryOf, tables, hi, nextTable_zero]

theorem entryOf_eq (h : vm.tables q = some g) : vm.entryOf q j = vm.mem.load64 (g + 8 * j) := by
  simp [entryOf, h]

theorem entryOf_none (h : vm.tables q = none) : vm.entryOf q j = 0#64 := by
  simp [entryOf, h]

/-- Tables change only below entries that change. -/
theorem tables_congr (vm vm' : VirtualMemory) {P : List Nat → Prop}
    (hi : vm'.initialized = vm.initialized) (hr : vm'.root = vm.root)
    (hP : ∀ q j, P q → P (q ++ [j]))
    (h : ∀ q g j, InSlots slots (q ++ [j]) → q.length ≤ 2 → ¬ P (q ++ [j]) →
      vm.tables q = some g → child vm'.mem g j = child vm.mem g j) :
    ∀ q, InSlots slots q → q.length ≤ 3 → ¬ P q → vm'.tables q = vm.tables q := by
  intro q hs hl hp
  unfold tables at h ⊢
  rw [hi, hr]
  by_cases hinit : vm.initialized = true
  · simp only [hinit, if_true] at h ⊢
    refine Trie.follow_congr (S := fun q => InSlots slots q ∧ q.length ≤ 3) ?_ hP ?_ q ⟨hs, hl⟩ hp
    · rintro q j ⟨h1, h2⟩
      rw [List.length_append] at h2
      exact ⟨h1.of_append, by omega⟩
    · rintro q g j ⟨h1, h2⟩ hnp hq
      rw [List.length_append, List.length_singleton] at h2
      exact h q g j h1 (by omega) hnp hq
  · simp [hinit]

theorem Busy.apart {f : PageFrameContainer} (h : Busy f g) (h' : Busy f g') (hne : g ≠ g') :
    g + kPageSize ≤ g' ∨ g' + kPageSize ≤ g := by
  obtain ⟨n, -, rfl, -⟩ := h
  obtain ⟨n', -, rfl, -⟩ := h'
  have : n ≠ n' := fun hn => hne (hn ▸ rfl)
  unfold kPageSize
  omega

/-- Entries of the tree do not overlap, so a store to one leaves the others. -/
theorem Tree.load64_store (h : Tree slots vm) (hq : InSlots slots q) (hl : q.length ≤ 3)
    (hg : vm.tables q = some g) (hq' : InSlots slots q') (hl' : q'.length ≤ 3)
    (hg' : vm.tables q' = some g') (hj : j < 512) (hk : k < 512) :
    (vm.mem.store64 (g + 8 * j) e).load64 (g' + 8 * k) =
      if q' = q ∧ k = j then e else vm.mem.load64 (g' + 8 * k) := by
  by_cases hne : g' = g
  · subst hne
    have hqq := h.distinct q' q g' hq' hl' hq hl hg' hg
    by_cases hkj : k = j
    · simp [hqq, hkj]
    · rw [if_neg (by simp [hkj])]
      exact Memory.load64_store64_of_disjoint (by omega)
  · have hsep := (h.owned q g hq hl hg).apart (h.owned q' g' hq' hl' hg') (Ne.symm hne)
    have hqq : q' ≠ q := by
      rintro rfl
      rw [hg] at hg'
      exact hne (by injection hg' with h; exact h.symm)
    unfold kPageSize at hsep
    rw [if_neg (by simp [hqq])]
    exact Memory.load64_store64_of_disjoint (by omega)

/-- The address space after a store to memory. -/
def storeEntry (vm : VirtualMemory) (a : Nat) (e : BitVec 64) : VirtualMemory :=
  { vm with mem := vm.mem.store64 a e }

/-- A store to an entry leaves every table that is not below it. -/
theorem Tree.tables_store_other (h : Tree slots vm) (hqj : InSlots slots (q ++ [j]))
    (hl : q.length ≤ 3) (hg : vm.tables q = some g) :
    ∀ q', InSlots slots q' → q'.length ≤ 3 → ¬ (q ++ [j]) <+: q' →
      (vm.storeEntry (g + 8 * j) e).tables q' = vm.tables q' := by
  apply tables_congr vm (vm.storeEntry (g + 8 * j) e) rfl rfl
  · intro p k hp
    exact hp.trans (List.prefix_append p [k])
  · intro p g' k hpk hlp hnp hg'
    rw [child, storeEntry, h.load64_store hqj.of_append hl hg hpk.of_append (by omega) hg'
      hqj.last hpk.last, if_neg, child]
    rintro ⟨rfl, rfl⟩
    exact hnp (List.prefix_refl _)

theorem Tree.tables_store_self (h : Tree slots vm) (hqj : InSlots slots (q ++ [j]))
    (hl : q.length ≤ 3) (hg : vm.tables q = some g) :
    (vm.storeEntry (g + 8 * j) e).tables q = some g := by
  rw [h.tables_store_other hqj hl hg q hqj.of_append hl (fun hp => by simpa using hp.length_le), hg]

/-- In a table that stays where it was, a store changes only its own entry. -/
theorem Tree.entryOf_store (h : Tree slots vm) (hqj : InSlots slots (q ++ [j]))
    (hl : q.length ≤ 3) (hg : vm.tables q = some g) (hs : InSlots slots (q' ++ [k]))
    (hl' : q'.length ≤ 3) (ht : (vm.storeEntry (g + 8 * j) e).tables q' = vm.tables q') :
    (vm.storeEntry (g + 8 * j) e).entryOf q' k =
      if q' = q ∧ k = j then e else vm.entryOf q' k := by
  cases hg' : vm.tables q' with
  | none =>
    rw [hg'] at ht
    rw [entryOf_none ht, entryOf_none hg', if_neg]
    rintro ⟨rfl, -⟩
    rw [hg] at hg'
    exact absurd hg' (by simp)
  | some g' =>
    rw [hg'] at ht
    rw [entryOf_eq ht, entryOf_eq hg']
    exact h.load64_store hqj.of_append hl hg hs.of_append hl' hg' hqj.last hs.last

/-- A store that does not redirect a walk: all tables stay and one entry changes. -/
theorem Tree.store_same (h : Tree slots vm) (hqj : InSlots slots (q ++ [j])) (hl : q.length ≤ 3)
    (hg : vm.tables q = some g)
    (hnext : q.length ≤ 2 → nextTable e = nextTable (vm.entryOf q j)) :
    (∀ q', InSlots slots q' → q'.length ≤ 3 →
      (vm.storeEntry (g + 8 * j) e).tables q' = vm.tables q') ∧
    ∀ q' k, InSlots slots (q' ++ [k]) → q'.length ≤ 3 →
      (vm.storeEntry (g + 8 * j) e).entryOf q' k =
        if q' = q ∧ k = j then e else vm.entryOf q' k := by
  have htables : ∀ q', InSlots slots q' → q'.length ≤ 3 →
      (vm.storeEntry (g + 8 * j) e).tables q' = vm.tables q' := by
    intro q' hs hl'
    apply tables_congr vm (vm.storeEntry (g + 8 * j) e) (P := fun _ => False) rfl rfl
      (fun _ _ h => h) _ q' hs hl' (fun h => h)
    intro p g' k hpk hlp _ hg'
    rw [child, storeEntry, h.load64_store hqj.of_append hl hg hpk.of_append (by omega) hg'
      hqj.last hpk.last]
    split
    · rename_i heq
      obtain ⟨rfl, rfl⟩ := heq
      rw [hnext hlp, child, entryOf_eq hg']
    · rfl
  refine ⟨htables, ?_⟩
  intro q' k hs hl'
  exact h.entryOf_store hqj hl hg hs hl' (htables q' hs.of_append hl')

theorem Tree.of_store_same (h : Tree slots vm) (hqj : InSlots slots (q ++ [j])) (hl : q.length ≤ 3)
    (hg : vm.tables q = some g)
    (hnext : q.length ≤ 2 → nextTable e = nextTable (vm.entryOf q j))
    (hupper : q.length ≤ 1 → e ≠ 0#64 → isTableEntry e = true) :
    Tree slots (vm.storeEntry (g + 8 * j) e) := by
  obtain ⟨ht, he⟩ := h.store_same hqj hl hg hnext
  refine ⟨h.tracked, ?_, ?_, ?_⟩
  · intro q' g' hs hl' hg'
    exact h.owned q' g' hs hl' (ht q' hs hl' ▸ hg')
  · intro q₁ q₂ g' hs₁ hl₁ hs₂ hl₂ hg₁ hg₂
    exact h.distinct q₁ q₂ g' hs₁ hl₁ hs₂ hl₂ (ht q₁ hs₁ hl₁ ▸ hg₁) (ht q₂ hs₂ hl₂ ▸ hg₂)
  · intro q' k hs hl' hne
    rw [he q' k hs (by omega)] at hne ⊢
    split at hne
    · rename_i heq
      rw [if_pos heq]
      exact hupper (heq.1 ▸ hl') hne
    · rename_i heq
      rw [if_neg heq]
      exact h.upper q' k hs hl' hne

/-- Overwriting a third-level entry with a large entry drops the leaf table below it. -/
theorem Tree.store_large (h : Tree slots vm) (hqj : InSlots slots (q ++ [j])) (hl : q.length = 2)
    (hg : vm.tables q = some g) (hlarge : e &&& kEntryLargePage ≠ 0#64) :
    (∀ q', InSlots slots q' → q'.length ≤ 3 →
      (vm.storeEntry (g + 8 * j) e).tables q' = if q' = q ++ [j] then none else vm.tables q') ∧
    ∀ q' k, InSlots slots (q' ++ [k]) → q'.length ≤ 3 →
      (vm.storeEntry (g + 8 * j) e).entryOf q' k =
        if q' = q ∧ k = j then e else if q' = q ++ [j] then 0#64 else vm.entryOf q' k := by
  have hself := h.tables_store_self (e := e) hqj (by omega) hg
  have hnone : (vm.storeEntry (g + 8 * j) e).tables (q ++ [j]) = none := by
    rw [tables_snoc, entryOf_eq hself]
    simp [storeEntry, nextTable, isTableEntry, hlarge]
  have htables : ∀ q', InSlots slots q' → q'.length ≤ 3 →
      (vm.storeEntry (g + 8 * j) e).tables q' = if q' = q ++ [j] then none else vm.tables q' := by
    intro q' hs hl'
    by_cases hp : (q ++ [j]) <+: q'
    · have hq' : q' = q ++ [j] := (hp.eq_of_length_le (by simp; omega)).symm
      rw [if_pos hq', hq', hnone]
    · rw [h.tables_store_other hqj (by omega) hg q' hs hl' hp, if_neg]
      rintro rfl
      exact hp (List.prefix_refl _)
  refine ⟨htables, ?_⟩
  intro q' k hs hl'
  have ht := htables q' hs.of_append hl'
  by_cases hq' : q' = q ++ [j]
  · rw [if_pos hq'] at ht
    have hne : q' ≠ q := by
      rintro rfl
      simpa using congrArg List.length hq'
    rw [entryOf_none ht, if_neg (fun hc => hne hc.1), if_pos hq']
  · rw [if_neg hq'] at ht ⊢
    exact h.entryOf_store hqj (by omega) hg hs hl' ht

theorem Tree.of_store_large (h : Tree slots vm) (hqj : InSlots slots (q ++ [j]))
    (hl : q.length = 2) (hg : vm.tables q = some g) (hlarge : e &&& kEntryLargePage ≠ 0#64) :
    Tree slots (vm.storeEntry (g + 8 * j) e) := by
  obtain ⟨ht, he⟩ := h.store_large hqj hl hg hlarge
  have hold : ∀ q' g', InSlots slots q' → q'.length ≤ 3 →
      (vm.storeEntry (g + 8 * j) e).tables q' = some g' → vm.tables q' = some g' := by
    intro q' g' hs hl' hg'
    rw [ht q' hs hl'] at hg'
    split at hg'
    · simp at hg'
    · exact hg'
  refine ⟨h.tracked, ?_, ?_, ?_⟩
  · intro q' g' hs hl' hg'
    exact h.owned q' g' hs hl' (hold q' g' hs hl' hg')
  · intro q₁ q₂ g' hs₁ hl₁ hs₂ hl₂ hg₁ hg₂
    exact h.distinct q₁ q₂ g' hs₁ hl₁ hs₂ hl₂ (hold q₁ g' hs₁ hl₁ hg₁) (hold q₂ g' hs₂ hl₂ hg₂)
  · intro q' k hs hl' hne
    have hq : ¬ (q' = q ∧ k = j) := by
      rintro ⟨rfl, -⟩
      omega
    have hqj' : q' ≠ q ++ [j] := by
      rintro rfl
      rw [List.length_append] at hl'
      omega
    rw [he q' k hs (by omega), if_neg hq, if_neg hqj'] at hne ⊢
    exact h.upper q' k hs hl' hne

theorem tables_append_none {r : List Nat} (h : vm.tables q = none) : vm.tables (q ++ r) = none := by
  unfold tables at h ⊢
  split
  · rename_i hi
    rw [if_pos hi] at h
    rw [Trie.follow_append, h]
    rfl
  · rfl

/-- Linking a zeroed frame adds one table and no mapping. -/
theorem Tree.store_link {f : Nat} (h : Tree slots vm) (hqj : InSlots slots (q ++ [j]))
    (hl : q.length ≤ 2) (hg : vm.tables q = some g) (h0 : vm.entryOf q j = 0#64)
    (hnext : nextTable e = some f) (hbusy : Busy vm.frames f)
    (hfresh : ∀ q', InSlots slots q' → q'.length ≤ 3 → vm.tables q' ≠ some f)
    (hzero : ∀ k < 512, vm.mem.load64 (f + 8 * k) = 0#64) :
    (∀ q', InSlots slots q' → q'.length ≤ 3 →
      (vm.storeEntry (g + 8 * j) e).tables q' = if q' = q ++ [j] then some f else vm.tables q') ∧
    ∀ q' k, InSlots slots (q' ++ [k]) → q'.length ≤ 3 →
      (vm.storeEntry (g + 8 * j) e).entryOf q' k =
        if q' = q ∧ k = j then e else vm.entryOf q' k := by
  have hself := h.tables_store_self (e := e) hqj (by omega) hg
  have hlink : (vm.storeEntry (g + 8 * j) e).tables (q ++ [j]) = some f := by
    rw [tables_snoc, entryOf_eq hself]
    simp only [storeEntry, Memory.load64_store64_self, hnext]
  have hempty : ∀ k < 512, (vm.storeEntry (g + 8 * j) e).entryOf (q ++ [j]) k = 0#64 := by
    intro k hk
    have hne : g ≠ f := fun hgf => hfresh q hqj.of_append (by omega) (hgf ▸ hg)
    have hsep := (h.owned q g hqj.of_append (by omega) hg).apart hbusy hne
    have hj := hqj.last
    unfold kPageSize at hsep
    rw [entryOf_eq hlink, storeEntry, Memory.load64_store64_of_disjoint (by omega), hzero k hk]
  have hold : vm.tables (q ++ [j]) = none := by rw [tables_snoc, h0, nextTable_zero]
  have htables : ∀ q', InSlots slots q' → q'.length ≤ 3 →
      (vm.storeEntry (g + 8 * j) e).tables q' = if q' = q ++ [j] then some f else vm.tables q' := by
    intro q' hs hl'
    by_cases hp : (q ++ [j]) <+: q'
    · obtain ⟨r, rfl⟩ := hp
      cases r with
      | nil => simpa using hlink
      | cons k r =>
        have hk : k < 512 := hs.1 k (by simp)
        rw [if_neg (by simp), tables_append_none hold, show q ++ [j] ++ k :: r =
          (q ++ [j] ++ [k]) ++ r by simp, tables_append_none]
        rw [tables_snoc, hempty k hk, nextTable_zero]
    · rw [h.tables_store_other hqj (by omega) hg q' hs hl' hp, if_neg]
      rintro rfl
      exact hp (List.prefix_refl _)
  refine ⟨htables, ?_⟩
  intro q' k hs hl'
  have ht := htables q' hs.of_append hl'
  by_cases hq' : q' = q ++ [j]
  · subst hq'
    rw [hempty k hs.last, entryOf_none hold, if_neg]
    rintro ⟨hq, -⟩
    simpa using congrArg List.length hq
  · rw [if_neg hq'] at ht
    exact h.entryOf_store hqj (by omega) hg hs hl' ht

end VirtualMemory
end Os1
