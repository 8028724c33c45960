import Os1.Mm.BootMapping
import Os1.Mm.UserSpace

/-! What the direct map covers after any sequence of mapping calls. -/
namespace Os1

open PageFrameContainer VirtualMemory

variable {vm vm' vm'' : VirtualMemory} {va va' pa e : BitVec 64} {g c p p' u : Nat} {ok : Bool}

/-! ## Lookups after an entry update -/

/-- Bits 21 to 47 of a virtual address. -/
def largePageNumber (va : BitVec 64) : BitVec 27 := va.extractLsb' 21 27

theorem toNat_largePageNumber (va : BitVec 64) :
    (largePageNumber va).toNat = va.toNat / 2 ^ 21 % 2 ^ 27 := by
  simp [largePageNumber, Nat.shiftRight_eq_div_pow]

theorem largePageNumber_eq_iff (va va' : BitVec 64) : largePageNumber va = largePageNumber va' ↔
    midPath va = midPath va' ∧ pageIndex va 21 = pageIndex va' 21 := by
  rw [← BitVec.toNat_inj, toNat_largePageNumber, toNat_largePageNumber]
  simp only [midPath, List.cons.injEq, and_true, pageIndex_eq]
  omega

theorem leafPath_eq_iff (va va' : BitVec 64) :
    leafPath va = leafPath va' ↔ largePageNumber va = largePageNumber va' := by
  rw [largePageNumber_eq_iff]
  simp only [leafPath, midPath, List.cons.injEq, and_true, and_assoc]

theorem VirtualMemory.Grows.lookup {d : Nat} (h : Grows AllSlots d vm vm') (va : BitVec 64) :
    vm'.lookup va = vm.lookup va := by
  unfold VirtualMemory.lookup
  rw [h.mapped _ _ (midPath_inSlots va trivial) (by simp [midPath]),
    h.mapped _ _ (allSlots_path va) (by simp [leafPath])]

/-- A new leaf entry is read at its page and nowhere else. -/
theorem lookup_setLeaf (ht : Tree AllSlots vm) (hg : vm.tables (leafPath va) = some g)
    (hn : NoLargePage vm va) (he : e ≠ 0#64) (va' : BitVec 64) :
    (vm.setLeaf g va e).lookup va' = if pageNumber va' = pageNumber va then
      some ((e &&& kEntryAddressMask) ||| (va' &&& kPageOffsetMask), e &&& ~~~kEntryAddressMask)
      else vm.lookup va' := by
  have hmid : (vm.setLeaf g va e).mapped (midPath va') (pageIndex va' 21) =
      vm.mapped (midPath va') (pageIndex va' 21) := by
    rw [mapped_setLeaf ht trivial hg (midPath_inSlots va' trivial) (by simp [midPath]),
      if_neg (by simp [midPath, leafPath])]
  have hleaf := leafOf_setLeaf (e := e) ht hg va'
  unfold leafOf at hleaf
  unfold VirtualMemory.lookup
  rw [hmid, hleaf]
  by_cases hp : pageNumber va' = pageNumber va
  · have hlarge : vm.mapped (midPath va') (pageIndex va' 21) = 0#64 := by
      obtain ⟨hpath, -⟩ := (pageNumber_eq_iff va' va).mp hp
      simp only [leafPath, List.cons.injEq, and_true] at hpath
      rw [midPath, hpath.1, hpath.2.1, hpath.2.2]
      exact hn
    simp [hp, hlarge, he]
  · simp [hp]

/-- A new large entry is read at its 512 pages and nowhere else. -/
theorem lookup_setLarge (ht : Tree AllSlots vm) (hg : vm.tables (midPath va) = some g)
    (hl : e &&& kEntryLargePage ≠ 0#64) (va' : BitVec 64) :
    (vm.setLarge g va e).lookup va' = if largePageNumber va' = largePageNumber va then
      some ((e &&& kLargePageAddressMask2MiB) ||| (va' &&& kLargePageOffsetMask2MiB),
        e &&& ~~~kLargePageAddressMask2MiB)
      else vm.lookup va' := by
  have hmid := entryOf_setLarge ht trivial hg hl (midPath_inSlots va' trivial) (by simp [midPath])
  have hleaf := entryOf_setLarge ht trivial hg hl (allSlots_path va') (by simp [leafPath])
  rw [if_neg (show ¬ midPath va' = leafPath va by simp [midPath, leafPath])] at hmid
  rw [if_neg (by simp [midPath, leafPath])] at hleaf
  simp only [leafPath_eq_iff] at hleaf
  simp only [← largePageNumber_eq_iff] at hmid
  unfold VirtualMemory.lookup
  by_cases hp : largePageNumber va' = largePageNumber va
  · rw [if_pos hp] at hmid
    have hne : e ≠ 0#64 := by
      rintro rfl
      exact hl (by decide)
    have hm : (vm.setLarge g va e).mapped (midPath va') (pageIndex va' 21) = e := by
      rw [mapped, hmid, if_pos (Or.inr ⟨rfl, hl⟩)]
    simp [hm, hp, hne]
  · rw [if_neg hp] at hmid hleaf
    rw [mapped_congr hmid, mapped_congr hleaf, if_neg hp]

/-! ## Frames beside the tables -/

/-- An allocated frame that is no table of the address space. -/
structure Beside (vm : VirtualMemory) (u : Nat) : Prop where
  busy : Busy vm.frames u
  notTable : ∀ q, InSlots AllSlots q → q.length ≤ 3 → vm.tables q ≠ some u

/-- `vm'` has the root and the top-level tables of `vm`, and left the frames beside alone. -/
structure Keeps (vm vm' : VirtualMemory) : Prop where
  ready : vm'.initialized = true
  root : vm'.root = vm.root
  slots : ∀ i g, i < 512 → vm.tables [i] = some g → vm'.tables [i] = some g
  beside : ∀ u, Beside vm u → Beside vm' u
  bytes : ∀ u, Beside vm u → ∀ x, u ≤ x → x < u + kPageSize → vm'.mem x = vm.mem x

theorem Keeps.refl (h : vm.initialized = true) : Keeps vm vm :=
  ⟨h, rfl, fun _ _ _ => id, fun _ => id, fun _ _ _ _ _ => rfl⟩

theorem Keeps.trans (h : Keeps vm vm') (h' : Keeps vm' vm'') : Keeps vm vm'' :=
  ⟨h'.ready, h'.root.trans h.root, fun i g hi hg => h'.slots i g hi (h.slots i g hi hg),
    fun u hu => h'.beside u (h.beside u hu),
    fun u hu x h1 h2 => (h'.bytes u (h.beside u hu) x h1 h2).trans (h.bytes u hu x h1 h2)⟩

theorem inSlots_one {i : Nat} (hi : i < 512) : InSlots AllSlots [i] :=
  ⟨by simpa using hi, fun _ _ => trivial⟩

/-- A byte of a table lies in no frame beside the tables. -/
theorem Beside.not_inTable (h : Beside vm u) (ht : Tree AllSlots vm) {x : Nat}
    (hx : InTable AllSlots 3 vm x) : ¬ (u ≤ x ∧ x < u + kPageSize) := by
  obtain ⟨q, g, hs, hl, hg, h1, h2⟩ := hx
  have hne : g ≠ u := by
    rintro rfl
    exact h.notTable q hs hl hg
  have hapart := (ht.owned q g hs hl hg).apart h.busy hne
  unfold kPageSize at *
  omega

theorem Keeps.of_grows {d : Nat} (hi : vm.initialized = true) (ht : Tree AllSlots vm')
    (hg : Grows AllSlots d vm vm') : Keeps vm vm' := by
  have hroot := hg.tables [] _ ⟨by simp, by simp⟩ (by simp) (tables_root hi)
  have hi' := hg.init hi
  rw [tables_root hi'] at hroot
  have hbeside : ∀ u, Beside vm u → Beside vm' u := fun u hu =>
    ⟨hg.busy hu.busy, fun q hs hl => hg.not_table hs hl hu.busy (hu.notTable q hs hl)⟩
  refine ⟨hi', BitVec.eq_of_toNat_eq (Option.some.inj hroot),
    fun i g h512 hgi => hg.tables [i] g (inSlots_one h512) (by simp) hgi, hbeside, ?_⟩
  intro u hu x h1 h2
  by_contra hne
  exact (hbeside u hu).not_inTable ht ((hg.wrote x hne).mono hg.depth) ⟨h1, h2⟩

theorem Keeps.setLeaf (hi : vm.initialized = true) (ht : Tree AllSlots vm)
    (hg : vm.tables (leafPath va) = some g) : Keeps vm (vm.setLeaf g va e) := by
  have htables : ∀ q, InSlots AllSlots q → q.length ≤ 3 →
      (vm.setLeaf g va e).tables q = vm.tables q :=
    fun q hq hl => tables_setLeaf ht trivial hg hq hl
  have hbeside : ∀ u, Beside vm u → Beside (vm.setLeaf g va e) u := fun u hu =>
    ⟨hu.busy, fun q hs hl => htables q hs hl ▸ hu.notTable q hs hl⟩
  refine ⟨hi, rfl, fun i g' h512 hgi => (htables [i] (inSlots_one h512) (by simp)).trans hgi,
    hbeside, ?_⟩
  intro u hu x h1 h2
  by_contra hne
  exact (hbeside u hu).not_inTable (ht.setLeaf trivial hg) (setLeaf_wrote ht trivial hg hne)
    ⟨h1, h2⟩

theorem Keeps.setLarge (hi : vm.initialized = true) (ht : Tree AllSlots vm)
    (hg : vm.tables (midPath va) = some g) (hl : e &&& kEntryLargePage ≠ 0#64) :
    Keeps vm (vm.setLarge g va e) := by
  have htables : ∀ q, InSlots AllSlots q → q.length ≤ 3 →
      (vm.setLarge g va e).tables q = if q = leafPath va then none else vm.tables q :=
    fun q hq hl' => tables_setLarge ht trivial hg hl hq hl'
  have hbeside : ∀ u, Beside vm u → Beside (vm.setLarge g va e) u := by
    refine fun u hu => ⟨hu.busy, fun q hs hl' => ?_⟩
    rw [htables q hs hl']
    split
    · simp
    · exact hu.notTable q hs hl'
  refine ⟨hi, rfl, fun i g' h512 hgi => ?_, hbeside, fun u hu x h1 h2 => ?_⟩
  · rw [htables [i] (inSlots_one h512) (by simp), if_neg (by simp [leafPath])]
    exact hgi
  · by_contra hne
    exact (hbeside u hu).not_inTable (ht.setLarge trivial hg hl)
      ((setLarge_wrote ht trivial hg hl hne).mono (by decide)) ⟨h1, h2⟩

/-! ## Direct-map addresses -/

/-- The largest physical address the direct map is used for. -/
def kDirectMapLimit : Nat := 2 ^ 46

theorem toNat_physToVirt (hp : p < kDirectMapLimit) :
    (physToVirt (BitVec.ofNat 64 p)).toNat = p + kDirectMapBase := by
  unfold kDirectMapLimit at hp
  rw [physToVirt, BitVec.toNat_add, BitVec.toNat_ofNat, BitVec.toNat_ofNat]
  unfold kDirectMapBase
  omega

theorem pageNumber_physToVirt (hp : p < kDirectMapLimit) (hp' : p' < kDirectMapLimit) :
    pageNumber (physToVirt (BitVec.ofNat 64 p)) = pageNumber (physToVirt (BitVec.ofNat 64 p')) ↔
      p / kPageSize = p' / kPageSize := by
  rw [← BitVec.toNat_inj, toNat_pageNumber, toNat_pageNumber, toNat_physToVirt hp,
    toNat_physToVirt hp']
  unfold kDirectMapBase kPageSize kDirectMapLimit at *
  omega

theorem largePageNumber_physToVirt (hp : p < kDirectMapLimit) (hp' : p' < kDirectMapLimit) :
    largePageNumber (physToVirt (BitVec.ofNat 64 p)) =
      largePageNumber (physToVirt (BitVec.ofNat 64 p')) ↔
      p / kLargePageSize2MiB = p' / kLargePageSize2MiB := by
  rw [← BitVec.toNat_inj, toNat_largePageNumber, toNat_largePageNumber, toNat_physToVirt hp,
    toNat_physToVirt hp']
  unfold kDirectMapBase kLargePageSize2MiB kDirectMapLimit at *
  omega

/-- Masking with the low `k` bits keeps the remainder. -/
theorem and_low_eq {a m : BitVec 64} {k : Nat} (hm : m.toNat = 2 ^ k - 1) :
    (a &&& m).toNat = a.toNat % 2 ^ k := by
  rw [BitVec.toNat_and, hm, Nat.and_two_pow_sub_one_eq_mod]

/-- A frame address and an offset inside the frame make up the address. -/
theorem or_offset_eq {b off : BitVec 64} {k : Nat} (hb : b.toNat = p / 2 ^ k * 2 ^ k)
    (hoff : off.toNat = p % 2 ^ k) : b ||| off = BitVec.ofNat 64 p := by
  apply BitVec.eq_of_toNat_eq
  have hlt : p % 2 ^ k < 2 ^ k := Nat.mod_lt _ (Nat.two_pow_pos k)
  have hsum : p / 2 ^ k * 2 ^ k + p % 2 ^ k = p := Nat.div_add_mod' p (2 ^ k)
  have hor : (b ||| off).toNat = p := by
    rw [BitVec.toNat_or, hb, hoff, Nat.mul_comm, ← Nat.two_pow_add_eq_or_of_lt hlt, Nat.mul_comm,
      hsum]
  rw [hor, BitVec.toNat_ofNat, Nat.mod_eq_of_lt]
  rw [← hor]
  exact (b ||| off).isLt

theorem physToVirt_pageOffset (hp : p < kDirectMapLimit) :
    (physToVirt (BitVec.ofNat 64 p) &&& kPageOffsetMask).toNat = p % 2 ^ 12 := by
  rw [and_low_eq (k := 12) rfl, toNat_physToVirt hp]
  unfold kDirectMapBase
  omega

theorem physToVirt_largeOffset (hp : p < kDirectMapLimit) :
    (physToVirt (BitVec.ofNat 64 p) &&& kLargePageOffsetMask2MiB).toNat = p % 2 ^ 21 := by
  rw [and_low_eq (k := 21) rfl, toNat_physToVirt hp]
  unfold kDirectMapBase
  omega

/-! ## The direct map -/

/-- The direct map reaches the physical byte `p`. -/
def MappedAt (vm : VirtualMemory) (p : Nat) : Prop :=
  ∃ f, vm.translate (physToVirt (BitVec.ofNat 64 p)) = some (BitVec.ofNat 64 p, f)

/-- A well-formed tree in which the direct map maps nothing wrongly. -/
structure Direct (vm : VirtualMemory) : Prop where
  tree : Tree AllSlots vm
  exact : ∀ p < kDirectMapLimit, ∀ a f,
    vm.translate (physToVirt (BitVec.ofNat 64 p)) = some (a, f) → a = BitVec.ofNat 64 p

theorem pageIsAlreadyMapped_iff :
    pageIsAlreadyMapped vm (physToVirt (BitVec.ofNat 64 p)) (BitVec.ofNat 64 p) = true ↔
      MappedAt vm p := by
  unfold pageIsAlreadyMapped MappedAt
  cases vm.translate (physToVirt (BitVec.ofNat 64 p)) with
  | none => simp
  | some r =>
    obtain ⟨a, f⟩ := r
    simp

instance (vm : VirtualMemory) (p : Nat) : Decidable (MappedAt vm p) :=
  decidable_of_iff _ pageIsAlreadyMapped_iff

theorem largePageIsAlreadyMapped_iff :
    largePageIsAlreadyMapped vm (physToVirt (BitVec.ofNat 64 c)) (BitVec.ofNat 64 c) = true ↔
      MappedAt vm c ∧ MappedAt vm (c + kLargePageSize2MiB - kPageSize) := by
  have hlast : BitVec.ofNat 64 c + BitVec.ofNat 64 kLargePageSize2MiB - BitVec.ofNat 64 kPageSize =
      BitVec.ofNat 64 (c + kLargePageSize2MiB - kPageSize) := by
    apply BitVec.eq_of_toNat_eq
    rw [BitVec.toNat_sub, BitVec.toNat_add, BitVec.toNat_ofNat, BitVec.toNat_ofNat,
      BitVec.toNat_ofNat, BitVec.toNat_ofNat]
    unfold kLargePageSize2MiB kPageSize
    omega
  have hvirt : physToVirt (BitVec.ofNat 64 c) + BitVec.ofNat 64 kLargePageSize2MiB -
      BitVec.ofNat 64 kPageSize =
      physToVirt (BitVec.ofNat 64 (c + kLargePageSize2MiB - kPageSize)) := by
    rw [← hlast]
    unfold physToVirt
    rw [BitVec.sub_eq_add_neg, BitVec.sub_eq_add_neg]
    ac_rfl
  rw [largePageIsAlreadyMapped, hlast, hvirt, Bool.and_eq_true, pageIsAlreadyMapped_iff,
    pageIsAlreadyMapped_iff]

theorem Direct.mappedAt_iff (h : Direct vm) (hp : p < kDirectMapLimit) :
    MappedAt vm p ↔ vm.lookup (physToVirt (BitVec.ofNat 64 p)) ≠ none := by
  rw [MappedAt, ← translate_eq_lookup h.tree trivial]
  constructor
  · rintro ⟨f, hf⟩
    rw [hf]
    simp
  · intro hne
    obtain ⟨⟨a, f⟩, hr⟩ := Option.ne_none_iff_exists'.mp hne
    exact ⟨f, by rw [hr, h.exact p hp a f hr]⟩

/-- Whether an address is mapped depends only on its page. -/
theorem lookup_isSome_page (h : pageNumber va = pageNumber va') :
    vm.lookup va ≠ none ↔ vm.lookup va' ≠ none := by
  obtain ⟨hpath, h12⟩ := (pageNumber_eq_iff va va').mp h
  have hlarge := (largePageNumber_eq_iff va va').mp ((leafPath_eq_iff va va').mp hpath)
  unfold VirtualMemory.lookup
  rw [hlarge.1, hlarge.2, hpath, h12]
  dsimp only
  split
  · simp
  · split <;> simp

theorem Direct.mappedAt_page (h : Direct vm) (hp : p < kDirectMapLimit) (hc : c < kDirectMapLimit)
    (hpage : p / kPageSize = c / kPageSize) : MappedAt vm p ↔ MappedAt vm c := by
  rw [h.mappedAt_iff hp, h.mappedAt_iff hc]
  exact lookup_isSome_page ((pageNumber_physToVirt hp hc).mpr hpage)

/-- An update that maps exactly the bytes of `R` to themselves. -/
theorem Direct.of_lookup {R : Nat → Prop} [DecidablePred R] (h : Direct vm)
    (ht : Tree AllSlots vm')
    (hl : ∀ p < kDirectMapLimit, if R p then
      ∃ f, vm'.lookup (physToVirt (BitVec.ofNat 64 p)) = some (BitVec.ofNat 64 p, f)
      else vm'.lookup (physToVirt (BitVec.ofNat 64 p)) =
        vm.lookup (physToVirt (BitVec.ofNat 64 p))) :
    Direct vm' ∧ ∀ p < kDirectMapLimit, MappedAt vm' p ↔ MappedAt vm p ∨ R p := by
  have hd : Direct vm' := by
    refine ⟨ht, fun p hp a f hf => ?_⟩
    rw [translate_eq_lookup ht trivial] at hf
    have hlp := hl p hp
    split at hlp
    · obtain ⟨f', hf'⟩ := hlp
      rw [hf'] at hf
      exact (Prod.mk.inj (Option.some.inj hf)).1.symm
    · rw [hlp, ← translate_eq_lookup h.tree trivial] at hf
      exact h.exact p hp a f hf
  refine ⟨hd, fun p hp => ?_⟩
  have hlp := hl p hp
  rw [hd.mappedAt_iff hp, h.mappedAt_iff hp]
  by_cases hR : R p
  · rw [if_pos hR] at hlp
    obtain ⟨f', hf'⟩ := hlp
    simp [hf', hR]
  · rw [if_neg hR] at hlp
    simp [hlp, hR]

/-- What calls for ranges below `stop` do, whether they succeed or not. -/
structure Extends (stop : Nat) (vm vm' : VirtualMemory) : Prop where
  direct : Direct vm'
  keeps : vm.initialized = true → Keeps vm vm'
  below : ∀ p < kDirectMapLimit, MappedAt vm' p → MappedAt vm p ∨ p < stop

variable {stop : Nat}

theorem Extends.refl (h : Direct vm) : Extends stop vm vm := ⟨h, .refl, fun _ _ => Or.inl⟩

theorem Extends.trans (h : Extends stop vm vm') (h' : Extends stop vm' vm'') :
    Extends stop vm vm'' := by
  refine ⟨h'.direct, fun hi => (h.keeps hi).trans (h'.keeps (h.keeps hi).ready),
    fun p hp hm => ?_⟩
  rcases h'.below p hp hm with hm | hlt
  · exact h.below p hp hm
  · exact Or.inr hlt

/-- A turn that could not walk to its entry. -/
theorem Extends.of_grows {d : Nat} (h : Direct vm) (ht : Tree AllSlots vm')
    (hg : Grows AllSlots d vm vm') : Extends stop vm vm' := by
  obtain ⟨hd, hiff⟩ := h.of_lookup (R := fun _ => False) ht fun p _ => by
    rw [if_neg not_false]
    exact hg.lookup _
  exact ⟨hd, fun hi => .of_grows hi ht hg,
    fun p hp hm => Or.inl (((hiff p hp).mp hm).resolve_right not_false)⟩

theorem frameWord_ne_zero {m : Nat} {flags : PageFlags} : frameWord m flags ≠ 0#64 :=
  or_ne_zero_of_right (toWord_withPresent_ne_zero _)

theorem frameWord_address {m : Nat} (hm : m < 2 ^ 40) (flags : PageFlags) :
    (frameWord m flags &&& kEntryAddressMask).toNat = m * kPageSize := by
  have hd := decodeLeaf_frameWord hm flags
  rw [decodeLeaf, if_neg frameWord_ne_zero] at hd
  rw [(Mapping.mk.inj (Option.some.inj hd)).1, toNat_frame hm]

/-- What a 4 KiB turn can do: skip a mapped page, or walk to its leaf entry and set it. -/
theorem mapDirectSmall_cases {m : Nat} (h : Direct vm)
    (hlt : (m + 1) * kPageSize ≤ kDirectMapLimit)
    (he : mapDirectSmall vm (m * kPageSize) = (ok, vm')) :
    (MappedAt vm (m * kPageSize) ∧ ok = true ∧ vm' = vm) ∨
      ∃ vm1, Tree AllSlots vm1 ∧ Grows AllSlots 3 vm vm1 ∧ (ok = false ∧ vm' = vm1 ∨
        ok = true ∧ NoLargePage vm1 (physToVirt (BitVec.ofNat 64 (m * kPageSize))) ∧
          ∃ g, vm1.tables (leafPath (physToVirt (BitVec.ofNat 64 (m * kPageSize)))) = some g ∧
            vm' = vm1.setLeaf g (physToVirt (BitVec.ofNat 64 (m * kPageSize)))
              (frameWord m directFlags)) := by
  have hcl : m * kPageSize < kDirectMapLimit := lt_of_lt_of_le (by unfold kPageSize; omega) hlt
  simp only [mapDirectSmall] at he
  split at he
  · rename_i hm
    cases he
    exact Or.inl ⟨pageIsAlreadyMapped_iff.mp hm, rfl, rfl⟩
  · rename_i hm
    rw [pageIsAlreadyMapped_iff, h.mappedAt_iff hcl, not_not] at hm
    have hn : NoLargePage vm (physToVirt (BitVec.ofNat 64 (m * kPageSize))) := by
      by_contra hl
      simp [VirtualMemory.lookup, show vm.mapped _ _ ≠ 0#64 from hl] at hm
    have hva : physToVirt (BitVec.ofNat 64 (m * kPageSize)) &&& kPageOffsetMask = 0#64 := by
      rw [aligned_iff, toNat_physToVirt hcl]
      unfold kDirectMapBase kPageSize
      omega
    have hm40 : m < 2 ^ 40 := by unfold kPageSize kDirectMapLimit at *; omega
    rw [show directFlags = directFlags.withPresent from rfl] at he
    obtain ⟨vm1, r, hw, hcase⟩ := mapPhysical_one h.tree trivial hn hva hm40 he
    obtain ⟨ht1, hg1, -⟩ := walkToLeaf_create_spec h.tree trivial hn hw
    refine Or.inr ⟨vm1, ht1, hg1, ?_⟩
    rcases hcase with ⟨-, hf, hvm⟩ | ⟨-, htrue, g, hg, hvm⟩
    · exact Or.inl ⟨hf, hvm⟩
    · exact Or.inr ⟨htrue, hg1.noLargePage trivial hn, g, hg, hvm⟩

/-- A 4 KiB turn that succeeds maps its page, and leaves the rest. -/
theorem mapDirectSmall_spec {m : Nat} (h : Direct vm) (hlt : (m + 1) * kPageSize ≤ stop)
    (hstop : stop ≤ kDirectMapLimit) (he : mapDirectSmall vm (m * kPageSize) = (ok, vm')) :
    Extends stop vm vm' ∧ (ok = true →
      ∀ p < kDirectMapLimit, MappedAt vm' p ↔ MappedAt vm p ∨ p / kPageSize = m) := by
  have hlimit := le_trans hlt hstop
  have hcl : m * kPageSize < kDirectMapLimit := lt_of_lt_of_le (by unfold kPageSize; omega) hlimit
  have hpage : m * kPageSize / kPageSize = m := Nat.mul_div_cancel m (by decide)
  have hm40 : m < 2 ^ 40 := by unfold kPageSize kDirectMapLimit at *; omega
  rcases mapDirectSmall_cases h hlimit he with ⟨hm, -, rfl⟩ | ⟨vm1, ht1, hg1, hcase⟩
  · refine ⟨.refl h, fun _ p hp => ⟨Or.inl, ?_⟩⟩
    rintro (hp' | rfl)
    · exact hp'
    · exact (h.mappedAt_page hp hcl hpage.symm).mpr hm
  · rcases hcase with ⟨rfl, rfl⟩ | ⟨-, hn, g, hg, rfl⟩
    · exact ⟨.of_grows h ht1 hg1, fun hok => by cases hok⟩
    · obtain ⟨hd, hiff⟩ := h.of_lookup (R := fun p => p / kPageSize = m)
        (ht1.setLeaf trivial hg) (by
          intro p hp
          rw [lookup_setLeaf ht1 hg hn frameWord_ne_zero]
          by_cases hR : p / kPageSize = m
          · rw [if_pos hR, if_pos ((pageNumber_physToVirt hp hcl).mpr (hR.trans hpage.symm)),
              or_offset_eq (p := p) (k := 12) _ (physToVirt_pageOffset hp)]
            · exact ⟨_, rfl⟩
            · rw [frameWord_address hm40, ← hR]
              rfl
          · rw [if_neg hR, if_neg, hg1.lookup]
            rw [pageNumber_physToVirt hp hcl, hpage]
            exact hR)
      refine ⟨⟨hd, fun hi => ?_, fun p hp hmp => ((hiff p hp).mp hmp).imp_right fun hpm => ?_⟩,
        fun _ => hiff⟩
      · have hkeeps := Keeps.of_grows hi ht1 hg1
        exact hkeeps.trans (.setLeaf hkeeps.ready ht1 hg)
      · unfold kPageSize at *
        omega

theorem getLsbD_kLargePageAddressMask (k : Nat) :
    kLargePageAddressMask2MiB.getLsbD k = decide (21 ≤ k ∧ k < 52) := by
  by_cases hk : k < 64
  · have h : ∀ k < 64, kLargePageAddressMask2MiB.getLsbD k = decide (21 ≤ k ∧ k < 52) := by decide
    exact h k hk
  · rw [BitVec.getLsbD_of_ge _ _ (by omega)]
    simp
    omega

theorem toNat_largeFrame {b : Nat} (hb : b < 2 ^ 31) :
    (BitVec.ofNat 64 (b * kLargePageSize2MiB)).toNat = b * kLargePageSize2MiB := by
  rw [BitVec.toNat_ofNat]
  unfold kLargePageSize2MiB
  omega

theorem largeWord_address {b : Nat} (hb : b < 2 ^ 31) :
    (largeWord (BitVec.ofNat 64 (b * kLargePageSize2MiB)) directFlags &&&
      kLargePageAddressMask2MiB).toNat = b * kLargePageSize2MiB := by
  have hmask : BitVec.ofNat 64 (b * kLargePageSize2MiB) &&& kLargePageAddressMask2MiB =
      BitVec.ofNat 64 (b * kLargePageSize2MiB) := by
    apply and_field_of_aligned getLsbD_kLargePageAddressMask
    · rw [toNat_largeFrame hb]
      exact Nat.mul_mod_left b _
    · rw [toNat_largeFrame hb]
      unfold kLargePageSize2MiB
      omega
  rw [largeWord, hmask, BitVec.or_assoc, and_or_of_masked hmask (by decide), toNat_largeFrame hb]

/-- What a 2 MiB turn can do: skip a block whose first and last page are mapped, or walk to its
third-level entry and set it. -/
theorem mapDirectLarge_cases {b : Nat} (h : Direct vm)
    (hlt : (b + 1) * kLargePageSize2MiB ≤ kDirectMapLimit)
    (he : mapDirectLarge vm (b * kLargePageSize2MiB) = (ok, vm')) :
    ((MappedAt vm (b * kLargePageSize2MiB) ∧
        MappedAt vm ((b + 1) * kLargePageSize2MiB - kPageSize)) ∧ ok = true ∧ vm' = vm) ∨
      ¬ (MappedAt vm (b * kLargePageSize2MiB) ∧
        MappedAt vm ((b + 1) * kLargePageSize2MiB - kPageSize)) ∧
      ∃ vm1, Tree AllSlots vm1 ∧ Grows AllSlots 2 vm vm1 ∧ (ok = false ∧ vm' = vm1 ∨
        ok = true ∧
          ∃ g, vm1.tables (midPath (physToVirt (BitVec.ofNat 64 (b * kLargePageSize2MiB)))) =
              some g ∧
            vm' = vm1.setLarge g (physToVirt (BitVec.ofNat 64 (b * kLargePageSize2MiB)))
              (largeWord (BitVec.ofNat 64 (b * kLargePageSize2MiB)) directFlags)) := by
  have hcl : b * kLargePageSize2MiB < kDirectMapLimit :=
    lt_of_lt_of_le (by unfold kLargePageSize2MiB; omega) hlt
  have hsucc : (b + 1) * kLargePageSize2MiB = b * kLargePageSize2MiB + kLargePageSize2MiB := by
    rw [Nat.add_mul, Nat.one_mul]
  simp only [mapDirectLarge] at he
  split at he
  · rename_i hm
    rw [largePageIsAlreadyMapped_iff, ← hsucc] at hm
    cases he
    exact Or.inl ⟨hm, rfl, rfl⟩
  · rename_i hm
    rw [largePageIsAlreadyMapped_iff, ← hsucc] at hm
    have hb : b < 2 ^ 31 := by unfold kLargePageSize2MiB kDirectMapLimit at *; omega
    have hva : physToVirt (BitVec.ofNat 64 (b * kLargePageSize2MiB)) &&& kLargePageOffsetMask2MiB =
        0#64 := by
      apply BitVec.eq_of_toNat_eq
      rw [physToVirt_largeOffset hcl]
      exact Nat.mul_mod_left b _
    have hpa : BitVec.ofNat 64 (b * kLargePageSize2MiB) &&& kLargePageOffsetMask2MiB = 0#64 := by
      apply BitVec.eq_of_toNat_eq
      rw [and_low_eq (k := 21) rfl, toNat_largeFrame hb]
      exact Nat.mul_mod_left b _
    rw [mapPhysical2m, if_neg (by simp [hva, hpa]), show (1#64).toNat = 0 + 1 from rfl,
      mapLargePages] at he
    simp only [largePageAt, Nat.zero_mul, BitVec.add_zero] at he
    rcases hmap : vm.mapLargePage (physToVirt (BitVec.ofNat 64 (b * kLargePageSize2MiB)))
      (BitVec.ofNat 64 (b * kLargePageSize2MiB)) directFlags with ⟨ok1, vm2⟩
    obtain ⟨vm1, ht1, hg1, hcase⟩ := mapLargePage_spec h.tree trivial hmap
    rw [hmap] at he
    refine Or.inr ⟨hm, vm1, ht1, hg1, ?_⟩
    rcases hcase with ⟨rfl, rfl⟩ | ⟨rfl, g, hg, rfl⟩
    · cases he
      exact Or.inl ⟨rfl, rfl⟩
    · cases he
      exact Or.inr ⟨rfl, g, hg, rfl⟩

/-- A 2 MiB turn that succeeds maps its 512 pages, unless the first and the last of them are
mapped. -/
theorem mapDirectLarge_spec {b : Nat} (h : Direct vm) (hlt : (b + 1) * kLargePageSize2MiB ≤ stop)
    (hstop : stop ≤ kDirectMapLimit)
    (he : mapDirectLarge vm (b * kLargePageSize2MiB) = (ok, vm')) :
    Extends stop vm vm' ∧ (ok = true → ∀ p < kDirectMapLimit, MappedAt vm' p ↔ MappedAt vm p ∨
      p / kLargePageSize2MiB = b ∧ ¬ (MappedAt vm (b * kLargePageSize2MiB) ∧
        MappedAt vm ((b + 1) * kLargePageSize2MiB - kPageSize))) := by
  have hlimit := le_trans hlt hstop
  have hcl : b * kLargePageSize2MiB < kDirectMapLimit :=
    lt_of_lt_of_le (by unfold kLargePageSize2MiB; omega) hlimit
  have hpage : b * kLargePageSize2MiB / kLargePageSize2MiB = b := Nat.mul_div_cancel b (by decide)
  have hb : b < 2 ^ 31 := by unfold kLargePageSize2MiB kDirectMapLimit at *; omega
  rcases mapDirectLarge_cases h hlimit he with ⟨hm, -, rfl⟩ | ⟨hm, vm1, ht1, hg1, hcase⟩
  · exact ⟨.refl h, fun _ p _ => ⟨Or.inl, fun hor => hor.resolve_right (fun hc => hc.2 hm)⟩⟩
  · rcases hcase with ⟨rfl, rfl⟩ | ⟨-, g, hg, rfl⟩
    · exact ⟨.of_grows h ht1 hg1, fun hok => by cases hok⟩
    · have hl := largeWord_large (BitVec.ofNat 64 (b * kLargePageSize2MiB)) directFlags
      obtain ⟨hd, hiff⟩ := h.of_lookup (R := fun p => p / kLargePageSize2MiB = b)
        (ht1.setLarge trivial hg hl) (by
          intro p hp
          rw [lookup_setLarge ht1 hg hl]
          by_cases hR : p / kLargePageSize2MiB = b
          · rw [if_pos hR, if_pos ((largePageNumber_physToVirt hp hcl).mpr (hR.trans hpage.symm)),
              or_offset_eq (p := p) (k := 21) _ (physToVirt_largeOffset hp)]
            · exact ⟨_, rfl⟩
            · rw [largeWord_address hb, ← hR]
              rfl
          · rw [if_neg hR, if_neg, hg1.lookup]
            rw [largePageNumber_physToVirt hp hcl, hpage]
            exact hR)
      refine ⟨⟨hd, fun hi => ?_, fun p hp hmp => ((hiff p hp).mp hmp).imp_right fun hpb => ?_⟩,
        fun _ p hp => by rw [hiff p hp, and_iff_left hm]⟩
      · have hkeeps := Keeps.of_grows hi ht1 hg1
        exact hkeeps.trans (.setLarge hkeeps.ready ht1 hg hl)
      · unfold kLargePageSize2MiB at *
        omega

/-! ## One call -/

/-- The 2 MiB block of `p` lies in the range from `start` to `stop`, and its first and last page
are mapped. -/
def Skipped (vm : VirtualMemory) (start stop p : Nat) : Prop :=
  start ≤ p / kLargePageSize2MiB * kLargePageSize2MiB ∧
    (p / kLargePageSize2MiB + 1) * kLargePageSize2MiB ≤ stop ∧
    MappedAt vm (p / kLargePageSize2MiB * kLargePageSize2MiB) ∧
    MappedAt vm ((p / kLargePageSize2MiB + 1) * kLargePageSize2MiB - kPageSize)

/-- What a completed loop has mapped. -/
def LoopMaps (vm vm' : VirtualMemory) (start stop : Nat) : Prop :=
  ∀ p < kDirectMapLimit, MappedAt vm' p ↔
    MappedAt vm p ∨ (start ≤ p ∧ p < stop) ∧ ¬ Skipped vm start stop p

theorem useLargePage_iff {m : Nat} (stop : Nat) (hm : m * kPageSize < kDirectMapLimit) :
    useLargePage (m * kPageSize) stop = true ↔
      ∃ b, m * kPageSize = b * kLargePageSize2MiB ∧ m * kPageSize + kLargePageSize2MiB ≤ stop := by
  simp only [useLargePage, Bool.and_eq_true, decide_eq_true_eq, toNat_physToVirt hm]
  constructor
  · rintro ⟨⟨h1, -⟩, h2⟩
    refine ⟨m * kPageSize / kLargePageSize2MiB, ?_, ?_⟩ <;>
      unfold kLargePageSize2MiB kPageSize at * <;> omega
  · rintro ⟨b, h1, h2⟩
    unfold kLargePageSize2MiB kPageSize kDirectMapBase at *
    omega

/-- A 4 KiB turn that starts no whole block does not matter to later blocks. -/
theorem skipped_small {vm1 : VirtualMemory} {m stop : Nat} (hstop : stop ≤ kDirectMapLimit)
    (hno : ¬ ∃ b, m * kPageSize = b * kLargePageSize2MiB ∧
      m * kPageSize + kLargePageSize2MiB ≤ stop)
    (h1 : ∀ p < kDirectMapLimit, MappedAt vm1 p ↔ MappedAt vm p ∨ p / kPageSize = m) :
    Skipped vm1 ((m + 1) * kPageSize) stop p ↔ Skipped vm (m * kPageSize) stop p := by
  unfold Skipped
  unfold kLargePageSize2MiB kPageSize at *
  generalize p / 2097152 = b
  by_cases hb : (b + 1) * 2097152 ≤ stop
  swap
  · simp only [hb, false_and, and_false]
  have hne : m * 4096 ≠ b * 2097152 := fun heq => hno ⟨b, heq, by omega⟩
  clear hno
  by_cases ha : (m + 1) * 4096 ≤ b * 2097152
  · have hfirst := h1 (b * 2097152) (by omega)
    have hlast := h1 ((b + 1) * 2097152 - 4096) (by omega)
    rw [or_iff_left (by omega)] at hfirst hlast
    rw [hfirst, hlast, and_iff_right ha, and_iff_right (show m * 4096 ≤ b * 2097152 by lia)]
  · have ha' : ¬ m * 4096 ≤ b * 2097152 := by lia
    simp only [ha, ha', false_and]

/-- Progress of the loop by one 4 KiB page that starts no whole block. -/
theorem LoopMaps.small {vm1 : VirtualMemory} {m stop : Nat} (hstop : stop ≤ kDirectMapLimit)
    (hm : (m + 1) * kPageSize ≤ stop)
    (hno : ¬ ∃ b, m * kPageSize = b * kLargePageSize2MiB ∧
      m * kPageSize + kLargePageSize2MiB ≤ stop)
    (h1 : ∀ p < kDirectMapLimit, MappedAt vm1 p ↔ MappedAt vm p ∨ p / kPageSize = m)
    (h2 : LoopMaps vm1 vm' ((m + 1) * kPageSize) stop) :
    LoopMaps vm vm' (m * kPageSize) stop := by
  intro p hp
  rw [h2 p hp, h1 p hp, skipped_small hstop hno h1]
  by_cases hpm : p / kPageSize = m
  · have hns : ¬ Skipped vm (m * kPageSize) stop p := by
      rintro ⟨ha, hb, -, -⟩
      unfold kLargePageSize2MiB kPageSize at *
      exact hno ⟨p / 2097152, by lia, by lia⟩
    have hin : m * kPageSize ≤ p ∧ p < stop := by
      unfold kPageSize at hpm hm ⊢
      omega
    simp [hpm, hns, hin]
  · have hin : (m + 1) * kPageSize ≤ p ∧ p < stop ↔ m * kPageSize ≤ p ∧ p < stop := by
      unfold kPageSize at hpm ⊢
      omega
    simp [hpm, hin]

/-- Progress of the loop by one block. -/
theorem LoopMaps.large {vm1 : VirtualMemory} {b stop : Nat} (hstop : stop ≤ kDirectMapLimit)
    (hb : (b + 1) * kLargePageSize2MiB ≤ stop)
    (h1 : ∀ p < kDirectMapLimit, MappedAt vm1 p ↔ MappedAt vm p ∨
      p / kLargePageSize2MiB = b ∧ ¬ (MappedAt vm (b * kLargePageSize2MiB) ∧
        MappedAt vm ((b + 1) * kLargePageSize2MiB - kPageSize)))
    (h2 : LoopMaps vm1 vm' ((b + 1) * kLargePageSize2MiB) stop) :
    LoopMaps vm vm' (b * kLargePageSize2MiB) stop := by
  intro p hp
  rw [h2 p hp, h1 p hp]
  by_cases hpb : p / kLargePageSize2MiB = b
  · have hin : b * kLargePageSize2MiB ≤ p ∧ p < stop := by
      unfold kLargePageSize2MiB at hpb hb ⊢
      lia
    have hlt : ¬ (b + 1) * kLargePageSize2MiB ≤ p := by
      unfold kLargePageSize2MiB at hpb ⊢
      lia
    have hskip : Skipped vm (b * kLargePageSize2MiB) stop p ↔
        MappedAt vm (b * kLargePageSize2MiB) ∧
          MappedAt vm ((b + 1) * kLargePageSize2MiB - kPageSize) := by
      simp [Skipped, hpb, hb]
    simp [hpb, hin, hlt, hskip]
  · have hskip : (b + 1) * kLargePageSize2MiB ≤ p →
        (Skipped vm1 ((b + 1) * kLargePageSize2MiB) stop p ↔
          Skipped vm (b * kLargePageSize2MiB) stop p) := by
      intro hle
      unfold Skipped
      unfold kLargePageSize2MiB kPageSize at *
      generalize hc : p / 2097152 = c at *
      by_cases hcs : (c + 1) * 2097152 ≤ stop
      swap
      · simp only [hcs, false_and, and_false]
      have hfirst := h1 (c * 2097152) (by omega)
      have hlast := h1 ((c + 1) * 2097152 - 4096) (by omega)
      rw [or_iff_left (fun h => by lia)] at hfirst hlast
      rw [hfirst, hlast, and_iff_right (show (b + 1) * 2097152 ≤ c * 2097152 by lia),
        and_iff_right (show b * 2097152 ≤ c * 2097152 by lia)]
    have hin : (b + 1) * kLargePageSize2MiB ≤ p ∧ p < stop ↔
        b * kLargePageSize2MiB ≤ p ∧ p < stop := by
      unfold kLargePageSize2MiB at hpb ⊢
      lia
    by_cases hle : (b + 1) * kLargePageSize2MiB ≤ p
    · rw [hskip hle, hin]
      simp [hpb]
    · have hle' : ¬ (b * kLargePageSize2MiB ≤ p ∧ p < stop) := by
        rw [← hin]
        exact fun h => hle h.1
      simp [hpb, hle, hle']

theorem loopMaps_empty {m e : Nat} (hem : e ≤ m) :
    LoopMaps vm vm (m * kPageSize) (e * kPageSize) := by
  intro p _
  have hle := Nat.mul_le_mul_right kPageSize hem
  exact ⟨Or.inl, fun hor => hor.resolve_right (fun hc => by omega)⟩

/-- A loop that succeeds reaches `stop`, and maps every page on the way that it does not skip. -/
theorem mapDirectLoop_spec {e : Nat} (hstop : e * kPageSize ≤ kDirectMapLimit)
    (turns m : Nat) (h : Direct vm) (hturns : e - m ≤ turns)
    (he : mapDirectLoop (e * kPageSize) turns (m * kPageSize) vm = (ok, vm')) :
    Extends (e * kPageSize) vm vm' ∧
      (ok = true → LoopMaps vm vm' (m * kPageSize) (e * kPageSize)) := by
  induction turns generalizing m vm with
  | zero =>
    obtain ⟨-, rfl⟩ := Prod.mk.inj he
    exact ⟨.refl h, fun _ => loopMaps_empty (by omega)⟩
  | succ turns ih =>
    unfold mapDirectLoop at he
    by_cases hlt : m * kPageSize < e * kPageSize
    swap
    · rw [if_neg hlt] at he
      obtain ⟨-, rfl⟩ := Prod.mk.inj he
      exact ⟨.refl h, fun _ =>
        loopMaps_empty (Nat.le_of_mul_le_mul_right (not_lt.mp hlt) (by decide))⟩
    have hme : m < e := Nat.lt_of_mul_lt_mul_right hlt
    have hnext : (m + 1) * kPageSize ≤ e * kPageSize := Nat.mul_le_mul_right _ hme
    have hiff := useLargePage_iff (e * kPageSize) (lt_of_lt_of_le hlt hstop)
    rw [if_pos hlt] at he
    by_cases hlarge : useLargePage (m * kPageSize) (e * kPageSize) = true
    · obtain ⟨b, hb, hfit⟩ := hiff.mp hlarge
      have hsucc : m * kPageSize + kLargePageSize2MiB = (b + 1) * kLargePageSize2MiB := by
        rw [hb, Nat.add_mul, Nat.one_mul]
      have hpages : (b + 1) * kLargePageSize2MiB = (m + 512) * kPageSize := by
        rw [← hsucc, Nat.add_mul]
        rfl
      rw [if_pos hlarge] at he
      rcases hturn : mapDirectLarge vm (m * kPageSize) with ⟨ok1, vm1⟩
      rw [hturn] at he
      rw [hb] at hturn ⊢
      rw [hsucc] at hfit
      obtain ⟨hext, hmap⟩ := mapDirectLarge_spec h hfit hstop hturn
      cases ok1 with
      | false =>
        cases he
        exact ⟨hext, fun hok => by cases hok⟩
      | true =>
        rw [hsucc, hpages] at he
        obtain ⟨hext', hrest⟩ := ih (m + 512) hext.direct (by omega) he
        rw [← hpages] at hrest
        exact ⟨hext.trans hext', fun hok => .large hstop hfit (hmap rfl) (hrest hok)⟩
    · rw [if_neg hlarge] at he
      rcases hturn : mapDirectSmall vm (m * kPageSize) with ⟨ok1, vm1⟩
      rw [hturn] at he
      obtain ⟨hext, hmap⟩ := mapDirectSmall_spec h hnext hstop hturn
      cases ok1 with
      | false =>
        cases he
        exact ⟨hext, fun hok => by cases hok⟩
      | true =>
        rw [show m * kPageSize + kPageSize = (m + 1) * kPageSize by rw [Nat.add_mul, Nat.one_mul]]
          at he
        obtain ⟨hext', hrest⟩ := ih (m + 1) hext.direct (by omega) he
        exact ⟨hext.trans hext', fun hok =>
          .small hstop hnext (fun hex => hlarge (hiff.mpr hex)) (hmap rfl) (hrest hok)⟩

/-- The page-rounded range of a call. -/
def rangeStart (start : Nat) : Nat := alignDown start kPageSize

def rangeStop (start length : Nat) : Nat := alignUp (u64 (start + length)) kPageSize

theorem rangeStop_eq {start length : Nat} (hrange : start + length ≤ kDirectMapLimit) :
    rangeStop start length = (start + length + 4095) / kPageSize * kPageSize := by
  rw [rangeStop, u64_of_lt (by unfold kDirectMapLimit at hrange; omega),
    show kPageSize = 2 ^ 12 from rfl,
    alignUp_eq (by decide) (by unfold kDirectMapLimit at hrange; omega)]
  rfl

theorem mapDirectRange_spec {start length : Nat} (h : Direct vm)
    (hrange : start + length ≤ kDirectMapLimit) (hlen : length ≠ 0)
    (he : mapDirectRange vm start length = (ok, vm')) :
    Extends (rangeStop start length) vm vm' ∧
      (ok = true → LoopMaps vm vm' (rangeStart start) (rangeStop start length)) := by
  have hstart : rangeStart start = start / kPageSize * kPageSize :=
    alignDown_eq (k := 12) (by decide) (by unfold kDirectMapLimit at hrange; omega)
  rw [mapDirectRange, if_neg hlen] at he
  change mapDirectLoop (rangeStop start length)
    ((rangeStop start length - rangeStart start) / kPageSize) (rangeStart start) vm = _ at he
  rw [hstart, rangeStop_eq hrange] at he ⊢
  refine mapDirectLoop_spec ?_ _ _ h ?_ he
  · unfold kDirectMapLimit kPageSize at *
    omega
  · rw [← Nat.sub_mul, Nat.mul_div_cancel _ (by decide)]

theorem in_range_of_requested {start length : Nat} (hrange : start + length ≤ kDirectMapLimit)
    (hp : start ≤ p ∧ p < start + length) :
    rangeStart start ≤ p ∧ p < rangeStop start length := by
  rw [rangeStart, rangeStop, u64_of_lt (by unfold kDirectMapLimit at hrange; omega),
    show kPageSize = 2 ^ 12 from rfl,
    alignUp_eq (by decide) (by unfold kDirectMapLimit at hrange; omega),
    alignDown_eq (by decide) (by unfold kDirectMapLimit at hrange; omega)]
  omega

/-! ## Runs -/

/-- The two entry points of the direct map. -/
inductive DirectCall where
  | direct (start length : Nat)
  | mmio (start length : Nat)
  deriving DecidableEq, Repr

namespace DirectCall

def start : DirectCall → Nat
  | direct start _ | mmio start _ => start

def length : DirectCall → Nat
  | direct _ length | mmio _ length => length

def exec (vm : VirtualMemory) : DirectCall → Bool × VirtualMemory
  | direct start length => mapDirectRange vm start length
  | mmio start length => mapMmioRange vm start length

def next (vm : VirtualMemory) (call : DirectCall) : VirtualMemory := (call.exec vm).2

def run (vm : VirtualMemory) (calls : List DirectCall) : VirtualMemory := calls.foldl next vm

/-- The byte was asked for by the call. -/
def Requests (call : DirectCall) (p : Nat) : Prop := call.start ≤ p ∧ p < call.start + call.length

/-- A whole 2 MiB block of the call's page-rounded range whose first and last page are mapped has
no requested byte that is not mapped. -/
def NoHole (vm : VirtualMemory) (call : DirectCall) : Prop :=
  ∀ p, call.Requests p → Skipped vm (rangeStart call.start) (rangeStop call.start call.length) p →
    MappedAt vm p

theorem exec_eq (vm : VirtualMemory) (call : DirectCall) :
    call.exec vm = mapDirectRange vm call.start call.length := by
  cases call <;> rfl

/-- One successful call: nothing is unmapped, and the requested bytes are mapped exactly when the
state had no hole. -/
theorem exec_spec {call : DirectCall} (h : Direct vm)
    (hrange : call.start + call.length ≤ kDirectMapLimit) (htrue : (call.exec vm).1 = true) :
    Direct (call.next vm) ∧ (∀ p < kDirectMapLimit, MappedAt vm p → MappedAt (call.next vm) p) ∧
      ((∀ p, call.Requests p → MappedAt (call.next vm) p) ↔ call.NoHole vm) := by
  have he : mapDirectRange vm call.start call.length = (true, call.next vm) := by
    rw [next, ← htrue, exec_eq]
  by_cases hlen : call.length = 0
  · rw [mapDirectRange, if_pos hlen] at he
    rw [← (Prod.mk.inj he).2]
    refine ⟨h, fun _ _ hm => hm, fun _ p hr => ?_, fun _ p hr => ?_⟩ <;>
      · unfold Requests at hr
        omega
  · obtain ⟨hext, hmaps⟩ := mapDirectRange_spec h hrange hlen he
    replace hmaps := hmaps rfl
    refine ⟨hext.direct, fun p hp hm => (hmaps p hp).mpr (Or.inl hm), ?_⟩
    have hreq : ∀ p, call.Requests p → (MappedAt (call.next vm) p ↔
        (Skipped vm (rangeStart call.start) (rangeStop call.start call.length) p →
          MappedAt vm p)) := by
      intro p hr
      rw [hmaps p (lt_of_lt_of_le hr.2 hrange), and_iff_right (in_range_of_requested hrange hr),
        or_comm, imp_iff_not_or]
    exact forall₂_congr hreq

/-- A call for a range below a page-aligned `stop` maps nothing at or above it. -/
theorem next_extends {call : DirectCall} (h : Direct vm)
    (hrange : call.start + call.length ≤ stop) (hstop : stop ≤ kDirectMapLimit)
    (haligned : stop % kPageSize = 0) : Extends stop vm (call.next vm) := by
  rw [next, exec_eq]
  by_cases hlen : call.length = 0
  · rw [mapDirectRange, if_pos hlen]
    exact .refl h
  · obtain ⟨hext, -⟩ := mapDirectRange_spec h (hrange.trans hstop) hlen rfl
    refine ⟨hext.direct, hext.keeps, fun p hp hm => (hext.below p hp hm).imp_right fun hlt => ?_⟩
    rw [rangeStop_eq (hrange.trans hstop)] at hlt
    unfold kPageSize at *
    omega

/-- All bytes requested by the calls are mapped. -/
def Covered (vm : VirtualMemory) (calls : List DirectCall) : Prop :=
  ∀ call ∈ calls, ∀ p, call.Requests p → MappedAt vm p

section Runs

variable {calls : List DirectCall}

/-- The ranges lie in the direct map. -/
def InLimit (calls : List DirectCall) : Prop :=
  ∀ call ∈ calls, call.start + call.length ≤ kDirectMapLimit

/-- Every call of the run returns true. -/
def AllTrue (vm : VirtualMemory) (calls : List DirectCall) : Prop :=
  Along next (fun s call => (call.exec s).1 = true) vm calls

theorem covered_of_noHole (done : List DirectCall) (h : Direct vm) (hdone : InLimit done)
    (hrange : InLimit calls) (htrue : AllTrue vm calls) (hhole : Along next NoHole vm calls)
    (hc : Covered vm done) (k : Nat) :
    Covered (run vm (calls.take k)) (done ++ calls.take k) := by
  induction calls generalizing vm done k with
  | nil => simpa [run] using hc
  | cons call calls ih =>
    cases k with
    | zero => simpa [run] using hc
    | succ k =>
      have hlim := hrange call (by simp)
      obtain ⟨hd, hmono, hiff⟩ := exec_spec h hlim htrue.1
      have hall : InLimit (done ++ [call]) := by
        intro c hmem
        rcases List.mem_append.mp hmem with hmem | hmem
        · exact hdone c hmem
        · rwa [List.mem_singleton.mp hmem]
      have hcov : Covered (next vm call) (done ++ [call]) := by
        intro c hmem p hr
        rcases List.mem_append.mp hmem with hmem | hmem
        · exact hmono p (lt_of_lt_of_le hr.2 (hdone c hmem)) (hc c hmem p hr)
        · rw [List.mem_singleton.mp hmem] at hr
          exact hiff.mpr hhole.1 p hr
      have hrest := ih (done ++ [call]) hd hall
        (fun c hmem => hrange c (List.mem_cons_of_mem _ hmem)) htrue.2 hhole.2 hcov k
      simpa [run] using hrest

theorem noHole_of_covered (h : Direct vm) (hrange : InLimit calls) (htrue : AllTrue vm calls)
    (hc : ∀ k, Covered (run vm (calls.take k)) (calls.take k)) : Along next NoHole vm calls := by
  induction calls generalizing vm with
  | nil => trivial
  | cons call calls ih =>
    obtain ⟨hd, -, hiff⟩ := exec_spec h (hrange call (by simp)) htrue.1
    refine ⟨hiff.mp (fun p hr => hc 1 call (by simp) p hr), ih hd
      (fun c hmem => hrange c (List.mem_cons_of_mem _ hmem)) htrue.2 (fun k c hmem p hr => ?_)⟩
    exact hc (k + 1) c (List.mem_cons_of_mem _ hmem) p hr

end Runs

theorem direct_fresh (hfresh : vm.initialized = false) (hframes : vm.frames.Tracked) :
    Direct vm := by
  refine ⟨tree_fresh hfresh hframes, fun p _ a f hf => ?_⟩
  simp [VirtualMemory.translate, hfresh] at hf

/-- In a run of calls on a new address space that all return true, the requested bytes are mapped
in every state exactly when no call met a block with a hole. -/
theorem direct_map_covers_iff (vm : VirtualMemory) (hfresh : vm.initialized = false)
    (hframes : vm.frames.Tracked) (calls : List DirectCall) (hrange : InLimit calls)
    (htrue : AllTrue vm calls) :
    (∀ k, Covered (run vm (calls.take k)) (calls.take k)) ↔ Along next NoHole vm calls := by
  have hd := direct_fresh hfresh hframes
  refine ⟨noHole_of_covered hd hrange htrue, fun hhole k => ?_⟩
  exact covered_of_noHole [] hd (by simp [InLimit]) hrange htrue hhole (by simp [Covered]) k

/-- A 2 MiB call and a device page inside it. -/
theorem direct_map_covers_block :
    AllTrue bootedSpace [direct 0 0x200000, mmio 0x1000 0x800] ∧
      ∀ k, Covered (run bootedSpace ([direct 0 0x200000, mmio 0x1000 0x800].take k))
        ([direct 0 0x200000, mmio 0x1000 0x800].take k) := by
  have htrue : AllTrue bootedSpace [direct 0 0x200000, mmio 0x1000 0x800] :=
    ⟨by decide +kernel, by decide +kernel, trivial⟩
  have hlimit : InLimit [direct 0 0x200000, mmio 0x1000 0x800] := by
    simp [InLimit, start, length, kDirectMapLimit]
  refine ⟨htrue, (direct_map_covers_iff bootedSpace rfl PageFrameContainer.bootedFrames_tracked _
    hlimit htrue).mpr ⟨?_, ?_, trivial⟩⟩
  · rintro p - ⟨-, -, ⟨f, hf⟩, -⟩
    simp [bootedSpace, VirtualMemory.translate] at hf
  · rintro p - ⟨-, hle, -, -⟩
    have hstop : rangeStop 0x1000 0x800 = 0x2000 := by decide
    change (p / kLargePageSize2MiB + 1) * kLargePageSize2MiB ≤ rangeStop 0x1000 0x800 at hle
    rw [hstop, kLargePageSize2MiB] at hle
    omega

/-- The first and the last page of a block are mapped, then the whole block is asked for: all
calls return true and the second page is not mapped. -/
theorem direct_map_leaves_hole :
    InLimit [direct 0 0x1000, direct 0x1FF000 0x1000, direct 0 0x200000] ∧
    AllTrue bootedSpace [direct 0 0x1000, direct 0x1FF000 0x1000, direct 0 0x200000] ∧
    ¬ Covered (run bootedSpace [direct 0 0x1000, direct 0x1FF000 0x1000, direct 0 0x200000])
      [direct 0 0x1000, direct 0x1FF000 0x1000, direct 0 0x200000] := by
  refine ⟨by simp [InLimit, start, length, kDirectMapLimit],
    ⟨by decide +kernel, by decide +kernel, by decide +kernel, trivial⟩, fun hc => ?_⟩
  have hmapped := hc (direct 0 0x200000) (by simp) 0x1000 (by simp [Requests, start, length])
  exact absurd hmapped (by decide +kernel)

end DirectCall
end Os1
