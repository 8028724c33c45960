import Os1.Mm.LargePages
import Os1.Mm.UserView

/-! What `translate` says of the rights of a page, and what the processor grants. -/
namespace Os1.VirtualMemory

open PageFrameContainer

/-! ## Rights -/

/-- The bits of an entry that decide on an access. -/
structure AccessRights where
  user : Bool
  write : Bool
  noExecute : Bool
  deriving DecidableEq, Repr

def accessRights (e : BitVec 64) : AccessRights where
  user := e.getLsbD 2
  write := e.getLsbD 1
  noExecute := e.getLsbD 63

def isPresent (e : BitVec 64) : Bool := e.getLsbD 0

/-- Two levels allow what both allow; each of them can forbid execution. -/
def AccessRights.combine (r s : AccessRights) : AccessRights :=
  ⟨r.user && s.user, r.write && s.write, r.noExecute || s.noExecute⟩

/-- The rights that the processor's walk grants at an address, where every level is present. -/
def processorRights (vm : VirtualMemory) (va : BitVec 64) : Option AccessRights :=
  if !vm.initialized then none
  else if !isPresent (vm.pml4e va) || !isPresent (vm.pml3e va) || !isPresent (vm.pml2e va) then none
  else
    let upper := ((accessRights (vm.pml4e va)).combine (accessRights (vm.pml3e va))).combine
      (accessRights (vm.pml2e va))
    if vm.pml2e va &&& kEntryLargePage ≠ 0#64 then some upper
    else if !isPresent (vm.pml1e va) then none
    else some (upper.combine (accessRights (vm.pml1e va)))

/-- Where `translate` succeeds, its flags are the rights that the processor grants. -/
def RightsAgree (vm : VirtualMemory) : Prop :=
  ∀ va pa flags, vm.translate va = some (pa, flags) →
    vm.processorRights va = some (accessRights flags)

/-- The three entries above the leaf entry of `va` are open to user code. -/
structure UserTables (vm : VirtualMemory) (va : BitVec 64) : Prop where
  pml4 : (vm.entryOf [] (pageIndex va 39)).getLsbD 2 = true
  pml3 : (vm.entryOf [pageIndex va 39] (pageIndex va 30)).getLsbD 2 = true
  pml2 : (vm.entryOf (midPath va) (pageIndex va 21)).getLsbD 2 = true

/-- A call of `protect` that gives pages to user code reaches only pages whose tables are open to
user code already. It stops at the first page that is not mapped. -/
def ProtectsOpenPages (vm : VirtualMemory) : PageOp → Prop
  | .protect va n flags => ¬ (PageOp.protect va n flags).Refused → flags.user = true →
    ∀ i < n.toNat, (∀ j ≤ i, vm.leafOf (pageAt va j) ≠ 0#64) → UserTables vm (pageAt va i)
  | _ => True

/-- A call of `free` frees no page table of the address space. -/
def FreesNoTable (vm : VirtualMemory) : PageOp → Prop
  | .free va n => MapsNoTable vm va n.toNat
  | _ => True

variable {vm vm' vm'' : VirtualMemory} {va va' e : BitVec 64} {flags : PageFlags} {g j n : Nat}
  {q : List Nat} {u : Bool}

/-! ## Entry words -/

/-- An entry for a lower table: it forbids nothing but, perhaps, access by user code. -/
structure TableEntry (e : BitVec 64) : Prop where
  present : isPresent e = true
  write : e.getLsbD 1 = true
  execute : e.getLsbD 63 = false

theorem getLsbD_or_of_masked {k : Nat} (hk : ¬ (12 ≤ k ∧ k < 52)) (a f : BitVec 64) :
    ((a &&& kEntryAddressMask) ||| f).getLsbD k = f.getLsbD k := by
  rw [BitVec.getLsbD_or, BitVec.getLsbD_and, getLsbD_kEntryAddressMask, decide_eq_false hk,
    Bool.and_false, Bool.false_or]

theorem getLsbD_not_masked {k : Nat} (hk : ¬ (12 ≤ k ∧ k < 52)) (hk' : k < 64) (e : BitVec 64) :
    (e &&& ~~~kEntryAddressMask).getLsbD k = e.getLsbD k := by
  rw [BitVec.getLsbD_and, BitVec.getLsbD_not, getLsbD_kEntryAddressMask, decide_eq_false hk]
  simp [hk']

theorem tableEntry_flags (a : BitVec 64) (u : Bool) :
    TableEntry ((a &&& kEntryAddressMask) ||| tableEntryFlags u) := by
  constructor
  · rw [isPresent, getLsbD_or_of_masked (by decide)]
    cases u <;> decide
  · rw [getLsbD_or_of_masked (by decide)]
    cases u <;> decide
  · rw [getLsbD_or_of_masked (by decide)]
    cases u <;> decide

theorem tableEntryFlags_user (a : BitVec 64) :
    ((a &&& kEntryAddressMask) ||| tableEntryFlags true).getLsbD 2 = true := by
  rw [getLsbD_or_of_masked (by decide)]
  decide

theorem TableEntry.or_user (h : TableEntry e) : TableEntry (e ||| PageFlags.userBit) := by
  obtain ⟨hp, hw, hx⟩ := h
  unfold isPresent at hp
  constructor <;> simp only [isPresent, BitVec.getLsbD_or, hp, hw, hx] <;> decide

/-- The leaf words that the operations write. -/
theorem leafWord_bits (a : BitVec 64) (flags : PageFlags) :
    isPresent ((a &&& kEntryAddressMask) ||| flagsToEntry flags.withPresent) = true ∧
      ((a &&& kEntryAddressMask) ||| flagsToEntry flags.withPresent).getLsbD 2 = flags.user := by
  rw [isPresent, getLsbD_or_of_masked (by decide), getLsbD_or_of_masked (by decide)]
  rcases flags with ⟨_ | _, _ | _, _ | _, _ | _⟩ <;> decide

theorem accessRights_flags (e : BitVec 64) :
    accessRights (e &&& ~~~kEntryAddressMask) = accessRights e := by
  simp only [accessRights, AccessRights.mk.injEq]
  exact ⟨getLsbD_not_masked (by decide) (by decide) e,
    getLsbD_not_masked (by decide) (by decide) e, getLsbD_not_masked (by decide) (by decide) e⟩

/-! ## What keeps the rights in step -/

def TableEntries (vm : VirtualMemory) : Prop :=
  ∀ q j, InSlots AllSlots (q ++ [j]) → q.length ≤ 2 → vm.entryOf q j ≠ 0#64 →
    TableEntry (vm.entryOf q j)

/-- Table entries forbid nothing but access by user code, and all entries are present. -/
structure Shaped (vm : VirtualMemory) : Prop where
  tree : Tree AllSlots vm
  noLarge (va : BitVec 64) : NoLargePage vm va
  table : TableEntries vm
  present (va : BitVec 64) : vm.leafOf va ≠ 0#64 → isPresent (vm.leafOf va) = true

/-- Besides, the pages that user code may access have tables that are open to it. -/
structure Consistent (vm : VirtualMemory) : Prop where
  shaped : Shaped vm
  user (va : BitVec 64) : (vm.leafOf va).getLsbD 2 = true → UserTables vm va

theorem allSlots_upper (va : BitVec 64) : InSlots AllSlots ([] ++ [pageIndex va 39]) ∧
    InSlots AllSlots ([pageIndex va 39] ++ [pageIndex va 30]) ∧
    InSlots AllSlots (midPath va ++ [pageIndex va 21]) := by
  have hp : InSlots AllSlots (leafPath va) := (allSlots_path va).of_append
  have hp2 : InSlots AllSlots (midPath va) := InSlots.of_append (r := [pageIndex va 21]) hp
  exact ⟨InSlots.of_append (r := [pageIndex va 30]) hp2, hp2, hp⟩

/-- The walk to a page that is mapped meets an entry at each level. -/
structure Walked (vm : VirtualMemory) (va : BitVec 64) : Prop where
  initialized : vm.initialized = true
  pml4 : vm.pml4e va = vm.entryOf [] (pageIndex va 39) ∧ vm.pml4e va ≠ 0#64
  pml3 : vm.pml3e va = vm.entryOf [pageIndex va 39] (pageIndex va 30) ∧ vm.pml3e va ≠ 0#64
  pml2 : vm.pml2e va = vm.entryOf (midPath va) (pageIndex va 21) ∧ vm.pml2e va ≠ 0#64 ∧
    vm.pml2e va &&& kEntryLargePage = 0#64
  pml1 : vm.pml1e va = vm.leafOf va

theorem walked (hleaf : vm.leafOf va ≠ 0#64) : Walked vm va := by
  cases h1 : vm.tables (leafPath va) with
  | none => exact absurd (leafOf_none h1) hleaf
  | some pml1 =>
    have h1' : vm.tables (midPath va ++ [pageIndex va 21]) = some pml1 := h1
    rw [tables_snoc] at h1'
    obtain ⟨ht2, ha2⟩ := isTableEntry_of_nextTable h1'
    obtain ⟨hne2, hlarge⟩ := isTableEntry_iff.mp ht2
    cases h2 : vm.tables (midPath va) with
    | none => exact absurd (entryOf_none h2) hne2
    | some pml2 =>
      obtain ⟨hne3, ha3⟩ := entryOf_ne_zero_of_tables (q := [pageIndex va 39]) h2
      cases h3 : vm.tables [pageIndex va 39] with
      | none => exact absurd (entryOf_none h3) hne3
      | some pml3 =>
        obtain ⟨hne4, ha4⟩ := entryOf_ne_zero_of_tables (q := []) h3
        have hi := initialized_of_tables h3
        have he4 : vm.pml4e va = vm.entryOf [] (pageIndex va 39) :=
          (entryOf_eq (tables_root hi)).symm
        have he3 : vm.pml3e va = vm.entryOf [pageIndex va 39] (pageIndex va 30) := by
          rw [pml3e, he4, ha4, entryOf_eq h3]
        have he2 : vm.pml2e va = vm.entryOf (midPath va) (pageIndex va 21) := by
          rw [pml2e, he3, ha3, entryOf_eq h2]
        have he1 : vm.pml1e va = vm.leafOf va := by
          rw [pml1e, he2, ha2, leafOf_eq h1]
        exact ⟨hi, ⟨he4, he4 ▸ hne4⟩, ⟨he3, he3 ▸ hne3⟩, ⟨he2, he2 ▸ hne2, he2 ▸ hlarge⟩, he1⟩

/-- What the processor grants on a page that is mapped: the leaf decides on writing and executing,
and all levels on access by user code. -/
theorem Shaped.processorRights (h : Shaped vm) (hleaf : vm.leafOf va ≠ 0#64) :
    vm.processorRights va = some
      { accessRights (vm.leafOf va) with
        user := (vm.pml4e va).getLsbD 2 && (vm.pml3e va).getLsbD 2 && (vm.pml2e va).getLsbD 2 &&
          (vm.leafOf va).getLsbD 2 } := by
  obtain ⟨hi, ⟨he4, hne4⟩, ⟨he3, hne3⟩, ⟨he2, hne2, hlarge⟩, he1⟩ := walked hleaf
  obtain ⟨hs4, hs3, hs2⟩ := allSlots_upper va
  have ht4 : TableEntry (vm.pml4e va) := he4 ▸ h.table [] _ hs4 (by simp) (he4 ▸ hne4)
  have ht3 : TableEntry (vm.pml3e va) := he3 ▸ h.table _ _ hs3 (by simp) (he3 ▸ hne3)
  have ht2 : TableEntry (vm.pml2e va) := he2 ▸ h.table _ _ hs2 (by simp [midPath]) (he2 ▸ hne2)
  rw [VirtualMemory.processorRights, he1]
  simp [-BitVec.getLsbD_eq_getElem, hi, ht4.present, ht3.present, ht2.present, hlarge,
    h.present va hleaf, accessRights, AccessRights.combine, ht4.write, ht3.write, ht2.write,
    ht4.execute, ht3.execute, ht2.execute]

/-- `translate` reports the flags of the leaf entry. -/
theorem Shaped.translate (h : Shaped vm) : vm.translate va =
    if vm.leafOf va = 0#64 then none
    else some ((vm.leafOf va &&& kEntryAddressMask) ||| (va &&& kPageOffsetMask),
      vm.leafOf va &&& ~~~kEntryAddressMask) := by
  have hlarge : vm.mapped (midPath va) (pageIndex va 21) = 0#64 := h.noLarge va
  rw [translate_eq_lookup h.tree trivial, lookup, hlarge, leafOf]
  by_cases h0 : vm.mapped (leafPath va) (pageIndex va 12) = 0#64 <;> simp [h0]

theorem Consistent.rightsAgree (h : Consistent vm) : RightsAgree vm := by
  intro va pa flags htranslate
  rw [h.shaped.translate] at htranslate
  split at htranslate
  next => cases htranslate
  next hleaf =>
    obtain ⟨-, rfl⟩ := Prod.mk.inj (Option.some.inj htranslate)
    rw [accessRights_flags, h.shaped.processorRights hleaf]
    cases huser : (vm.leafOf va).getLsbD 2 with
    | false => simp [-BitVec.getLsbD_eq_getElem, accessRights, huser]
    | true =>
      obtain ⟨-, ⟨he4, -⟩, ⟨he3, -⟩, ⟨he2, -, -⟩, -⟩ := walked hleaf
      obtain ⟨h4, h3, h2⟩ := h.user va huser
      simp [-BitVec.getLsbD_eq_getElem, accessRights, huser, he4, he3, he2, h4, h3, h2]

/-- A page that is mapped for user code below a table that is not open to it. -/
theorem Shaped.not_rightsAgree (h : Shaped vm) (huser : (vm.leafOf va).getLsbD 2 = true)
    (htables : ¬ UserTables vm va) : ¬ RightsAgree vm := by
  intro hagree
  have hleaf : vm.leafOf va ≠ 0#64 := by
    intro h0
    rw [h0] at huser
    cases huser
  obtain ⟨-, ⟨he4, -⟩, ⟨he3, -⟩, ⟨he2, -, -⟩, -⟩ := walked hleaf
  have hrights := hagree va _ _ (h.translate.trans (if_neg hleaf))
  rw [accessRights_flags, h.processorRights hleaf] at hrights
  have hbits := congrArg AccessRights.user (Option.some.inj hrights)
  simp only [accessRights, huser, Bool.and_true, Bool.and_eq_true, he4, he3, he2] at hbits
  exact htables ⟨hbits.1.1, hbits.1.2, hbits.2⟩

/-! ## Walks -/

/-- A walk takes no right away: it adds tables and opens some to user code. -/
structure Raises (vm vm' : VirtualMemory) : Prop where
  table : TableEntries vm → TableEntries vm'
  user : ∀ q j, InSlots AllSlots (q ++ [j]) → q.length ≤ 2 →
    (vm.entryOf q j).getLsbD 2 = true → (vm'.entryOf q j).getLsbD 2 = true

theorem Raises.refl (vm : VirtualMemory) : Raises vm vm := ⟨id, fun _ _ _ _ h => h⟩

theorem Raises.trans (h : Raises vm vm') (h' : Raises vm' vm'') : Raises vm vm'' :=
  ⟨fun ht => h'.table (h.table ht), fun q j hq hl hu => h'.user q j hq hl (h.user q j hq hl hu)⟩

theorem Raises.userTables (h : Raises vm vm') (hu : UserTables vm va) : UserTables vm' va := by
  obtain ⟨hs4, hs3, hs2⟩ := allSlots_upper va
  exact ⟨h.user [] _ hs4 (by simp) hu.pml4, h.user _ _ hs3 (by simp) hu.pml3,
    h.user _ _ hs2 (by simp [midPath]) hu.pml2⟩

/-- Setting one entry to a table entry that is at least as open as before. -/
theorem Raises.of_entryOf (he : TableEntry e)
    (huser : (vm.entryOf q j).getLsbD 2 = true → e.getLsbD 2 = true)
    (hentry : ∀ q' k, InSlots AllSlots (q' ++ [k]) → q'.length ≤ 3 →
      vm'.entryOf q' k = if q' = q ∧ k = j then e else vm.entryOf q' k) : Raises vm vm' := by
  constructor
  · intro ht q' k hs hl hne
    rw [hentry q' k hs (by omega)] at hne ⊢
    split at hne
    next hc => rwa [if_pos hc]
    next hc =>
      rw [if_neg hc]
      exact ht q' k hs hl hne
  · intro q' k hs hl hu
    rw [hentry q' k hs (by omega)]
    split
    next hc =>
      obtain ⟨rfl, rfl⟩ := hc
      exact huser hu
    next => exact hu

/-- A new root has no entries. -/
theorem Raises.of_same (h : ∀ q j, InSlots AllSlots (q ++ [j]) → q.length ≤ 3 →
    vm'.entryOf q j = vm.entryOf q j) : Raises vm vm' := by
  refine ⟨fun ht q j hs hl => ?_, fun q j hs hl hu => ?_⟩
  · rw [h q j hs (by omega)]
    exact ht q j hs hl
  · rwa [h q j hs (by omega)]

/-- One level of a creating walk; where user code is to come through, it opens the entry. -/
theorem stepDown_raises {r : Option Nat} (h : Tree AllSlots vm)
    (hqj : InSlots AllSlots (q ++ [j])) (hl : q.length ≤ 2) (hg : vm.tables q = some g)
    (ht : TableEntries vm) (he : vm.stepDown g j true u = (vm', r)) :
    Raises vm vm' ∧ (u = true → r ≠ none → (vm'.entryOf q j).getLsbD 2 = true) := by
  rcases stepDown_create_cases h hg he with
    ⟨rfl, ⟨-, rfl, -⟩ | ⟨-, -, rfl⟩⟩ | ⟨hne, -, -, rfl⟩ | ⟨n, h0, -, -, hn, hf, rfl⟩
  · exact ⟨.refl _, fun _ hr => absurd rfl hr⟩
  · exact ⟨.refl _, fun hu => by cases hu⟩
  · have hstore := (h.store_same hqj (by omega) hg (fun _ => nextTable_or_user _ hne)).2
    have hbit : (vm.entryOf q j ||| PageFlags.userBit).getLsbD 2 = true := by
      rw [BitVec.getLsbD_or, show PageFlags.userBit.getLsbD 2 = true by decide, Bool.or_true]
    refine ⟨.of_entryOf (ht q j hqj hl hne).or_user (fun _ => hbit) hstore, fun _ _ => ?_⟩
    rw [hstore q j hqj (by omega), if_pos ⟨rfl, rfl⟩]
    exact hbit
  · have hlink := (h.link_same hqj hl hg h0 hn hf
      (nextTable_frame (u := u) (lt_of_lt_of_le hn h.tracked.bounded))).2
    refine ⟨.of_entryOf (q := q) (j := j) (tableEntry_flags (BitVec.ofNat 64 (n * kPageSize)) u)
      (fun hu => ?_) hlink, fun hu _ => ?_⟩
    · rw [h0] at hu
      cases hu
    · subst hu
      rw [hlink q j hqj (by omega), if_pos ⟨rfl, rfl⟩]
      exact tableEntryFlags_user _

/-- What a creating walk has done down to the table at `q`; for user code, the entries on the way
are open to it. -/
structure Raised (u : Bool) (vm : VirtualMemory) (q : List Nat) (s : VirtualMemory)
    (r : Option Nat) : Prop where
  built : Built AllSlots vm q s r
  raises : Raises vm s
  user : u = true → r ≠ none → ∀ q' j, q' ++ [j] <+: q → (s.entryOf q' j).getLsbD 2 = true

theorem Raised.level {r : Option Nat} (h : Raised u vm q vm' (some g)) (ht : TableEntries vm)
    (hlarge : NoLargePage vm va) (hq : q ++ [j] <+: leafPath va)
    (he : vm'.stepDown g j true u = (vm'', r)) : Raised u vm (q ++ [j]) vm'' r := by
  obtain ⟨hqj, hl, -⟩ := level_inSlots AllSlots vm trivial hq
  obtain ⟨hraise, huser⟩ := stepDown_raises h.built.tree hqj hl (h.built.reached g rfl)
    (h.raises.table ht) he
  refine ⟨h.built.level trivial hlarge hq he, h.raises.trans hraise, fun hu hr q' k hk => ?_⟩
  obtain ⟨hqk, hl', -⟩ := level_inSlots AllSlots vm trivial (hk.trans hq)
  rcases List.prefix_concat_iff.mp hk with heq | hk
  · obtain ⟨rfl, hkj⟩ := List.append_inj' heq rfl
    cases hkj
    exact huser hu hr
  · exact hraise.user q' k hqk hl' (h.user hu (by simp) q' k hk)

/-- A creating walk for user code leaves the three entries above the page open to it. -/
theorem walkToLeaf_raises {r : Option Nat} (h : Tree AllSlots vm) (ht : TableEntries vm)
    (hlarge : NoLargePage vm va) (he : vm.walkToLeaf va true u = (vm', r)) :
    Raises vm vm' ∧ (u = true → r ≠ none → UserTables vm' va) := by
  obtain ⟨r', hr, rfl⟩ := walkToLeaf_rule (P := Raised u vm)
    (fun ok s h0 => ⟨.root h h0, .of_same fun _ _ hs _ => (ensureRoot_rootOnly h h0).entryOf hs,
      fun _ _ q j hq => absurd (List.prefix_nil.mp hq) (by simp)⟩)
    (fun q j s hl hr => ⟨hr.built.fail j hl, hr.raises, fun _ hr => absurd rfl hr⟩)
    (fun q j s g t r hq hr => hr.level ht hlarge hq) he
  refine ⟨hr.raises, fun hu hne => ?_⟩
  have huser := hr.user hu (fun h0 => hne (by rw [h0]; rfl))
  exact ⟨huser [] _ ⟨_, rfl⟩, huser [_] _ ⟨_, rfl⟩, huser (midPath va) _ (List.prefix_refl _)⟩

/-! ## The operations -/

/-- States with the same entries. -/
theorem Shaped.of_same (h : Shaped vm) (ht : Tree AllSlots vm')
    (hentry : ∀ q j, InSlots AllSlots (q ++ [j]) → q.length ≤ 3 →
      vm'.entryOf q j = vm.entryOf q j) :
    Shaped vm' ∧ (∀ va, vm'.leafOf va = vm.leafOf va) ∧
      ∀ va, UserTables vm' va ↔ UserTables vm va := by
  have hleaf (va : BitVec 64) : vm'.leafOf va = vm.leafOf va :=
    mapped_congr (hentry _ _ (allSlots_path va) (by simp [leafPath]))
  refine ⟨⟨ht, fun va => ?_, (Raises.of_same hentry).table h.table, fun va => ?_⟩, hleaf,
    fun va => ⟨?_, (Raises.of_same hentry).userTables⟩⟩
  · unfold NoLargePage
    rw [mapped_congr (hentry _ _ (allSlots_path va).of_append.of_append (by simp [midPath]))]
    exact h.noLarge va
  · rw [hleaf]
    exact h.present va
  · exact (Raises.of_same fun q j hs hl => (hentry q j hs hl).symm).userTables

theorem Consistent.grow (h : Consistent vm) (ht : Tree AllSlots vm')
    (hg : Grows AllSlots 3 vm vm') (hr : Raises vm vm') : Consistent vm' := by
  have hleaf (va : BitVec 64) : vm'.leafOf va = vm.leafOf va :=
    hg.mapped _ _ (allSlots_path va) (by simp [leafPath])
  refine ⟨⟨ht, fun va => hg.noLargePage trivial (h.shaped.noLarge va), hr.table h.shaped.table,
    fun va => ?_⟩, fun va hu => ?_⟩
  · rw [hleaf]
    exact h.shaped.present va
  · rw [hleaf] at hu
    exact hr.userTables (h.user va hu)

theorem userTables_setLeaf (h : Tree AllSlots vm) (hg : vm.tables (leafPath va) = some g) :
    UserTables (vm.setLeaf g va e) va' ↔ UserTables vm va' := by
  obtain ⟨hs4, hs3, hs2⟩ := allSlots_upper va'
  have hsame {q : List Nat} {j : Nat} (hs : InSlots AllSlots (q ++ [j])) (hl : q.length ≤ 2) :
      (vm.setLeaf g va e).entryOf q j = vm.entryOf q j := by
    rw [entryOf_setLeaf h trivial hg hs (by omega), if_neg]
    rintro ⟨rfl, -⟩
    simp [leafPath] at hl
  constructor
  · rintro ⟨h4, h3, h2⟩
    rw [hsame hs4 (by simp)] at h4
    rw [hsame hs3 (by simp)] at h3
    rw [hsame hs2 (by simp [midPath])] at h2
    exact ⟨h4, h3, h2⟩
  · rintro ⟨h4, h3, h2⟩
    refine ⟨?_, ?_, ?_⟩
    · rwa [hsame hs4 (by simp)]
    · rwa [hsame hs3 (by simp)]
    · rwa [hsame hs2 (by simp [midPath])]

theorem Shaped.setLeaf (h : Shaped vm) (hg : vm.tables (leafPath va) = some g)
    (hpresent : e ≠ 0#64 → isPresent e = true) : Shaped (vm.setLeaf g va e) := by
  refine ⟨h.tree.setLeaf trivial hg, fun va' => ?_, fun q j hs hl => ?_, fun va' => ?_⟩
  · unfold NoLargePage
    rw [mapped_setLeaf h.tree trivial hg (midPath_inSlots _ trivial) (by simp [midPath]),
      if_neg (by simp [midPath, leafPath])]
    exact h.noLarge va'
  · rw [entryOf_setLeaf h.tree trivial hg hs (by omega), if_neg]
    · exact h.table q j hs hl
    · rintro ⟨rfl, -⟩
      simp [leafPath] at hl
  · rw [leafOf_setLeaf h.tree hg]
    split
    next => exact hpresent
    next => exact h.present va'

/-- The addresses of one page have the same entries. -/
theorem page_congr (hpage : pageNumber va' = pageNumber va) :
    vm.leafOf va' = vm.leafOf va ∧ (UserTables vm va' ↔ UserTables vm va) := by
  obtain ⟨hpath, hindex⟩ := (pageNumber_eq_iff va' va).mp hpage
  simp only [leafPath, List.cons.injEq, and_true] at hpath
  obtain ⟨h4, h3, h2⟩ := hpath
  refine ⟨by simp only [leafOf, leafPath, h4, h3, h2, hindex], ?_, ?_⟩
  · rintro ⟨u4, u3, u2⟩
    rw [midPath] at u2
    exact ⟨h4 ▸ u4, h4 ▸ h3 ▸ u3, by rw [midPath, ← h4, ← h3, ← h2]; exact u2⟩
  · rintro ⟨u4, u3, u2⟩
    rw [midPath] at u2
    exact ⟨h4 ▸ u4, h4 ▸ h3 ▸ u3, by rw [midPath, h4, h3, h2]; exact u2⟩

/-- Writing a leaf entry: one for user code needs tables that are open to it. -/
theorem Consistent.setLeaf (h : Consistent vm) (hg : vm.tables (leafPath va) = some g)
    (hpresent : e ≠ 0#64 → isPresent e = true) (huser : e.getLsbD 2 = true → UserTables vm va) :
    Consistent (vm.setLeaf g va e) := by
  refine ⟨h.shaped.setLeaf hg hpresent, fun va' hu => ?_⟩
  rw [userTables_setLeaf h.shaped.tree hg]
  rw [leafOf_setLeaf h.shaped.tree hg] at hu
  split at hu
  next hpage => exact (page_congr hpage).2.mpr (huser hu)
  next => exact h.user va' hu

theorem Consistent.clearLeaf (h : Consistent vm) (hg : vm.tables (leafPath va) = some g)
    (hfree : ∀ q, InSlots AllSlots q → q.length ≤ 3 →
      vm.tables q ≠ some (entryAddress (vm.leafOf va))) : Consistent (vm.clearLeaf g va) := by
  have hset := h.setLeaf (e := 0#64) hg (fun hne => absurd rfl hne) (fun hu => by cases hu)
  refine ⟨⟨h.shaped.tree.clearLeaf trivial hg hfree, hset.shaped.noLarge, hset.shaped.table,
    hset.shaped.present⟩, fun va' hu => ?_⟩
  obtain ⟨h4, h3, h2⟩ := hset.user va' hu
  exact ⟨h4, h3, h2⟩

theorem Consistent.zeroFrame (h : Consistent vm) (hn : n < vm.frames.pageCount)
    (hf : vm.frames.isFree n = true) : Consistent (vm.zeroFrame n) := by
  obtain ⟨hshaped, hleaf, htables⟩ := h.shaped.of_same (h.shaped.tree.of_zeroFrame hn hf)
    (h.shaped.tree.zeroFrame_same hf).2
  refine ⟨hshaped, fun va hu => (htables va).mpr (h.user va ?_)⟩
  rwa [hleaf] at hu

theorem Consistent.mapPhysicalPages {pa : BitVec 64} (h : Consistent vm) (remaining i : Nat) :
    Consistent (mapPhysicalPages va pa flags remaining i vm).2 := by
  induction remaining generalizing i vm with
  | zero => exact h
  | succ remaining ih =>
    unfold VirtualMemory.mapPhysicalPages
    rcases hw : vm.walkToLeaf (pageAt va i) true flags.user with ⟨vm1, r1⟩
    have hlarge := h.shaped.noLarge (pageAt va i)
    obtain ⟨ht1, hg1, hr1⟩ := walkToLeaf_create_spec h.shaped.tree trivial hlarge hw
    obtain ⟨hraise, huser⟩ := walkToLeaf_raises h.shaped.tree h.shaped.table hlarge hw
    have h1 := h.grow ht1 hg1 hraise
    cases r1 with
    | none => exact h1
    | some a =>
      obtain ⟨g, hg, rfl⟩ := hr1 a rfl
      obtain ⟨hpresent, hbit⟩ := leafWord_bits (pageAt pa i) flags
      refine ih (h1.setLeaf hg (fun _ => hpresent) fun hu => ?_) (i + 1)
      exact huser (hbit.symm.trans hu) (by simp)

theorem Consistent.mapPhysical (h : Consistent vm) (va pa count : BitVec 64) (flags : PageFlags) :
    Consistent (vm.mapPhysical va pa count flags).2 := by
  unfold VirtualMemory.mapPhysical
  split
  · exact h
  · exact h.mapPhysicalPages _ _

theorem Consistent.allocatePages (h : Consistent vm) (remaining i firstPage : Nat) :
    Consistent (allocatePages va flags remaining i firstPage vm).2 := by
  induction remaining generalizing i firstPage vm with
  | zero => exact h
  | succ remaining ih =>
    unfold VirtualMemory.allocatePages
    cases ha : vm.frames.allocate with
    | none => exact h
    | some p =>
      obtain ⟨a, frames⟩ := p
      obtain ⟨m, rfl, hm, hf, rfl, -⟩ := allocate_some h.shaped.tree.tracked ha
      have hz := (h.zeroFrame hm hf).mapPhysical (pageAt va i) (BitVec.ofNat 64 (m * kPageSize))
        1#64 flags.withPresent
      unfold VirtualMemory.zeroFrame at hz
      dsimp only
      split
      next heq =>
        rw [heq] at hz
        exact hz
      next heq =>
        rw [heq] at hz
        exact ih hz _ _

/-- What `protect` does to its first `k` pages: it changes leaf entries only. -/
structure Protected (va : BitVec 64) (flags : PageFlags) (k : Nat) (vm vm' : VirtualMemory) :
    Prop where
  shaped : Shaped vm'
  tables : ∀ va', UserTables vm' va' ↔ UserTables vm va'
  mapped : ∀ j < k, vm.leafOf (pageAt va j) ≠ 0#64
  flagged : ∀ j < k, isPresent (vm'.leafOf (pageAt va j)) = true ∧
    (vm'.leafOf (pageAt va j)).getLsbD 2 = flags.user
  others : ∀ va', (∀ j < k, pageNumber va' ≠ pageNumber (pageAt va j)) →
    vm'.leafOf va' = vm.leafOf va'

theorem Protected.rootOnly {k : Nat} (h : Protected va flags k vm vm') (ht : Tree AllSlots vm'')
    (hg : RootOnly AllSlots vm' vm'') : Protected va flags k vm vm'' := by
  obtain ⟨hshaped, hleaf, htables⟩ := h.shaped.of_same ht fun q j hs _ => hg.entryOf hs
  refine ⟨hshaped, fun va' => (htables va').trans (h.tables va'), h.mapped, fun j hj => ?_,
    fun va' hva => (hleaf va').trans (h.others va' hva)⟩
  rw [hleaf]
  exact h.flagged j hj

/-- One more page, which may be one of those before it. -/
theorem Protected.snoc {k : Nat} (h : Protected va flags k vm vm')
    (hg : vm'.tables (leafPath (pageAt va k)) = some g)
    (hleaf : vm'.leafOf (pageAt va k) ≠ 0#64) :
    Protected va flags (k + 1) vm (vm'.setLeaf g (pageAt va k)
      ((vm'.leafOf (pageAt va k) &&& kEntryAddressMask) ||| flagsToEntry flags.withPresent)) := by
  have hword := leafWord_bits (vm'.leafOf (pageAt va k)) flags
  have hset := leafOf_setLeaf (e := (vm'.leafOf (pageAt va k) &&& kEntryAddressMask) |||
    flagsToEntry flags.withPresent) h.shaped.tree hg
  refine ⟨h.shaped.setLeaf hg fun _ => hword.1,
    fun va' => (userTables_setLeaf h.shaped.tree hg).trans (h.tables va'), fun j hj => ?_,
    fun j hj => ?_, fun va' hva => ?_⟩
  · rcases Nat.lt_succ_iff_lt_or_eq.mp hj with hj | rfl
    · exact h.mapped j hj
    by_cases hpage : ∃ i < j, pageNumber (pageAt va j) = pageNumber (pageAt va i)
    · obtain ⟨i, hi, hpage⟩ := hpage
      rw [(page_congr hpage).1]
      exact h.mapped i hi
    · simp only [not_exists, not_and] at hpage
      rwa [← h.others _ hpage]
  · rw [hset]
    split
    next => exact hword
    next hpage =>
      refine h.flagged j (lt_of_le_of_ne (Nat.lt_succ_iff.mp hj) ?_)
      rintro rfl
      exact hpage rfl
  · rw [hset, if_neg (hva k (by omega)), h.others va' fun j hj => hva j (by omega)]

/-- `protect` stops at the first page that is not mapped. -/
theorem protect_protected (h : Shaped vm) {count : BitVec 64}
    (hok : ¬ (PageOp.protect va count flags).Refused) :
    ∃ k ≤ count.toNat, Protected va flags k vm (vm.protect va count flags).2 ∧
      (k < count.toNat → vm.leafOf (pageAt va k) = 0#64) := by
  have hcount : ¬ (count = 0#64 ∨ va &&& kPageOffsetMask ≠ 0#64) := hok
  rw [protect, if_neg hcount]
  obtain ⟨-, k, hk, hp, -, hstop⟩ := protectPages_rule (I := fun k s => Protected va flags k vm s)
    ⟨fun _ _ => trivial, fun i s _ _ hs => hs.shaped.noLarge _,
      fun i s s' hs _ ht hg => hs.rootOnly ht hg⟩
    (fun i s g _ _ hs hg hne => hs.snoc hg hne) count.toNat 0 (Nat.zero_add _) h.tree
    ⟨h, fun _ => Iff.rfl, by simp, by simp, fun _ _ => rfl⟩ (Prod.mk.eta).symm
  refine ⟨k, hk, hp, fun hlt => ?_⟩
  have h0 := hstop hlt
  by_cases hpage : ∃ j < k, pageNumber (pageAt va k) = pageNumber (pageAt va j)
  · obtain ⟨j, hj, hpage⟩ := hpage
    have hpresent := (hp.flagged j hj).1
    rw [← (page_congr hpage).1, h0] at hpresent
    cases hpresent
  · simp only [not_exists, not_and] at hpage
    rwa [← hp.others _ hpage]

/-- The rights stay in step where user code gets only pages whose tables are open to it. -/
theorem Consistent.protect (h : Consistent vm) {count : BitVec 64}
    (hopen : ProtectsOpenPages vm (.protect va count flags)) :
    Consistent (vm.protect va count flags).2 := by
  by_cases hok : (PageOp.protect va count flags).Refused
  · have hcount : count = 0#64 ∨ va &&& kPageOffsetMask ≠ 0#64 := hok
    rwa [VirtualMemory.protect, if_pos hcount]
  obtain ⟨k, hk, hp, -⟩ := protect_protected h.shaped hok
  refine ⟨hp.shaped, fun va' hu => (hp.tables va').mpr ?_⟩
  by_cases hj : ∃ j < k, pageNumber va' = pageNumber (pageAt va j)
  · obtain ⟨j, hjk, hpage⟩ := hj
    rw [(page_congr hpage).1, (hp.flagged j hjk).2] at hu
    rw [(page_congr hpage).2]
    exact hopen hok hu j (by omega) fun j' hj' => hp.mapped j' (by omega)
  · simp only [not_exists, not_and] at hj
    rw [hp.others va' hj] at hu
    exact h.user va' hu

/-- A page that user code gets below a table that is not open to it. -/
theorem protect_not_rightsAgree (h : Shaped vm) {count : BitVec 64}
    (hclosed : ¬ ProtectsOpenPages vm (.protect va count flags)) :
    ¬ RightsAgree (vm.protect va count flags).2 := by
  simp only [ProtectsOpenPages, Classical.not_imp, not_forall] at hclosed
  obtain ⟨hok, huser, i, hi, hmapped, htables⟩ := hclosed
  obtain ⟨k, hk, hp, hstop⟩ := protect_protected h hok
  have hik : i < k := by
    by_contra hik
    exact hmapped k (by omega) (hstop (by omega))
  exact hp.shaped.not_rightsAgree ((hp.flagged i hik).2.trans huser)
    fun hu => htables ((hp.tables _).mp hu)

theorem Consistent.rootOnly (h : Consistent vm) (ht : Tree AllSlots vm')
    (hg : RootOnly AllSlots vm vm') : Consistent vm' := by
  obtain ⟨hshaped, hleaf, htables⟩ := h.shaped.of_same ht fun q j hs _ => hg.entryOf hs
  exact ⟨hshaped, fun va' hu => (htables va').mpr (h.user va' (hleaf va' ▸ hu))⟩

theorem Consistent.freePages (h : Consistent vm) (hfree : MapsNoTable vm va n) :
    Consistent (freePages va n 0 vm).2 := by
  obtain ⟨-, k, -, hI, -⟩ := freePages_rule (I := fun _ s => Consistent s ∧ MapsNoTable s va n)
    ⟨fun _ _ => trivial, fun i s _ _ hs => hs.1.shaped.noLarge _,
      fun i s s' hs _ ht hg => ⟨hs.1.rootOnly ht hg, hs.2.rootOnly hg⟩⟩
    (fun i s hi _ hs hne => hs.2 i hi hne)
    (fun i s g hi ht hs hg hne => ⟨hs.1.clearLeaf hg (hs.2 i hi hne), hs.2.clearLeaf ht hg⟩)
    n 0 (Nat.zero_add n) h.shaped.tree ⟨h, hfree⟩ (Prod.mk.eta).symm
  exact hI.1

/-- A call keeps the rights in step where it frees no table and gives user code only pages whose
tables are open to it. -/
theorem Consistent.exec {op : PageOp} (h : Consistent vm) (hfree : FreesNoTable vm op)
    (hopen : ProtectsOpenPages vm op) : Consistent (op.exec vm).2 := by
  cases op with
  | mapPhysical va pa n flags => exact h.mapPhysical va pa n flags
  | allocateAndMap va n flags =>
    simp only [PageOp.exec, VirtualMemory.allocateAndMap]
    split
    · exact h
    · exact h.allocatePages _ _ _
  | protect va n flags => exact h.protect hopen
  | free va n =>
    simp only [PageOp.exec, freeRange]
    split
    · exact h
    · exact h.freePages hfree

theorem Consistent.fresh (hfresh : vm.initialized = false) (hframes : vm.frames.Tracked) :
    Consistent vm := by
  have hentry (q : List Nat) (j : Nat) : vm.entryOf q j = 0#64 :=
    entryOf_none (tables_of_not_initialized (by simp [hfresh]) q)
  have hleaf (va : BitVec 64) : vm.leafOf va = 0#64 :=
    leafOf_none (tables_of_not_initialized (by simp [hfresh]) _)
  refine ⟨⟨tree_fresh hfresh hframes, fun va => ?_, fun q j _ _ hne => absurd (hentry q j) hne,
    fun va hne => absurd (hleaf va) hne⟩, fun va hu => ?_⟩
  · exact mapped_none (tables_of_not_initialized (by simp [hfresh]) _)
  · rw [hleaf] at hu
    cases hu

/-- On a new address space, where `free` frees no page table, `translate` reports the rights that
the processor grants after each call exactly when `protect` gives user code only pages whose
tables are open to user code already. -/
theorem translate_rights_iff (vm : VirtualMemory) (hfresh : vm.initialized = false)
    (hframes : vm.frames.Tracked) (ops : List PageOp)
    (hfree : Along (fun vm op => (op.exec vm).2) FreesNoTable vm ops) :
    (∀ k, RightsAgree ((ops.take k).foldl (fun vm op => (op.exec vm).2) vm)) ↔
      Along (fun vm op => (op.exec vm).2) ProtectsOpenPages vm ops := by
  refine Along.iff_forall_of Consistent RightsAgree (fun _ => Consistent.rightsAgree)
    (fun s op h hR hP => h.exec hR hP) (fun s op h _ hP => ?_) (.fresh hfresh hframes) hfree
  cases op with
  | protect va n flags => exact protect_not_rightsAgree h.shaped hP
  | mapPhysical | allocateAndMap | free => exact absurd trivial hP

/-- A device page of the kernel that is handed to user code, and one mapped for user code. -/
def handOver : List PageOp :=
  [.mapPhysical 0x8000000000#64 0xFEE00000#64 1#64 { write := true },
    .protect 0x8000000000#64 1#64 { user := true }]

def mapAndProtect : List PageOp :=
  [.mapPhysical 0x8000000000#64 0xFEE00000#64 1#64 { write := true, user := true },
    .protect 0x8000000000#64 1#64 { user := true }]

/-- `translate` calls the page accessible to user code, and the processor refuses the access. -/
theorem handOver_rights_differ :
    ¬ ∀ k, RightsAgree ((handOver.take k).foldl (fun vm op => (op.exec vm).2) bootedSpace) := by
  intro hagree
  have hrights := hagree 2 0x8000000000#64 0xFEE00000#64 5#64 (by decide +kernel)
  revert hrights
  decide +kernel

theorem mapAndProtect_rights_agree :
    RightsAgree (mapAndProtect.foldl (fun vm op => (op.exec vm).2) bootedSpace) := by
  refine (translate_rights_iff bootedSpace rfl bootedFrames_tracked mapAndProtect
    ⟨trivial, trivial, trivial⟩).mpr ⟨trivial, fun _ _ i hi _ => ?_, trivial⟩ 2
  obtain rfl : i = 0 := Nat.lt_one_iff.mp hi
  constructor <;> decide +kernel

end Os1.VirtualMemory
