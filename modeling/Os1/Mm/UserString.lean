import Os1.Mm.UserCopyExact

/-! Strings copied from user memory, one byte at a time. -/
namespace Os1.VirtualMemory

open UserAddress

/-! ## The copy with its buffer -/

/-- What `copy_user_string` returns, the destination afterwards and the addresses of the user
bytes it has read. -/
structure UserStringCopy where
  returned : Bool
  destination : Nat → BitVec 8
  reads : List (BitVec 64)

/-- The loop of `copy_user_string` over its destination, from `index` on. -/
def copyStringInto (vm : VirtualMemory) (thread : Option (BitVec 64)) (userPointer : BitVec 64)
    (destinationSize : Nat) : (remaining index : Nat) → UserStringCopy → UserStringCopy
  | 0, _, copy =>
    { copy with
      returned := false
      destination := Function.update copy.destination (destinationSize - 1) 0#8 }
  | remaining + 1, index, copy =>
    match vm.copyFromUser thread (byteAt userPointer index) true 1#64 with
    | (.error _, _) => { copy with returned := false }
    | (.ok (), bytes) =>
      let ch := bytes.headD 0#8
      let copy :=
        { copy with
          destination := Function.update copy.destination index ch
          reads := copy.reads ++ [byteAt userPointer index] }
      if ch = 0#8 then { copy with returned := true }
      else copyStringInto vm thread userPointer destinationSize remaining (index + 1) copy

/-- `copy_user_string` for a thread and a destination that are not null. -/
def copyUserStringInto (vm : VirtualMemory) (cr3 userPointer : BitVec 64)
    (destination : Nat → BitVec 8) (destinationSize : Nat) : UserStringCopy :=
  if destinationSize = 0 ∨ userPointer = 0#64 then ⟨false, destination, []⟩
  else
    copyStringInto vm (some cr3) userPointer destinationSize destinationSize 0
      ⟨false, destination, []⟩

/-! ## User bytes -/

/-- A byte of user space that is mapped for user code. -/
def UserReadable (space : VirtualMemory) (va : BitVec 64) : Prop :=
  InUserSpace va 1#64 ∧ space.Permits (hasRequiredUserFlags · false) va

def userByte (space : VirtualMemory) (va : BitVec 64) : BitVec 8 :=
  match space.translate va with
  | none => 0#8
  | some (pa, _) => space.mem pa.toNat

/-- A terminated string of `n` bytes before its NUL, all of them readable. -/
structure StringAt (space : VirtualMemory) (p : BitVec 64) (n : Nat) : Prop where
  readable (i : Nat) (hi : i ≤ n) : space.UserReadable (byteAt p i)
  nul : space.userByte (byteAt p n) = 0#8
  before (i : Nat) (hi : i < n) : space.userByte (byteAt p i) ≠ 0#8

variable {vm : VirtualMemory} {cr3 p va : BitVec 64} {n size : Nat}

/-- One byte is copied exactly when it is readable. -/
theorem copyFromUser_byte (vm : VirtualMemory) (cr3 va : BitVec 64) :
    ((vm.attach cr3).UserReadable va ∧ vm.copyFromUser (some cr3) va true 1#64 =
        (.ok (), [(vm.attach cr3).userByte va])) ∨
      (¬ (vm.attach cr3).UserReadable va ∧
        ∃ failure bytes, vm.copyFromUser (some cr3) va true 1#64 = (.error failure, bytes)) := by
  have hzero : byteAt va 0 = va := by simp [byteAt]
  obtain ⟨hok, k, -, hwhole, -, hbytes⟩ := @copyFromUser_exact vm cr3 va 1#64
  have hiff : (vm.copyFromUser (some cr3) va true 1#64).1 = .ok () ↔
      (vm.attach cr3).UserReadable va := by
    rw [hok]
    simp [UserReadable, hzero]
  by_cases hread : (vm.attach cr3).UserReadable va
  · refine Or.inl ⟨hread, Prod.ext (hiff.mpr hread) ?_⟩
    rw [hbytes, hwhole (hiff.mpr hread)]
    change [(vm.attach cr3).userByte (byteAt va 0)] = _
    rw [hzero]
  · refine Or.inr ⟨hread, ?_⟩
    cases hresult : vm.copyFromUser (some cr3) va true 1#64 with
    | mk result bytes =>
      cases result with
      | error failure => exact ⟨failure, bytes, rfl⟩
      | ok u => exact absurd (hiff.mp (by rw [hresult])) hread

/-! ## What the loop can do -/

/-- The destination once the first `k` bytes of the string are stored. -/
def filled (space : VirtualMemory) (p : BitVec 64) (destination : Nat → BitVec 8) (k : Nat) :
    Nat → BitVec 8 :=
  fun i => if i < k then space.userByte (byteAt p i) else destination i

/-- The first `k` bytes are readable and none of them is the terminator. -/
def Unterminated (space : VirtualMemory) (p : BitVec 64) (k : Nat) : Prop :=
  ∀ i < k, space.UserReadable (byteAt p i) ∧ space.userByte (byteAt p i) ≠ 0#8

/-- The three ways the loop ends: at a terminator, at a byte that is not readable, or at the end of
the destination. -/
inductive StringOutcome (space : VirtualMemory) (p : BitVec 64) (destination : Nat → BitVec 8)
    (size : Nat) : UserStringCopy → Prop
  | terminated {k : Nat} (hk : k < size) (hbefore : space.Unterminated p k)
      (hreadable : space.UserReadable (byteAt p k)) (hnul : space.userByte (byteAt p k) = 0#8) :
      StringOutcome space p destination size
        ⟨true, space.filled p destination (k + 1), (List.range (k + 1)).map (byteAt p)⟩
  | unreadable {k : Nat} (hk : k < size) (hbefore : space.Unterminated p k)
      (hunreadable : ¬ space.UserReadable (byteAt p k)) :
      StringOutcome space p destination size
        ⟨false, space.filled p destination k, (List.range k).map (byteAt p)⟩
  | tooLong (hbefore : space.Unterminated p size) :
      StringOutcome space p destination size
        ⟨false, Function.update (space.filled p destination size) (size - 1) 0#8,
          (List.range size).map (byteAt p)⟩

theorem filled_succ (space : VirtualMemory) (p : BitVec 64) (destination : Nat → BitVec 8)
    (k : Nat) :
    Function.update (space.filled p destination k) k (space.userByte (byteAt p k)) =
      space.filled p destination (k + 1) := by
  funext i
  by_cases hi : i = k
  · subst hi
    simp [filled]
  · rw [Function.update_of_ne hi]
    exact if_congr (by omega) rfl rfl

theorem copyStringInto_outcome (vm : VirtualMemory) (cr3 p : BitVec 64)
    (destination : Nat → BitVec 8) {remaining index : Nat} (hsize : index + remaining = size)
    (hbefore : (vm.attach cr3).Unterminated p index) :
    StringOutcome (vm.attach cr3) p destination size
      (copyStringInto vm (some cr3) p size remaining index
        ⟨false, (vm.attach cr3).filled p destination index,
          (List.range index).map (byteAt p)⟩) := by
  induction remaining generalizing index with
  | zero =>
    obtain rfl : index = size := hsize
    exact .tooLong hbefore
  | succ remaining ih =>
    unfold copyStringInto
    obtain ⟨hread, hcopy⟩ | ⟨hread, failure, bytes, hcopy⟩ :=
      copyFromUser_byte vm cr3 (byteAt p index)
    · rw [hcopy]
      simp only [List.headD_cons, filled_succ]
      rw [← List.map_singleton, ← List.map_append, ← List.range_succ]
      split
      next hnul => exact .terminated (by omega) hbefore hread hnul
      next hnonzero =>
        refine ih (by omega) fun i hi => ?_
        rcases Nat.lt_succ_iff_lt_or_eq.mp hi with hi | rfl
        · exact hbefore i hi
        · exact ⟨hread, hnonzero⟩
    · rw [hcopy]
      exact .unreadable (by omega) hbefore hread

/-- A null pointer is not readable, so the check for it changes nothing. -/
theorem copyUserStringInto_outcome (vm : VirtualMemory) (cr3 p : BitVec 64)
    (destination : Nat → BitVec 8) (hsize : 1 ≤ size) :
    StringOutcome (vm.attach cr3) p destination size
      (vm.copyUserStringInto cr3 p destination size) := by
  have hstart : (vm.attach cr3).filled p destination 0 = destination := by
    funext i
    simp [filled]
  have hnone : (vm.attach cr3).Unterminated p 0 := fun i hi => absurd hi (Nat.not_lt_zero i)
  have hempty := copyStringInto_outcome vm cr3 p destination (Nat.zero_add size) hnone
  unfold copyUserStringInto
  split
  next hnull =>
    obtain rfl : p = 0#64 := hnull.resolve_left (by omega)
    have hunreadable : ¬ (vm.attach cr3).UserReadable (byteAt 0#64 0) := by
      rintro ⟨⟨hbase, -⟩, -⟩
      exact absurd hbase (by decide)
    have hoff : StringOutcome (vm.attach cr3) 0#64 destination size
        ⟨false, (vm.attach cr3).filled 0#64 destination 0, []⟩ :=
      .unreadable hsize hnone hunreadable
    rwa [hstart] at hoff
  next =>
    rwa [hstart] at hempty

/-! ## Exactness -/

variable {space : VirtualMemory} {destination : Nat → BitVec 8}

/-- There is at most one terminated string at a pointer, and what comes before its end is
unterminated. -/
theorem StringAt.le_of_unterminated {k : Nat} (h : StringAt space p n)
    (hk : space.Unterminated p k) : k ≤ n := by
  by_contra hlt
  exact (hk n (Nat.not_le.mp hlt)).2 h.nul

theorem StringOutcome.string {copy : UserStringCopy}
    (h : StringOutcome space p destination size copy) (hstring : StringAt space p n)
    (hn : n < size) :
    copy = ⟨true, space.filled p destination (n + 1), (List.range (n + 1)).map (byteAt p)⟩ := by
  cases h with
  | @terminated k hk hbefore hreadable hnul =>
    have hle := hstring.le_of_unterminated hbefore
    obtain rfl : k = n := by
      by_contra hne
      exact hstring.before k (by omega) hnul
    rfl
  | @unreadable k hk hbefore hunreadable =>
    exact absurd (hstring.readable k (hstring.le_of_unterminated hbefore)) hunreadable
  | tooLong hbefore =>
    have hle := hstring.le_of_unterminated hbefore
    omega

/-- `copy_user_string` succeeds exactly for a terminated string that fits, and then holds it;
without a terminator the destination is cut off; reads stop at the first NUL and writes at the
end of the destination. -/
theorem copy_user_string_exact (vm : VirtualMemory) (cr3 p : BitVec 64)
    (destination : Nat → BitVec 8) {size : Nat} (hsize : 1 ≤ size) :
    let space := vm.attach cr3
    let copy := vm.copyUserStringInto cr3 p destination size
    (copy.returned = true ↔ ∃ n < size, StringAt space p n) ∧
      (∀ n < size, StringAt space p n →
        (∀ i ≤ n, copy.destination i = space.userByte (byteAt p i)) ∧
        ∀ i, n < i → copy.destination i = destination i) ∧
      ((∀ i < size, space.UserReadable (byteAt p i) ∧ space.userByte (byteAt p i) ≠ 0#8) →
        copy.returned = false ∧ copy.destination (size - 1) = 0#8) ∧
      (∀ va ∈ copy.reads, ∃ i < size, va = byteAt p i ∧
        ∀ j < i, space.userByte (byteAt p j) ≠ 0#8) ∧
      ∀ i, size ≤ i → copy.destination i = destination i := by
  intro space copy
  have h : StringOutcome space p destination size copy :=
    copyUserStringInto_outcome vm cr3 p destination hsize
  refine ⟨⟨fun hreturned => ?_, ?_⟩, ?_, fun hall => ?_, fun va hva => ?_, fun i hi => ?_⟩
  · generalize copy = c at h hreturned
    cases h with
    | @terminated k hk hbefore hreadable hnul =>
      refine ⟨k, hk, fun i hi => ?_, hnul, fun i hi => (hbefore i hi).2⟩
      rcases Nat.lt_or_eq_of_le hi with hi | rfl
      · exact (hbefore i hi).1
      · exact hreadable
    | unreadable => cases hreturned
    | tooLong => cases hreturned
  · rintro ⟨n, hn, hstring⟩
    rw [h.string hstring hn]
  · intro n hn hstring
    rw [h.string hstring hn]
    exact ⟨fun i hi => if_pos (by omega), fun i hi => if_neg (by omega)⟩
  · generalize copy = c at h
    cases h with
    | terminated hk hbefore hreadable hnul => exact absurd hnul (hall _ hk).2
    | unreadable hk hbefore hunreadable => exact absurd (hall _ hk).1 hunreadable
    | tooLong => exact ⟨rfl, Function.update_self _ _ _⟩
  · have hreads : ∃ k ≤ size, va ∈ (List.range k).map (byteAt p) ∧
        space.Unterminated p (k - 1) := by
      generalize copy = c at h hva
      cases h with
      | terminated hk hbefore => exact ⟨_, hk, hva, hbefore⟩
      | unreadable hk hbefore =>
        exact ⟨_, Nat.le_of_lt hk, hva, fun i hi => hbefore i (by omega)⟩
      | tooLong hbefore => exact ⟨size, Nat.le_refl _, hva, fun i hi => hbefore i (by omega)⟩
    obtain ⟨k, hk, hmem, hbefore⟩ := hreads
    obtain ⟨i, hi, rfl⟩ := List.mem_map.mp hmem
    have hlt : i < k := List.mem_range.mp hi
    exact ⟨i, by omega, rfl, fun j hj => (hbefore j (by omega)).2⟩
  · generalize copy = c at h
    cases h with
    | terminated hk => exact if_neg (by omega)
    | unreadable hk => exact if_neg (by omega)
    | tooLong =>
      have hne : i ≠ size - 1 := by omega
      exact (Function.update_of_ne hne _ _).trans (if_neg (by omega))

/-- The one page of `oneUserPage` holds zeros, so its strings are empty. -/
theorem copy_user_string_one_page :
    let space := oneUserPage.attach 0x1000#64
    let copy := oneUserPage.copyUserStringInto 0x1000#64 0x8000000000#64 (fun _ => 7#8) 4
    (copy.returned = true ↔ ∃ n < 4, StringAt space 0x8000000000#64 n) ∧
      (∀ n < 4, StringAt space 0x8000000000#64 n →
        (∀ i ≤ n, copy.destination i = space.userByte (byteAt 0x8000000000#64 i)) ∧
        ∀ i, n < i → copy.destination i = 7#8) ∧
      ((∀ i < 4, space.UserReadable (byteAt 0x8000000000#64 i) ∧
          space.userByte (byteAt 0x8000000000#64 i) ≠ 0#8) →
        copy.returned = false ∧ copy.destination (4 - 1) = 0#8) ∧
      (∀ va ∈ copy.reads, ∃ i < 4, va = byteAt 0x8000000000#64 i ∧
        ∀ j < i, space.userByte (byteAt 0x8000000000#64 j) ≠ 0#8) ∧
      ∀ i, 4 ≤ i → copy.destination i = 7#8 :=
  copy_user_string_exact oneUserPage 0x1000#64 0x8000000000#64 (fun _ => 7#8) (by decide)

/-- The destination does not change what the copy answers. -/
theorem copyUserString_isOk (vm : VirtualMemory) (cr3 p : BitVec 64)
    (destination : Nat → BitVec 8) (size : Nat) :
    (vm.copyUserString (some cr3) p true size).isOk =
      (vm.copyUserStringInto cr3 p destination size).returned := by
  have hloop (remaining index : Nat) (copy : UserStringCopy) :
      (copyStringFrom vm (some cr3) p remaining index).isOk =
        (copyStringInto vm (some cr3) p size remaining index copy).returned := by
    induction remaining generalizing index copy with
    | zero => rfl
    | succ remaining ih =>
      unfold copyStringFrom copyStringInto
      obtain ⟨-, hcopy⟩ | ⟨-, failure, bytes, hcopy⟩ :=
        copyFromUser_byte vm cr3 (byteAt p index)
      · rw [hcopy]
        dsimp only
        split
        · rfl
        · rw [← ih]
          cases copyStringFrom vm (some cr3) p remaining (index + 1) <;> rfl
      · rw [hcopy]
        rfl
  unfold copyUserString copyUserStringInto
  by_cases hnull : size = 0 ∨ p = 0#64
  · rcases hnull with rfl | rfl <;> simp [Except.isOk, Except.toBool]
  · have hnot : ¬ size = 0 ∧ ¬ p = 0#64 := not_or.mp hnull
    simp only [hnot.1, hnot.2, or_self, if_false]
    exact hloop size 0 _

end Os1.VirtualMemory
