import Os1.Syscall.Observe

/-! When the records that `sys_observe` writes are the ones it has announced. -/
namespace Os1.Observe

open VirtualMemory UserAddress

variable {vm : VirtualMemory} {cr3 userBuffer : BitVec 64} {t t' : Transfer} {ok : Bool}
  {bytes : List (BitVec 8)} {records : List (List (BitVec 8))}

theorem encode_length {w : Nat} (value : BitVec w) (n : Nat) : (encode value n).length = n := by
  simp [encode]

theorem copyFixedString_length {size : Nat} (h : 0 < size) (source : List (BitVec 8)) :
    (copyFixedString size source).length = size := by
  have hle : ((source.takeWhile (· ≠ 0#8)).take (size - 1)).length ≤ size - 1 :=
    List.length_take_le _ _
  simp only [copyFixedString, List.length_append, List.length_replicate]
  omega

theorem observeHeader_length (kind recordSize recordCount : BitVec 32) :
    (observeHeader kind recordSize recordCount).length = headerSize := by
  simp [observeHeader, encode_length, headerSize]

theorem processRecord_length (thread : ObservedThread) (process : ObservedProcess) :
    (processRecord thread process).length = processRecordSize := by
  simp [processRecord, encode_length, copyFixedString_length, processNameBytes, processRecordSize]

theorem reported_length {thread : ObservedThread} (h : reported thread = some bytes) :
    bytes.length = processRecordSize := by
  unfold reported at h
  split at h
  · cases h
  · obtain ⟨process, -, rfl⟩ := Option.map_eq_some_iff.mp h
    exact processRecord_length thread process

/-! ## One copy -/

/-- The bytes from `offset` on lie in user space and are mapped for user writes. -/
def Writable (vm : VirtualMemory) (cr3 userBuffer : BitVec 64) (offset length : Nat) : Prop :=
  InUserSpace (byteAt userBuffer offset) (BitVec.ofNat 64 length) ∧
    ∀ i < length, (vm.attach cr3).Permits (hasRequiredUserFlags · true)
      (byteAt userBuffer (offset + i))

/-- The bytes from `offset` on that a copy of `length` bytes writes. -/
def reach (vm : VirtualMemory) (cr3 userBuffer : BitVec 64) (offset length : Nat) : Nat :=
  vm.copiedBytes cr3 (byteAt userBuffer offset) (BitVec.ofNat 64 length)

/-- What has been passed to `copy_to_user` so far is in user memory. -/
structure Streamed (vm : VirtualMemory) (cr3 userBuffer : BitVec 64) (t : Transfer) : Prop where
  memory : t.memory =
    { vm with mem := (vm.attach cr3).writeRange userBuffer (t.stream.getD · 0#8) t.written }
  mapped : ∀ i < t.written, (vm.attach cr3).Permits (hasRequiredUserFlags · true)
    (byteAt userBuffer i)

theorem reach_le {offset length : Nat} (h : length < 2 ^ 64) :
    reach vm cr3 userBuffer offset length ≤ length := by
  refine (copiedBytes_le _ _ _).trans ?_
  rw [BitVec.toNat_ofNat, Nat.mod_eq_of_lt h]

theorem reach_eq_iff {offset length : Nat} (h0 : 0 < length) (h : length < 2 ^ 64) :
    reach vm cr3 userBuffer offset length = length ↔
      Writable vm cr3 userBuffer offset length := by
  have htoNat : (BitVec.ofNat 64 length).toNat = length := by
    rw [BitVec.toNat_ofNat, Nat.mod_eq_of_lt h]
  have hne : BitVec.ofNat 64 length ≠ 0#64 := fun heq => by
    have := congrArg BitVec.toNat heq
    rw [htoNat] at this
    exact absurd this (Nat.ne_of_gt h0)
  have hiff := copiedBytes_eq_iff vm cr3 (byteAt userBuffer offset) hne
  rw [htoNat] at hiff
  simpa only [Writable, reach, byteAt_byteAt] using hiff

/-- The bytes of a copy continue the stream. -/
theorem append_written (hhidden : (vm.attach cr3).TablesHidden)
    (h : Streamed vm cr3 userBuffer t) (hoffset : t.offset = t.written)
    (hstream : t.stream.length = t.offset) (k : Nat) :
    (t.memory.attach cr3).writeRange (byteAt userBuffer t.offset) (bytes.getD · 0#8) k =
      (vm.attach cr3).writeRange userBuffer ((t.stream ++ bytes).getD · 0#8) (t.offset + k) := by
  have hleft : (vm.attach cr3).writeRange userBuffer ((t.stream ++ bytes).getD · 0#8) t.written =
      (vm.attach cr3).writeRange userBuffer (t.stream.getD · 0#8) t.written := by
    refine writeRange_congr fun i hi => ?_
    exact List.getD_append _ _ _ _ (by omega)
  have hright : (fun i => (t.stream ++ bytes).getD (t.written + i) 0#8) = (bytes.getD · 0#8) := by
    funext i
    rw [List.getD_append_right _ _ _ _ (by omega)]
    congr 1
    omega
  have hspace : t.memory.attach cr3 =
      { vm.attach cr3 with
        mem := (vm.attach cr3).writeRange userBuffer ((t.stream ++ bytes).getD · 0#8)
          t.written } := by
    rw [h.memory, hleft]
    rfl
  rw [hspace, hoffset, ← hright]
  exact writeRange_append (hhidden.stable user_of_hasRequiredUserFlags t.written h.mapped) k

/-- A copy goes on where the last one ended, and ends at the first byte it may not write. -/
theorem copyObserved_spec (hhidden : (vm.attach cr3).TablesHidden)
    (h : Streamed vm cr3 userBuffer t) (hoffset : t.offset = t.written)
    (hstream : t.stream.length = t.offset) (h0 : 0 < bytes.length)
    (hbytes : bytes.length < 2 ^ 64) (heq : copyObserved cr3 userBuffer t bytes = (ok, t')) :
    Streamed vm cr3 userBuffer t' ∧ t'.records = t.records ∧
      t'.written = t.offset + reach vm cr3 userBuffer t.offset bytes.length ∧
      (ok = true ↔ Writable vm cr3 userBuffer t.offset bytes.length) ∧
      (ok = true → t'.offset = t'.written ∧ t'.stream.length = t'.offset) := by
  have hstable : ∀ va, (t.memory.attach cr3).translate va = (vm.attach cr3).translate va := by
    rw [h.memory]
    exact hhidden.stable user_of_hasRequiredUserFlags t.written h.mapped
  have hhidden' : (t.memory.attach cr3).TablesHidden := by
    rw [h.memory]
    exact hhidden.writeRange user_of_hasRequiredUserFlags h.mapped
  have hreach : t.memory.copiedBytes cr3 (byteAt userBuffer t.offset)
      (BitVec.ofNat 64 bytes.length) = reach vm cr3 userBuffer t.offset bytes.length :=
    copiedBytes_congr hstable _ _
  have htoNat : (BitVec.ofNat 64 bytes.length).toNat = bytes.length := by
    rw [BitVec.toNat_ofNat, Nat.mod_eq_of_lt hbytes]
  obtain ⟨r, hcopy, hok⟩ := copyToUser_eq hhidden' (byteAt userBuffer t.offset)
    (BitVec.ofNat 64 bytes.length) (bytes.getD · 0#8)
  rw [hreach] at hcopy hok
  rw [htoNat, reach_eq_iff h0 hbytes] at hok
  rw [append_written hhidden h hoffset hstream] at hcopy
  have hmapped : ∀ i < t.offset + reach vm cr3 userBuffer t.offset bytes.length,
      (vm.attach cr3).Permits (hasRequiredUserFlags · true) (byteAt userBuffer i) := by
    intro i hi
    by_cases hlt : i < t.written
    · exact h.mapped i hlt
    · obtain ⟨j, rfl⟩ := Nat.exists_eq_add_of_le (show t.offset ≤ i by omega)
      rw [← byteAt_byteAt]
      exact permits_of_lt_copiedBytes (show j < reach vm cr3 userBuffer t.offset bytes.length by
        omega)
  have hmemory : { t.memory with
      mem := (vm.attach cr3).writeRange userBuffer ((t.stream ++ bytes).getD · 0#8)
        (t.offset + reach vm cr3 userBuffer t.offset bytes.length) } =
      { vm with
        mem := (vm.attach cr3).writeRange userBuffer ((t.stream ++ bytes).getD · 0#8)
          (t.offset + reach vm cr3 userBuffer t.offset bytes.length) } := by
    rw [h.memory]
  rw [hmemory] at hcopy
  simp only [copyObserved, hcopy, hreach] at heq
  cases r with
  | ok =>
    cases heq
    have hall := hok.mp rfl
    have hfull := (reach_eq_iff h0 hbytes).mpr hall
    refine ⟨⟨rfl, hmapped⟩, rfl, rfl, iff_of_true rfl hall, fun _ => ⟨?_, ?_⟩⟩
    · simp only [hfull]
    · simp only [List.length_append, hstream]
  | error failure =>
    cases heq
    refine ⟨⟨rfl, hmapped⟩, rfl, rfl, iff_of_false (fun hr => by cases hr) ?_,
      fun hr => by cases hr⟩
    exact fun hall => by cases hok.mpr hall

/-! ## The walk -/

/-- The record number `j` of the walk from `offset` on can be copied. -/
def RecordWritable (vm : VirtualMemory) (cr3 userBuffer : BitVec 64) (offset j : Nat) : Prop :=
  Writable vm cr3 userBuffer (offset + processRecordSize * j) processRecordSize

/-- The walk stops in record `k`, the first that cannot be copied, after `written` bytes. -/
def StopsAt (vm : VirtualMemory) (cr3 userBuffer : BitVec 64) (offset k written : Nat) : Prop :=
  (∀ j < k, RecordWritable vm cr3 userBuffer offset j) ∧
    ¬ RecordWritable vm cr3 userBuffer offset k ∧
    written = offset + processRecordSize * k +
      reach vm cr3 userBuffer (offset + processRecordSize * k) processRecordSize

/-- How a walk over `n` records ends: all are written, or it stops in one of them. -/
def WalkEnds (vm : VirtualMemory) (cr3 userBuffer : BitVec 64) (offset n : Nat) (ok : Bool)
    (written : Nat) : Prop :=
  (ok = true ∧ (∀ j < n, RecordWritable vm cr3 userBuffer offset j) ∧
    written = offset + processRecordSize * n) ∨
  (ok = false ∧ ∃ k < n, StopsAt vm cr3 userBuffer offset k written)

theorem recordWritable_succ {offset j : Nat} :
    RecordWritable vm cr3 userBuffer offset (j + 1) ↔
      RecordWritable vm cr3 userBuffer (offset + processRecordSize) j := by
  rw [RecordWritable, RecordWritable, Nat.mul_succ, Nat.add_comm _ processRecordSize,
    Nat.add_assoc]

theorem recordWritable_lt_succ {offset k : Nat}
    (h : RecordWritable vm cr3 userBuffer offset 0)
    (hrest : ∀ j < k, RecordWritable vm cr3 userBuffer (offset + processRecordSize) j) :
    ∀ j < k + 1, RecordWritable vm cr3 userBuffer offset j := by
  intro j hj
  cases j with
  | zero => exact h
  | succ j => exact recordWritable_succ.mpr (hrest j (by omega))

theorem WalkEnds.cons {offset n written : Nat} (h : RecordWritable vm cr3 userBuffer offset 0)
    (hrest : WalkEnds vm cr3 userBuffer (offset + processRecordSize) n ok written) :
    WalkEnds vm cr3 userBuffer offset (n + 1) ok written := by
  obtain ⟨rfl, hall, rfl⟩ | ⟨rfl, k, hk, hprev, hstop, rfl⟩ := hrest
  · refine Or.inl ⟨rfl, recordWritable_lt_succ h hall, ?_⟩
    rw [Nat.mul_succ]
    omega
  · refine Or.inr ⟨rfl, k + 1, by omega, recordWritable_lt_succ h hprev,
      fun hw => hstop (recordWritable_succ.mp hw), ?_⟩
    have hoffset : offset + processRecordSize * (k + 1) =
        offset + processRecordSize + processRecordSize * k := by
      rw [Nat.mul_succ]
      omega
    rw [hoffset]

theorem writeRecords_spec {walked : List ObservedThread}
    (hhidden : (vm.attach cr3).TablesHidden) (h : Streamed vm cr3 userBuffer t)
    (hoffset : t.offset = t.written) (hstream : t.stream.length = t.offset)
    (heq : writeRecords cr3 userBuffer walked t = (ok, t')) :
    Streamed vm cr3 userBuffer t' ∧
      WalkEnds vm cr3 userBuffer t.offset (walked.filterMap reported).length ok t'.written ∧
      (ok = true → t'.records = t.records + (walked.filterMap reported).length) := by
  induction walked generalizing t with
  | nil =>
    cases heq
    refine ⟨h, Or.inl ⟨rfl, fun j hj => absurd hj (Nat.not_lt_zero j), ?_⟩, fun _ => rfl⟩
    exact hoffset.symm
  | cons thread threads ih =>
    rw [writeRecords] at heq
    cases hreported : reported thread with
    | none =>
      rw [hreported] at heq
      rw [List.filterMap_cons_none hreported]
      exact ih h hoffset hstream heq
    | some record =>
      rw [hreported] at heq
      dsimp only at heq
      rw [List.filterMap_cons_some hreported, List.length_cons]
      have hlength : record.length = processRecordSize := reported_length hreported
      generalize hcopy : copyObserved cr3 userBuffer t record = result at heq
      obtain ⟨copied, t₁⟩ := result
      obtain ⟨hstreamed, hrecords, hwritten, hok, hnext⟩ := copyObserved_spec hhidden h hoffset
        hstream (by rw [hlength]; decide) (by rw [hlength]; decide) hcopy
      rw [hlength] at hwritten hok
      cases copied with
      | false =>
        cases heq
        refine ⟨hstreamed, Or.inr ⟨rfl, 0, by omega, fun j hj => absurd hj (Nat.not_lt_zero j),
          (fun hw => by cases hok.mpr hw), hwritten⟩, fun hr => by cases hr⟩
      | true =>
        obtain ⟨hoffset', hstream'⟩ := hnext rfl
        have hw := hok.mp rfl
        have hreach : reach vm cr3 userBuffer t.offset processRecordSize = processRecordSize :=
          (reach_eq_iff (by decide) (by decide)).mpr hw
        have hoffset₁ : t₁.offset = t.offset + processRecordSize := by
          rw [hoffset', hwritten, hreach]
        obtain ⟨hfinal, hends, hcount⟩ := ih (t := { t₁ with records := t₁.records + 1 })
          ⟨hstreamed.memory, hstreamed.mapped⟩ hoffset' hstream' heq
        refine ⟨hfinal, WalkEnds.cons hw (hoffset₁ ▸ hends), fun hr => ?_⟩
        rw [hcount hr, ← hrecords]
        simp only
        omega

/-! ## The whole call -/

/-- The bytes of the header and `n` records. -/
def transferSize (n : Nat) : Nat := headerSize + processRecordSize * n

/-- `begin_observe_transfer` turns the call down before it writes anything. -/
def Refused (userBuffer length : BitVec 64) (n : Nat) : Prop :=
  userBuffer = 0#64 ∨ length = 0#64 ∨ length.toNat < transferSize n

theorem beginObserveTransfer_eq (vm : VirtualMemory) (cr3 userBuffer length : BitVec 64)
    (count : BitVec 32) :
    (Refused userBuffer length count.toNat →
      beginObserveTransfer cr3 userBuffer vm length observeProcesses
        (BitVec.ofNat 32 processRecordSize) count = (none, { memory := vm })) ∧
    (¬ Refused userBuffer length count.toNat →
      beginObserveTransfer cr3 userBuffer vm length observeProcesses
        (BitVec.ofNat 32 processRecordSize) count =
        match copyObserved cr3 userBuffer { memory := vm } (observeHeader observeProcesses
            (BitVec.ofNat 32 processRecordSize) count) with
        | (false, t) => (none, t)
        | (true, t) => (some (transferSize count.toNat : Int), t)) := by
  have hcount := count.isLt
  have hsize : ((BitVec.ofNat 32 processRecordSize).setWidth 64 : BitVec 64).toNat = 68 := by decide
  have hwide : (count.setWidth 64 : BitVec 64).toNat = count.toNat := by
    rw [BitVec.toNat_setWidth, Nat.mod_eq_of_lt (by omega)]
  have hpayload : ((BitVec.ofNat 32 processRecordSize).setWidth 64 * count.setWidth 64 :
      BitVec 64).toNat = 68 * count.toNat := by
    rw [BitVec.toNat_mul, hsize, hwide, Nat.mod_eq_of_lt (by omega)]
  have htotal : (BitVec.ofNat 64 headerSize + (BitVec.ofNat 32 processRecordSize).setWidth 64 *
      count.setWidth 64 : BitVec 64).toNat = transferSize count.toNat := by
    rw [BitVec.toNat_add, hpayload]
    simp only [headerSize, transferSize, processRecordSize, BitVec.toNat_ofNat]
    omega
  have hdivides : ¬ (count ≠ 0#32 ∧ (BitVec.ofNat 32 processRecordSize).setWidth 64 *
      count.setWidth 64 / count.setWidth 64 ≠
        ((BitVec.ofNat 32 processRecordSize).setWidth 64 : BitVec 64)) := by
    rintro ⟨hne, hdiv⟩
    refine hdiv (BitVec.eq_of_toNat_eq ?_)
    have hpos : 0 < count.toNat := by
      rcases Nat.eq_zero_or_pos count.toNat with h | h
      · exact absurd (BitVec.eq_of_toNat_eq h) hne
      · exact h
    rw [BitVec.toNat_udiv, hpayload, hwide, hsize, Nat.mul_div_cancel _ hpos]
  unfold beginObserveTransfer
  dsimp only
  rw [if_neg hdivides]
  generalize BitVec.ofNat 64 headerSize + (BitVec.ofNat 32 processRecordSize).setWidth 64 *
      count.setWidth 64 = total at htotal
  have hrange : transferSize count.toNat < 2 ^ 63 ∧ headerSize ≤ transferSize count.toNat := by
    unfold transferSize processRecordSize headerSize
    omega
  have hsmall : (total < BitVec.ofNat 64 headerSize ∨ length < total) ↔
      length.toNat < transferSize count.toNat := by
    rw [BitVec.lt_def, BitVec.lt_def, htotal]
    simp only [headerSize, BitVec.toNat_ofNat] at hrange ⊢
    omega
  have hint : total.toInt = (transferSize count.toNat : Int) := by
    rw [BitVec.toInt_eq_toNat_of_lt (by omega), htotal]
  simp only [hsmall, hint]
  constructor
  · intro hrefused
    by_cases hnull : userBuffer = 0#64 ∨ length = 0#64
    · rw [if_pos hnull]
    · rw [if_neg hnull, if_pos]
      exact (or_assoc.mpr hrefused).resolve_left hnull
  · intro haccepted
    have hnull : ¬ (userBuffer = 0#64 ∨ length = 0#64) := fun hnull =>
      haccepted (or_assoc.mp (Or.inl hnull))
    exact (if_neg hnull).trans (if_neg fun hlt => haccepted (Or.inr (Or.inr hlt)))

/-- What is asked of the call: user memory is written from the start of the buffer on and not
beyond its end, a result is returned when as many records as the header announces were written, and
a buffer that is too small for the announced records is left alone. -/
structure ObserveExact (vm : VirtualMemory) (cr3 userBuffer length : BitVec 64) (announced : Nat)
    (outcome : Int × Transfer) : Prop where
  memory : outcome.2.memory = { vm with
    mem := (vm.attach cr3).writeRange userBuffer (outcome.2.stream.getD · 0#8) outcome.2.written }
  inside : outcome.2.written ≤ length.toNat
  counted (h : 0 ≤ outcome.1) :
    outcome.2.records = announced ∧ outcome.1 = transferSize announced
  refused (h : length.toNat < transferSize announced) : outcome.1 = -1 ∧ outcome.2.written = 0

/-- The call is turned down or the header cannot be copied; or the second section finds as many
threads as the first has counted; or it stops in a record that cannot be copied before it has
written outside the buffer. -/
def Agrees (vm : VirtualMemory) (cr3 userBuffer length : BitVec 64)
    (counted walked : List ObservedThread) : Prop :=
  Refused userBuffer length (countThreads counted).toNat ∨
  ¬ Writable vm cr3 userBuffer 0 headerSize ∨
  (walked.filterMap reported).length = (countThreads counted).toNat ∨
  ∃ k < (walked.filterMap reported).length, ∃ written ≤ length.toNat,
    StopsAt vm cr3 userBuffer headerSize k written

theorem StopsAt.unique {offset k k' written written' : Nat}
    (h : StopsAt vm cr3 userBuffer offset k written)
    (h' : StopsAt vm cr3 userBuffer offset k' written') : written = written' := by
  obtain ⟨hprev, hstop, rfl⟩ := h
  obtain ⟨hprev', hstop', rfl⟩ := h'
  obtain hlt | rfl | hlt := Nat.lt_trichotomy k k'
  · exact absurd (hprev' k hlt) hstop
  · rfl
  · exact absurd (hprev k' hlt) hstop'

theorem streamed_start : Streamed vm cr3 userBuffer { memory := vm } :=
  ⟨rfl, fun i hi => absurd hi (Nat.not_lt_zero i)⟩

theorem StopsAt.written_le {offset k n written : Nat} (hk : k < n)
    (h : StopsAt vm cr3 userBuffer offset k written) :
    written ≤ offset + processRecordSize * n := by
  obtain ⟨-, -, rfl⟩ := h
  have hreach : reach vm cr3 userBuffer (offset + processRecordSize * k) processRecordSize ≤
      processRecordSize := reach_le (by decide)
  have hmul : processRecordSize * (k + 1) ≤ processRecordSize * n := Nat.mul_le_mul_left _ hk
  rw [Nat.mul_succ] at hmul
  omega

/-- The second section, once the header is written. -/
theorem walk_exact_iff {length : BitVec 64} {announced n : Nat}
    (hstreamed : Streamed vm cr3 userBuffer t)
    (hends : WalkEnds vm cr3 userBuffer headerSize n ok t.written)
    (hcount : ok = true → t.records = n) (hroom : transferSize announced ≤ length.toNat) :
    ObserveExact vm cr3 userBuffer length announced
      (if ok = true then (transferSize announced : Int) else -1, t) ↔
    n = announced ∨ ∃ k < n, ∃ written ≤ length.toNat,
      StopsAt vm cr3 userBuffer headerSize k written := by
  have hrefused : ¬ length.toNat < transferSize announced := Nat.not_lt.mpr hroom
  obtain ⟨rfl, hall, hwritten⟩ | ⟨rfl, k, hk, hstop⟩ := hends
  · have hrecords := hcount rfl
    constructor
    · intro h
      exact Or.inl (hrecords.symm.trans (h.counted (Int.natCast_nonneg _)).1)
    · rintro (rfl | ⟨k, hk, written, -, -, hstop, -⟩)
      · refine ⟨hstreamed.memory, ?_, fun _ => ⟨hrecords, rfl⟩, fun h => absurd h hrefused⟩
        rw [hwritten]
        exact hroom
      · exact absurd (hall k hk) hstop
  · constructor
    · intro h
      exact Or.inr ⟨k, hk, t.written, h.inside, hstop⟩
    · intro h
      have hinside : t.written ≤ length.toNat := by
        obtain rfl | ⟨k', -, written, hle, hstop'⟩ := h
        · exact (hstop.written_le hk).trans hroom
        · rw [hstop.unique hstop']
          exact hle
      exact ⟨hstreamed.memory, hinside, fun h => absurd h (by simp), fun h => absurd h hrefused⟩

/-- The records that are written are the announced ones exactly when the two sections agree. -/
theorem observe_exact_iff (vm : VirtualMemory) (cr3 userBuffer length : BitVec 64)
    (counted walked : List ObservedThread) (hhidden : (vm.attach cr3).TablesHidden) :
    ObserveExact vm cr3 userBuffer length (countThreads counted).toNat
      (sysObserveProcesses cr3 userBuffer vm length counted walked) ↔
    Agrees vm cr3 userBuffer length counted walked := by
  obtain ⟨hrefuse, haccept⟩ :=
    beginObserveTransfer_eq vm cr3 userBuffer length (countThreads counted)
  unfold sysObserveProcesses Agrees
  by_cases hrefused : Refused userBuffer length (countThreads counted).toNat
  · rw [hrefuse hrefused]
    refine iff_of_true ⟨rfl, Nat.zero_le _, fun h => ?_, fun _ => ⟨rfl, rfl⟩⟩ (Or.inl hrefused)
    exact absurd h (show ¬ (0 : Int) ≤ -1 by decide)
  · rw [haccept hrefused]
    have hroom : transferSize (countThreads counted).toNat ≤ length.toNat := by
      by_contra hlt
      exact hrefused (Or.inr (Or.inr (by omega)))
    generalize hheader : copyObserved cr3 userBuffer { memory := vm } _ = header
    obtain ⟨copied, t⟩ := header
    obtain ⟨hstreamed, hrecords, hwritten, hok, hnext⟩ := copyObserved_spec hhidden streamed_start
      rfl rfl (by rw [observeHeader_length]; decide) (by rw [observeHeader_length]; decide) hheader
    rw [observeHeader_length] at hwritten hok
    have hreach : reach vm cr3 userBuffer 0 headerSize ≤ headerSize := reach_le (by decide)
    cases copied with
    | false =>
      have hheader : ¬ Writable vm cr3 userBuffer 0 headerSize := fun hw => by cases hok.mpr hw
      have hinside : t.written ≤ length.toNat := by
        rw [hwritten]
        unfold transferSize at hroom
        simp only
        omega
      refine iff_of_true ⟨hstreamed.memory, hinside, fun h => ?_, fun h => ?_⟩
        (Or.inr (Or.inl hheader))
      · exact absurd h (show ¬ (0 : Int) ≤ -1 by decide)
      · exact absurd h (Nat.not_lt.mpr hroom)
    | true =>
      obtain ⟨hoffset, hstream⟩ := hnext rfl
      have hw : Writable vm cr3 userBuffer 0 headerSize := hok.mp rfl
      have hfull := (reach_eq_iff (by decide) (by decide)).mpr hw
      have hoffset₁ : t.offset = headerSize := by
        rw [hoffset, hwritten, hfull]
        rfl
      dsimp only
      generalize hwalk : writeRecords cr3 userBuffer walked t = result
      obtain ⟨ok, t'⟩ := result
      obtain ⟨hstreamed', hends, hcount⟩ :=
        writeRecords_spec hhidden hstreamed hoffset hstream hwalk
      rw [hoffset₁] at hends
      have hiff := walk_exact_iff hstreamed' hends
        (fun h => by rw [hcount h, hrecords, Nat.zero_add]) hroom
      simp only [hrefused, hw, not_true_eq_false, false_or]
      rw [← hiff]
      cases ok <;> rfl

def shellThread : ObservedThread where
  tid := 2#64
  cr3 := 0x1000#64
  state := .running
  userMode := true
  process := some { pid := 2#64, state := .running, name := [] }

theorem observe_exact_iff_shell : ObserveExact oneUserPage 0x1000#64 0x8000000000#64 84#64 1
    (sysObserveProcesses 0x1000#64 0x8000000000#64 oneUserPage 84#64 [shellThread]
      [shellThread]) :=
  (observe_exact_iff oneUserPage 0x1000#64 0x8000000000#64 84#64 [shellThread] [shellThread]
    oneUserPage_hidden).mpr (Or.inr (Or.inr (Or.inl rfl)))

/-- A thread that is created between the two sections is written behind the buffer. -/
theorem created_thread_overruns : ¬ ObserveExact oneUserPage 0x1000#64 0x8000000000#64 84#64 1
    (sysObserveProcesses 0x1000#64 0x8000000000#64 oneUserPage 84#64 [shellThread]
      [shellThread, shellThread]) := by
  intro h
  exact absurd h.inside (by decide +kernel)

end Os1.Observe
