import Os1.Lib.ByteReader

/-! Loops over a chain of records that start with their kind and length. -/
namespace Os1

/-- The loop: how the length and kind of a record are read, and what is done with the record at an
offset, which may stop the loop. -/
structure RecordWalk (S R : Type) where
  header : Nat → Reader (Nat × Nat)
  body : S → Nat → Nat → Reader (S ⊕ R)

namespace RecordWalk

/-- How a loop ends: at the end of the bytes, in the middle of a header, at a record whose length is
not possible, or stopped by the body. -/
inductive Ending (S R : Type) where
  | complete (state : S)
  | truncated (state : S)
  | malformed (state : S)
  | stopped (result : R)
  deriving DecidableEq, Repr

variable {S R : Type} (w : RecordWalk S R)

/-- The loop from an offset; `none` when the fuel ends first. -/
def loop (limit : Nat) : Nat → Nat → S → Reader (Option (Ending S R))
  | 0, _, _ => pure none
  | fuel + 1, offset, state =>
    if offset + 2 ≤ limit then do
      let (length, kind) ← w.header offset
      if length < 2 ∨ limit < offset + length then
        return some (.malformed state)
      else
        match ← w.body state offset kind with
        | .inl state => loop limit fuel (offset + length) state
        | .inr result => return some (.stopped result)
    else return some (if offset < limit then .truncated state else .complete state)

/-- A record as the loop finds it. -/
structure Record where
  offset : Nat
  length : Nat
  kind : Nat
  deriving DecidableEq, Repr

/-- The record at an offset. -/
def recordAt (m : Memory) (offset : Nat) : Record :=
  ⟨offset, ((w.header offset).run m).1, ((w.header offset).run m).2⟩

/-- The length of a record lets the loop go on. -/
def Record.Fits (limit : Nat) (record : Record) : Prop :=
  record.offset + 2 ≤ limit ∧ 2 ≤ record.length ∧ record.offset + record.length ≤ limit

instance (limit : Nat) : DecidablePred (Record.Fits limit) :=
  fun _ => inferInstanceAs (Decidable (_ ∧ _))

/-- From an offset and a state the loop comes to a record in a state. -/
inductive Reaches (m : Memory) (limit : Nat) : Nat → S → S → Record → Prop where
  | here {offset : Nat} {state : S} : (w.recordAt m offset).Fits limit →
      Reaches m limit offset state state (w.recordAt m offset)
  | later {offset : Nat} {state next final : S} {record : Record} :
      (w.recordAt m offset).Fits limit →
      (w.body state offset (w.recordAt m offset).kind).run m = .inl next →
      Reaches m limit (offset + (w.recordAt m offset).length) next final record →
      Reaches m limit offset state final record

/-- The records from an offset to the limit. -/
def Chain (m : Memory) (limit : Nat) : Nat → List Record → Prop
  | offset, [] => offset = limit
  | offset, record :: records =>
    record = w.recordAt m offset ∧ record.Fits limit ∧
      Chain m limit (offset + record.length) records

/-- The body over a list of records. -/
def fold (m : Memory) : S → List Record → S ⊕ R
  | state, [] => .inl state
  | state, record :: records =>
    match (w.body state record.offset record.kind).run m with
    | .inl next => fold m next records
    | .inr result => .inr result

variable {w} {m : Memory} {limit fuel offset : Nat} {state final : S} {record : Record}
  {records : List Record}

theorem fits_iff (h : offset + 2 ≤ limit) : (w.recordAt m offset).Fits limit ↔
    ¬ (((w.header offset).run m).1 < 2 ∨ limit < offset + ((w.header offset).run m).1) := by
  simp only [Record.Fits, recordAt]
  omega

/-- One turn of the loop. -/
theorem run_loop (h : offset + 2 ≤ limit) :
    (w.loop limit (fuel + 1) offset state).run m =
      if (w.recordAt m offset).Fits limit then
        match (w.body state offset (w.recordAt m offset).kind).run m with
        | .inl next => (w.loop limit fuel (offset + (w.recordAt m offset).length) next).run m
        | .inr result => some (.stopped result)
      else some (.malformed state) := by
  have hfits := fits_iff (w := w) (m := m) h
  rw [loop, if_pos h, Reader.run_bind]
  by_cases hbad : ((w.header offset).run m).1 < 2 ∨ limit < offset + ((w.header offset).run m).1
  · rw [if_neg (mt hfits.mp (not_not_intro hbad))]
    exact congrArg (Reader.run m) (if_pos hbad)
  · rw [if_pos (hfits.mpr hbad)]
    simp only [hbad, if_false, Reader.run_bind, recordAt]
    split <;> simp_all

theorem run_loop_end (h : ¬ offset + 2 ≤ limit) :
    (w.loop limit (fuel + 1) offset state).run m =
      some (if offset < limit then .truncated state else .complete state) := by
  rw [loop, if_neg h]
  rfl

/-- The loop ends, and more fuel does not change how. -/
theorem exists_ending (w : RecordWalk S R) (m : Memory) (limit offset : Nat) (state : S) :
    ∃ ending, ∀ fuel, limit ≤ offset + fuel →
      (w.loop limit (fuel + 1) offset state).run m = some ending := by
  induction hrest : limit - offset using Nat.strongRecOn generalizing offset state with
  | ind rest ih =>
  by_cases hheader : offset + 2 ≤ limit
  · by_cases hfits : (w.recordAt m offset).Fits limit
    · cases hbody : (w.body state offset (w.recordAt m offset).kind).run m with
      | inl next =>
        have hlength := hfits.2.1
        obtain ⟨ending, hending⟩ := ih _ (by omega)
          (offset + (w.recordAt m offset).length) next rfl
        refine ⟨ending, fun fuel hfuel => ?_⟩
        obtain ⟨fuel, rfl⟩ : ∃ k, fuel = k + 1 := ⟨fuel - 1, by omega⟩
        rw [run_loop hheader, if_pos hfits, hbody]
        exact hending fuel (by omega)
      | inr result =>
        refine ⟨.stopped result, fun fuel _ => ?_⟩
        rw [run_loop hheader, if_pos hfits, hbody]
    · refine ⟨.malformed state, fun fuel _ => ?_⟩
      rw [run_loop hheader, if_neg hfits]
  · exact ⟨if offset < limit then .truncated state else .complete state,
      fun fuel _ => run_loop_end hheader⟩

theorem within_loop_end (h : ¬ offset + 2 ≤ limit) :
    Reader.Within m limit (w.loop limit (fuel + 1) offset state) := by
  rw [loop, if_neg h]
  exact Reader.within_pure _

/-- The fields of one turn of the loop. -/
theorem within_loop (h : offset + 2 ≤ limit) (hheader : Reader.Within m limit (w.header offset)) :
    Reader.Within m limit (w.loop limit (fuel + 1) offset state) ↔
      ((w.recordAt m offset).Fits limit →
        Reader.Within m limit (w.body state offset (w.recordAt m offset).kind) ∧
        ∀ next, (w.body state offset (w.recordAt m offset).kind).run m = .inl next →
          Reader.Within m limit
            (w.loop limit fuel (offset + (w.recordAt m offset).length) next)) := by
  have hfits := fits_iff (w := w) (m := m) h
  rw [loop, if_pos h, Reader.within_bind, and_iff_right hheader]
  by_cases hbad : ((w.header offset).run m).1 < 2 ∨ limit < offset + ((w.header offset).run m).1
  · have hnot := mt hfits.mp (not_not_intro hbad)
    simp only [hbad, if_true, hnot, false_implies, iff_true]
    exact Reader.within_pure _
  · rw [forall_prop_of_true (hfits.mpr hbad)]
    simp only [hbad, if_false, Reader.within_bind, recordAt]
    refine and_congr_right fun _ => ?_
    cases (w.body state offset ((w.header offset).run m).2).run m with
    | inl next => simp
    | inr result => simpa using Reader.within_pure _

/-- With enough fuel the loop reads only below the limit exactly when the body does so at each
record that the loop comes to. -/
theorem within_loop_iff (hheader : ∀ offset, offset + 2 ≤ limit →
      Reader.Within m limit (w.header offset)) (hfuel : limit ≤ offset + fuel) :
    Reader.Within m limit (w.loop limit (fuel + 1) offset state) ↔
      ∀ final record, w.Reaches m limit offset state final record →
        Reader.Within m limit (w.body final record.offset record.kind) := by
  induction fuel generalizing offset state with
  | zero =>
    have hend : ¬ offset + 2 ≤ limit := by omega
    refine iff_of_true (within_loop_end hend) fun final record hreach => ?_
    cases hreach with
    | here hfits => exact absurd hfits.1 hend
    | later hfits => exact absurd hfits.1 hend
  | succ fuel ih =>
    by_cases hend : offset + 2 ≤ limit
    · rw [within_loop hend (hheader offset hend)]
      constructor
      · intro hturn final record hreach
        cases hreach with
        | here hfits => exact (hturn hfits).1
        | later hfits hbody hreach =>
          have hlength := hfits.2.1
          exact (ih (by omega)).mp ((hturn hfits).2 _ hbody) final record hreach
      · intro hall hfits
        have hlength := hfits.2.1
        refine ⟨hall state _ (.here hfits), fun next hbody => ?_⟩
        exact (ih (by omega)).mpr fun final record hreach =>
          hall final record (.later hfits hbody hreach)
    · refine iff_of_true (within_loop_end hend) fun final record hreach => ?_
      cases hreach with
      | here hfits => exact absurd hfits.1 hend
      | later hfits => exact absurd hfits.1 hend

/-- Over a chain of records the loop does the body for each of them. -/
theorem run_loop_of_chain (h : w.Chain m limit offset records) (hfuel : limit ≤ offset + fuel) :
    (w.loop limit (fuel + 1) offset state).run m =
      match w.fold m state records with
      | .inl final => some (.complete final)
      | .inr result => some (.stopped result) := by
  induction records generalizing offset fuel state with
  | nil =>
    obtain rfl : offset = limit := h
    rw [run_loop_end (by omega), if_neg (Nat.lt_irrefl offset)]
    rfl
  | cons record records ih =>
    obtain ⟨rfl, hfits, hrest⟩ := h
    have hheader : offset + 2 ≤ limit := hfits.1
    obtain ⟨fuel, rfl⟩ : ∃ k, fuel = k + 1 := ⟨fuel - 1, by omega⟩
    have hlength := hfits.2.1
    rw [run_loop hheader, if_pos hfits, fold]
    cases hbody : (w.body state (w.recordAt m offset).offset (w.recordAt m offset).kind).run m with
    | inl next =>
      rw [show (w.recordAt m offset).offset = offset from rfl] at hbody
      simp only [hbody]
      exact ih hrest (by omega)
    | inr result =>
      rw [show (w.recordAt m offset).offset = offset from rfl] at hbody
      simp only [hbody]

/-- A loop that comes to the end has found a chain of records. -/
theorem chain_of_complete (hle : offset ≤ limit)
    (h : (w.loop limit fuel offset state).run m = some (.complete final)) :
    ∃ records, w.Chain m limit offset records ∧ w.fold m state records = .inl final := by
  induction fuel generalizing offset state with
  | zero => cases h
  | succ fuel ih =>
    by_cases hheader : offset + 2 ≤ limit
    · rw [run_loop hheader] at h
      split at h
      · rename_i hfits
        split at h
        · rename_i next hbody
          obtain ⟨records, hchain, hfold⟩ := ih hfits.2.2 h
          refine ⟨w.recordAt m offset :: records, ⟨rfl, hfits, hchain⟩, ?_⟩
          rw [fold, show (w.recordAt m offset).offset = offset from rfl, hbody]
          exact hfold
        · cases h
      · cases h
    · rw [run_loop_end hheader] at h
      split at h
      · cases h
      · obtain rfl : state = final := by simpa using h
        exact ⟨[], by simp only [Chain]; omega, rfl⟩

/-- A property of the state, or of the result of a stopped loop. -/
def Ending.Holds (Inv : S → Prop) (Post : R → Prop) : Ending S R → Prop
  | .complete state | .truncated state | .malformed state => Inv state
  | .stopped result => Post result

/-- What the body keeps holds at the end of the loop. -/
theorem holds_of_run_loop {Inv : S → Prop} {Post : R → Prop} {ending : Ending S R}
    (hbody : ∀ state offset kind, Inv state →
      Sum.elim Inv Post ((w.body state offset kind).run m))
    (h : Inv state) (hrun : (w.loop limit fuel offset state).run m = some ending) :
    ending.Holds Inv Post := by
  induction fuel generalizing offset state with
  | zero => cases hrun
  | succ fuel ih =>
    by_cases hheader : offset + 2 ≤ limit
    · rw [run_loop hheader] at hrun
      have hkeeps := hbody state offset (w.recordAt m offset).kind h
      split at hrun
      · split at hrun
        · rename_i hnext
          rw [hnext] at hkeeps
          exact ih hkeeps hrun
        · rename_i hstopped
          rw [hstopped] at hkeeps
          cases hrun
          exact hkeeps
      · cases hrun
        exact h
    · rw [run_loop_end hheader] at hrun
      cases hrun
      split <;> exact h

theorem fold_cons_of_inl {next : S}
    (h : (w.body state record.offset record.kind).run m = .inl next) :
    w.fold m state (record :: records) = w.fold m next records := by
  rw [fold, h]

theorem fold_cons_of_inr {result : R}
    (h : (w.body state record.offset record.kind).run m = .inr result) :
    w.fold m state (record :: records) = .inr result := by
  rw [fold, h]

theorem fold_append (before after : List Record) :
    w.fold m state (before ++ after) =
      match w.fold m state before with
      | .inl next => w.fold m next after
      | .inr result => .inr result := by
  induction before generalizing state with
  | nil => rfl
  | cons record before ih =>
    rw [List.cons_append, fold, fold]
    split
    · exact ih
    · rfl

theorem Reaches.fits (h : w.Reaches m limit offset state final record) : record.Fits limit := by
  induction h with
  | here hfits => exact hfits
  | later _ _ _ ih => exact ih

theorem Reaches.mem_chain (h : w.Reaches m limit offset state final record)
    (hchain : w.Chain m limit offset records) : record ∈ records := by
  induction h generalizing records with
  | here hfits =>
    cases records with
    | nil =>
      have := hfits.1
      simp only [Chain, recordAt] at hchain this
      omega
    | cons first records => exact hchain.1 ▸ List.mem_cons_self
  | later hfits hbody hreach ih =>
    cases records with
    | nil =>
      have := hfits.1
      simp only [Chain, recordAt] at hchain this
      omega
    | cons first records =>
      obtain ⟨rfl, -, hrest⟩ := hchain
      exact List.mem_cons_of_mem _ (ih hrest)

end RecordWalk
end Os1
