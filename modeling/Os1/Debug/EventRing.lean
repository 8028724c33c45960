import Os1.Lib.Ring

/-! The ring of kernel events. -/
namespace Os1

def kEventRingCapacity : Nat := 256

/-- `Os1ObserveEventRecord`. -/
structure EventRecord where
  sequence : BitVec 64 := 0#64
  tickCount : BitVec 64 := 0#64
  pid : BitVec 64 := 0#64
  tid : BitVec 64 := 0#64
  arg0 : BitVec 64 := 0#64
  arg1 : BitVec 64 := 0#64
  arg2 : BitVec 64 := 0#64
  arg3 : BitVec 64 := 0#64
  type : BitVec 32 := 0#32
  flags : BitVec 32 := 0#32
  cpu : BitVec 32 := 0#32
  reserved0 : BitVec 32 := 0#32
  deriving DecidableEq

/-- The arguments of one `append`. -/
structure Event where
  tickCount : BitVec 64
  type : BitVec 32
  flags : BitVec 32
  cpu : BitVec 32
  pid : BitVec 64
  tid : BitVec 64
  arg0 : BitVec 64
  arg1 : BitVec 64
  arg2 : BitVec 64
  arg3 : BitVec 64

def Event.record (event : Event) (sequence : BitVec 64) : EventRecord where
  sequence := sequence
  tickCount := event.tickCount
  pid := event.pid
  tid := event.tid
  arg0 := event.arg0
  arg1 := event.arg1
  arg2 := event.arg2
  arg3 := event.arg3
  type := event.type
  flags := event.flags
  cpu := event.cpu

structure KernelEventRing where
  records : Nat → EventRecord := fun _ => {}
  nextSequence : BitVec 64 := 1#64
  head : Nat := 0
  count : Nat := 0

namespace KernelEventRing

def reset (ring : KernelEventRing) : KernelEventRing where
  records := fun i => if i < kEventRingCapacity then {} else ring.records i
  nextSequence := 1#64
  head := 0
  count := 0

def append (ring : KernelEventRing) (event : Event) : EventRecord × KernelEventRing :=
  let record := event.record ring.nextSequence
  (record,
    { records := Function.update ring.records ring.head record
      nextSequence := ring.nextSequence + 1#64
      head := (ring.head + 1) % kEventRingCapacity
      count := if ring.count < kEventRingCapacity then ring.count + 1 else ring.count })

/-- The loop of `snapshot`, with `n` records still to copy from index `i` on. -/
def copyRecords (ring : KernelEventRing) (start : Nat) :
    Nat → Nat → (Nat → EventRecord) → Nat → EventRecord
  | 0, _, records => records
  | n + 1, i, records =>
    ring.copyRecords start n (i + 1)
      (Function.update records i (ring.records ((start + i) % kEventRingCapacity)))

/-- The number of records copied, and the caller's buffer afterwards. -/
def snapshot (ring : KernelEventRing) (records : Nat → EventRecord) (maxRecords : Nat) :
    Nat × (Nat → EventRecord) :=
  if maxRecords = 0 then (0, records)
  else
    let copyCount := min ring.count maxRecords
    let start := (ring.head + kEventRingCapacity - copyCount) % kEventRingCapacity
    (copyCount, ring.copyRecords start copyCount 0 records)

/-! ## The unbounded log -/

inductive Operation where
  | reset
  | append (event : Event)

def step (ring : KernelEventRing) : Operation → KernelEventRing
  | .reset => ring.reset
  | .append event => (ring.append event).2

/-- The ring after a sequence of operations on the one the kernel starts with. -/
def run (operations : List Operation) : KernelEventRing := operations.foldl step {}

/-- One operation on the events since the last reset. -/
def note (events : List Event) : Operation → List Event
  | .reset => []
  | .append event => events ++ [event]

def appended (operations : List Operation) : List Event := operations.foldl note []

/-- What a log without a bound would hold: every event, numbered from 1. -/
def log (events : List Event) : List EventRecord :=
  events.mapIdx fun i event => event.record (1#64 + BitVec.ofNat 64 i)

@[simp] theorem log_length (events : List Event) : (log events).length = events.length := by
  simp [log]

/-- The ring holds the end of the log. -/
structure Refines (ring : KernelEventRing) (events : List Event) : Prop where
  keeps : KeepsEnd ring.records kEventRingCapacity (log events)
  head : ring.head = events.length % kEventRingCapacity
  count : ring.count = min events.length kEventRingCapacity
  nextSequence : ring.nextSequence = 1#64 + BitVec.ofNat 64 events.length

variable {ring : KernelEventRing} {events : List Event}

theorem Refines.append (h : Refines ring events) (event : Event) :
    Refines (ring.append event).2 (events ++ [event]) := by
  have hlog : log (events ++ [event]) = log events ++ [event.record ring.nextSequence] := by
    rw [log, List.mapIdx_concat, h.nextSequence]
    rfl
  refine ⟨?_, ?_, ?_, ?_⟩
  · rw [hlog]
    have hkeeps := h.keeps.append (event.record ring.nextSequence)
    rw [log_length, ← h.head] at hkeeps
    exact hkeeps
  · simp only [KernelEventRing.append, h.head, Nat.mod_add_mod, List.length_append,
      List.length_singleton]
  · simp only [KernelEventRing.append, h.count, List.length_append, List.length_singleton]
    split <;> omega
  · simp only [KernelEventRing.append, h.nextSequence, List.length_append, List.length_singleton,
      BitVec.ofNat_add]
    rw [BitVec.add_assoc]

theorem Refines.step (h : Refines ring events) (operation : Operation) :
    Refines (ring.step operation) (note events operation) := by
  cases operation with
  | reset => exact ⟨KeepsEnd.nil, rfl, rfl, rfl⟩
  | append event => exact h.append event

theorem Refines.foldl (h : Refines ring events) (operations : List Operation) :
    Refines (operations.foldl KernelEventRing.step ring) (operations.foldl note events) := by
  induction operations generalizing ring events with
  | nil => exact h
  | cons operation operations ih => exact ih (h.step operation)

theorem refines_run (operations : List Operation) :
    Refines (run operations) (appended operations) :=
  Refines.foldl ⟨KeepsEnd.nil, rfl, rfl, rfl⟩ operations

/-! ## Snapshots -/

theorem copyRecords_apply (start n i : Nat) (records : Nat → EventRecord) (j : Nat) :
    ring.copyRecords start n i records j =
      if i ≤ j ∧ j < i + n then ring.records ((start + j) % kEventRingCapacity)
      else records j := by
  induction n generalizing i records with
  | zero => rw [copyRecords, if_neg (by omega)]
  | succ n ih =>
    rw [copyRecords, ih]
    by_cases hij : j = i
    · subst hij
      rw [if_neg (by omega), if_pos (by omega), Function.update_self]
    · rw [Function.update_of_ne hij]
      exact if_congr (by omega) rfl rfl

theorem Refines.snapshot_count (h : Refines ring events) (records : Nat → EventRecord)
    (maxRecords : Nat) : (ring.snapshot records maxRecords).1 =
      min events.length (min kEventRingCapacity maxRecords) := by
  unfold KernelEventRing.snapshot
  split
  · simp [*]
  · rw [h.count, Nat.min_assoc]

theorem snapshot_of_le (records : Nat → EventRecord) (maxRecords : Nat) {j : Nat}
    (hj : (ring.snapshot records maxRecords).1 ≤ j) :
    (ring.snapshot records maxRecords).2 j = records j := by
  unfold KernelEventRing.snapshot at hj ⊢
  split
  · rfl
  next hzero =>
    rw [if_neg hzero] at hj
    dsimp only at hj ⊢
    rw [copyRecords_apply, if_neg (by omega)]

/-- The records a snapshot copies are the last ones of the log. -/
theorem Refines.snapshot_get (h : Refines ring events) (records : Nat → EventRecord)
    (maxRecords : Nat) {j : Nat} (hj : j < (ring.snapshot records maxRecords).1) :
    (log events)[events.length - (ring.snapshot records maxRecords).1 + j]? =
      some ((ring.snapshot records maxRecords).2 j) := by
  rw [h.snapshot_count] at hj ⊢
  unfold KernelEventRing.snapshot
  rw [if_neg (by omega)]
  dsimp only
  rw [h.count, Nat.min_assoc, copyRecords_apply, if_pos (by omega), h.head,
    ring_start (by omega) (by omega),
    h.keeps _ (by rw [log_length]; omega) (by rw [log_length]; omega), List.getElem?_eq_getElem]

theorem log_sequence {record : EventRecord} {i : Nat} (h : (log events)[i]? = some record) :
    record.sequence + BitVec.ofNat 64 (events.length - i) =
      1#64 + BitVec.ofNat 64 events.length := by
  obtain ⟨hi, rfl⟩ := List.getElem?_eq_some_iff.mp h
  rw [log_length] at hi
  simp only [log, List.getElem_mapIdx, Event.record]
  rw [BitVec.add_assoc, ← BitVec.ofNat_add, Nat.add_sub_cancel' (Nat.le_of_lt hi)]

/-- A snapshot copies the most recent records in the order they were appended, as many as the
ring, the log and the caller's buffer allow. -/
theorem snapshot_run (operations : List Operation) (records : Nat → EventRecord)
    (maxRecords : Nat) :
    let ring := run operations
    let events := appended operations
    let taken := ring.snapshot records maxRecords
    taken.1 = min events.length (min kEventRingCapacity maxRecords) ∧
      (List.range taken.1).map taken.2 = (log events).drop (events.length - taken.1) ∧
      (∀ j, taken.1 ≤ j → taken.2 j = records j) ∧
      ∀ j, j < taken.1 →
        (taken.2 j).sequence + BitVec.ofNat 64 (taken.1 - j) = ring.nextSequence := by
  intro ring events taken
  have h : Refines ring events := refines_run operations
  have hcount := h.snapshot_count records maxRecords
  refine ⟨hcount, ?_, fun j hj => snapshot_of_le records maxRecords hj, fun j hj => ?_⟩
  · refine List.ext_getElem? fun j => ?_
    rw [List.getElem?_map, List.getElem?_drop]
    rcases Nat.lt_or_ge j taken.1 with hj | hj
    · rw [List.getElem?_range hj, h.snapshot_get records maxRecords hj]
      rfl
    · rw [List.getElem?_eq_none (by simpa using hj), List.getElem?_eq_none]
      · rfl
      · rw [log_length]
        omega
  · have hsequence := log_sequence (h.snapshot_get records maxRecords hj)
    rw [h.nextSequence, ← hsequence]
    congr 2
    change taken.1 - j = events.length - (events.length - taken.1 + j)
    have hle : taken.1 ≤ events.length := hcount ▸ Nat.min_le_left _ _
    omega

end KernelEventRing
end Os1
