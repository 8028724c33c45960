import Os1.Usb.Trb

/-!
# The event ring

The controller writes events one field at a time and the word with the cycle bit last. It
starts an event only while the ring has room for it.
-/

namespace Os1.Xhci

open CycleRing

structure EventRingInfo where
  trbCount : Nat
  dequeueIndex : Nat
  dequeuePhysical : BitVec 64
  cycleState : Bool
  deriving DecidableEq, Repr

inductive EventType where
  | none
  | transfer
  | commandCompletion
  | portStatusChange
  | unknown
  deriving DecidableEq, Repr

structure EventInfo where
  type : EventType := .none
  parameter : BitVec 64 := 0#64
  status : BitVec 32 := 0#32
  control : BitVec 32 := 0#32
  transferLength : BitVec 32 := 0#32
  completionCode : BitVec 8 := 0#8
  slotId : BitVec 8 := 0#8
  endpointId : BitVec 8 := 0#8
  portId : BitVec 8 := 0#8
  trbType : BitVec 8 := 0#8
  deriving DecidableEq, Repr

/-- The event that a block describes. -/
def eventInfo (entry : Trb) : EventInfo :=
  let out : EventInfo :=
    { parameter := entry.parameter
      status := entry.status
      control := entry.control
      transferLength := entry.status &&& kEventTransferLengthMask
      completionCode := (entry.status >>> kEventCompletionCodeShift).truncate 8
      trbType := ((entry.control &&& kTrbTypeMask) >>> kTrbTypeShift).truncate 8 }
  if out.trbType = kTrbTypeTransferEvent then
    { out with
      type := .transfer
      slotId := (entry.control >>> 24).truncate 8
      endpointId := (entry.control >>> 16 &&& 0x1F#32).truncate 8 }
  else if out.trbType = kTrbTypeCommandCompletionEvent then
    { out with type := .commandCompletion, slotId := (entry.control >>> 24).truncate 8 }
  else if out.trbType = kTrbTypePortStatusChangeEvent then
    { out with type := .portStatusChange, portId := (out.parameter >>> 24).truncate 8 }
  else { out with type := .unknown }

def initializeEventRingState (eventRingPhysical : BitVec 64) (eventRingTrbCount : Nat) :
    Option EventRingInfo :=
  if eventRingPhysical = 0#64 ∨ eventRingTrbCount = 0 then none
  else
    some
      { trbCount := eventRingTrbCount
        dequeueIndex := 0
        dequeuePhysical := eventRingPhysical
        cycleState := true }

def dequeueEventTrb (trbs : Trbs) (ringBytes : Nat) (ringPhysical : BitVec 64)
    (ring : EventRingInfo) : Option EventInfo × EventRingInfo :=
  if ring.trbCount = 0 ∨ ringBytes ≠ ring.trbCount * kTrbBytes ∨
      ring.dequeueIndex ≥ ring.trbCount then (none, ring)
  else
    let entry := trbs ring.dequeueIndex
    if entry.cycle ≠ ring.cycleState then (none, ring)
    else
      let ring := { ring with dequeueIndex := u32 (ring.dequeueIndex + 1) }
      let ring := if ring.dequeueIndex = ring.trbCount then
          { ring with dequeueIndex := 0, cycleState := !ring.cycleState }
        else ring
      (some (eventInfo entry),
        { ring with dequeuePhysical := trbAddress ringPhysical ring.dequeueIndex })

/-! ## The ring and its controller -/

/-- The ring memory, the driver's and the controller's position, the event that the controller
is writing with the stores that are left, and the events written and returned so far. -/
structure EventSystem where
  trbs : Trbs
  ring : EventRingInfo
  enqueueIndex : Nat := 0
  producerCycle : Bool := true
  event : Trb := Trb.zero
  pending : List TrbStore := []
  produced : List Trb := []
  delivered : List EventInfo := []

inductive EventAction where
  | begin (event : TrbFields)
  | store
  | dequeue

namespace EventSystem

/-- A cleared ring of `n` blocks. -/
def start (ring : EventRingInfo) : EventSystem := { trbs := fun _ => Trb.zero, ring }

/-- The event is complete: the controller moves on. -/
def advance (n : Nat) (s : EventSystem) : EventSystem :=
  let s := { s with produced := s.produced ++ [s.event], enqueueIndex := s.enqueueIndex + 1 }
  if s.enqueueIndex = n then { s with enqueueIndex := 0, producerCycle := !s.producerCycle } else s

def step (n : Nat) (physical : BitVec 64) (s : EventSystem) : EventAction → EventSystem
  | .begin event =>
    if s.pending = [] ∧ s.produced.length < s.delivered.length + n then
      { s with
        event := Trb.ofFields event s.producerCycle
        pending := (Trb.ofFields event s.producerCycle).stores }
    else s
  | .store =>
    match s.pending with
    | [] => s
    | [last] => { s with trbs := s.trbs.store s.enqueueIndex last, pending := [] }.advance n
    | first :: rest => { s with trbs := s.trbs.store s.enqueueIndex first, pending := rest }
  | .dequeue =>
    match dequeueEventTrb s.trbs (n * kTrbBytes) physical s.ring with
    | (none, ring) => { s with ring }
    | (some event, ring) => { s with ring, delivered := s.delivered ++ [event] }

def run (n : Nat) (physical : BitVec 64) (s : EventSystem) (actions : List EventAction) :
    EventSystem :=
  actions.foldl (step n physical) s

/-- The driver's record for the event with index `o`. -/
def driverAt (n : Nat) (physical : BitVec 64) (o : Nat) : EventRingInfo where
  trbCount := n
  dequeueIndex := o % n
  dequeuePhysical := trbAddress physical (o % n)
  cycleState := lap n o

/-- Both sides are at their place in the stream, what was written and not yet returned is in the
ring, and the event under construction ends up in the controller's slot. -/
structure Streams (n : Nat) (physical : BitVec 64) (s : EventSystem) : Prop where
  handed : Handed n (fun j => (s.trbs j).cycle) s.trbs s.produced s.produced.length
    s.delivered.length
  ring : s.ring = driverAt n physical s.delivered.length
  enqueueIndex : s.enqueueIndex = s.produced.length % n
  producerCycle : s.producerCycle = lap n s.produced.length
  delivered : s.delivered = (s.produced.take s.delivered.length).map eventInfo
  stage : ∃ k, s.pending = s.event.stores.drop k
  finishes : s.pending ≠ [] → s.pending.foldl TrbStore.apply (s.trbs s.enqueueIndex) = s.event
  marked : s.pending ≠ [] → s.event.cycle = s.producerCycle
  room : s.pending ≠ [] → s.produced.length < s.delivered.length + n

variable {n : Nat} {physical : BitVec 64} {s : EventSystem}

/-! ## The driver's call -/

/-- A call at its place in the stream takes the block there when its bit is that of the lap. -/
theorem dequeue_driverAt (hn : 0 < n) (hn32 : n < 2 ^ 32) (trbs : Trbs) (o : Nat) :
    dequeueEventTrb trbs (n * kTrbBytes) physical (driverAt n physical o) =
      if (trbs (o % n)).cycle = lap n o then
        (some (eventInfo (trbs (o % n))), driverAt n physical (o + 1))
      else (none, driverAt n physical o) := by
  have hlt := Nat.mod_lt o hn
  have hguard : ¬ (n = 0 ∨ n * kTrbBytes ≠ n * kTrbBytes ∨ o % n ≥ n) := by omega
  have hword : u32 (o % n + 1) = o % n + 1 := u32_of_lt (by omega)
  unfold dequeueEventTrb
  simp only [driverAt]
  simp only [hguard, if_false]
  simp only [ne_eq, ite_not, hword]
  refine if_congr Iff.rfl ?_ rfl
  rcases succ_cases hn o with ⟨hnext, hmod, hlap⟩ | ⟨hlast, hmod, hlap⟩
  · rw [if_neg (by omega), hmod, hlap]
  · rw [if_pos hlast, hmod, hlap]

/-! ## One step -/

theorem streams_begin (h : Streams n physical s) (event : TrbFields) :
    Streams n physical (s.step n physical (.begin event)) := by
  unfold step
  dsimp only
  split
  · rename_i hb
    exact ⟨h.handed, h.ring, h.enqueueIndex, h.producerCycle, h.delivered, ⟨0, rfl⟩,
      fun _ => foldl_stores _ _, fun _ => Trb.cycle_ofFields event s.producerCycle, fun _ => hb.2⟩
  · exact h

theorem streams_dequeue (hn : 0 < n) (hn32 : n < 2 ^ 32) (h : Streams n physical s) :
    Streams n physical (s.step n physical .dequeue) := by
  have hready := h.handed.ready_iff hn
  unfold step
  rw [h.ring, dequeue_driverAt hn hn32]
  by_cases hlt : s.delivered.length < s.produced.length
  · rw [if_pos (hready.mpr hlt)]
    have hheld := h.handed.held s.delivered.length le_rfl hlt
    refine ⟨?_, ?_, h.enqueueIndex, h.producerCycle, ?_, h.stage, h.finishes, h.marked, ?_⟩
    · simpa using h.handed.take hlt
    · simp
    · simp only [List.length_append, List.length_singleton, List.take_add_one, hheld,
        Option.toList_some, List.map_append, List.map_singleton]
      rw [← h.delivered]
    · intro hp
      have := h.room hp
      simp only [List.length_append, List.length_singleton]
      omega
  · rw [if_neg (fun hb => hlt (hready.mp hb))]
    exact ⟨h.handed, rfl, h.enqueueIndex, h.producerCycle, h.delivered, h.stage, h.finishes,
      h.marked, h.room⟩

/-- A store before the last one only changes the controller's own slot, not its bit. -/
theorem streams_prepare (h : Streams n physical s) {first next : TrbStore} {rest : List TrbStore}
    (hp : s.pending = first :: next :: rest) :
    Streams n physical
      { s with trbs := s.trbs.store s.enqueueIndex first, pending := next :: rest } := by
  have hne : s.pending ≠ [] := by simp [hp]
  obtain ⟨k, hk⟩ := h.stage
  have hfinishes := h.finishes hne
  rw [hp, List.foldl_cons] at hfinishes
  refine ⟨?_, h.ring, h.enqueueIndex, h.producerCycle, h.delivered, ⟨k + 1, ?_⟩, fun _ => ?_,
    fun _ => h.marked hne, fun _ => h.room hne⟩
  · refine h.handed.prepare (h.room hne) (fun j _ => ?_) (fun j hj => ?_)
    · by_cases hj : j = s.enqueueIndex
      · subst hj
        exact (congrArg Trb.cycle (Trbs.store_self ..)).trans
          (cycle_of_stage (hp.symm.trans hk))
      · exact congrArg Trb.cycle (Trbs.store_of_ne _ _ hj)
    · exact Trbs.store_of_ne _ _ (by rw [h.enqueueIndex]; exact hj)
  · rw [← List.drop_drop, ← hk, hp]
    rfl
  · have hself := Trbs.store_self s.trbs s.enqueueIndex first
    dsimp only
    rw [hself]
    exact hfinishes

/-- The last store hands the event over. -/
theorem streams_publish (hn : 0 < n) (h : Streams n physical s) {last : TrbStore}
    (hp : s.pending = [last]) :
    Streams n physical
      ({ s with trbs := s.trbs.store s.enqueueIndex last, pending := [] }.advance n) := by
  have hne : s.pending ≠ [] := by simp [hp]
  have hevent : last.apply (s.trbs s.enqueueIndex) = s.event := by
    have hfinishes := h.finishes hne
    rwa [hp] at hfinishes
  have hslot : s.trbs.store s.enqueueIndex last (s.produced.length % n) = s.event := by
    rw [← h.enqueueIndex, Trbs.store_self, hevent]
  have hother : ∀ j, j ≠ s.produced.length % n →
      s.trbs.store s.enqueueIndex last j = s.trbs j := fun j hj =>
    Trbs.store_of_ne _ _ (by rw [h.enqueueIndex]; exact hj)
  have hhanded : Handed n (fun j => (s.trbs.store s.enqueueIndex last j).cycle)
      (s.trbs.store s.enqueueIndex last) (s.produced ++ [s.event]) (s.produced.length + 1)
      s.delivered.length := by
    refine (h.handed.append le_rfl [s.event]).publish hn (h.room hne) (fun j _ => ?_) hother ?_
    · by_cases hj : j = s.produced.length % n
      · rw [if_pos hj, hj, hslot, h.marked hne, h.producerCycle]
      · rw [if_neg hj, hother j hj]
    · rw [hslot, List.getElem?_concat_length]
  have hdelivered : s.delivered =
      ((s.produced ++ [s.event]).take s.delivered.length).map eventInfo := by
    rw [List.take_append_of_le_length h.handed.le]
    exact h.delivered
  unfold advance
  dsimp only
  rcases succ_cases hn s.produced.length with ⟨hnext, hmod, hlap⟩ | ⟨hlast, hmod, hlap⟩
  · rw [if_neg (by rw [h.enqueueIndex]; omega)]
    refine ⟨by simpa using hhanded, h.ring, ?_, ?_, hdelivered, ⟨4, rfl⟩, by simp, by simp, by simp⟩
    · simp [hmod, h.enqueueIndex]
    · simp [hlap, h.producerCycle]
  · rw [if_pos (by rw [h.enqueueIndex]; exact hlast)]
    refine ⟨by simpa using hhanded, h.ring, ?_, ?_, hdelivered, ⟨4, rfl⟩, by simp, by simp, by simp⟩
    · simp [hmod]
    · simp [hlap, h.producerCycle]

theorem streams_step (hn : 0 < n) (hn32 : n < 2 ^ 32) (h : Streams n physical s)
    (action : EventAction) : Streams n physical (s.step n physical action) := by
  cases action with
  | begin event => exact streams_begin h event
  | dequeue => exact streams_dequeue hn hn32 h
  | store =>
    unfold step
    dsimp only
    split
    · exact h
    · rename_i last hp
      exact streams_publish hn h hp
    · rename_i first rest hrest hp
      cases rest with
      | nil => exact (hrest rfl).elim
      | cons next rest => exact streams_prepare h hp

/-! ## Whole runs -/

theorem streams_start (physical : BitVec 64) (n : Nat) :
    Streams n physical (start (driverAt n physical 0)) :=
  ⟨Handed.start fun _ _ => (by decide : Trb.zero.cycle = false), rfl, by simp [start],
    by simp [start, lap], rfl, ⟨4, rfl⟩, by simp [start], by simp [start], by simp [start]⟩

theorem streams_run (hn : 0 < n) (hn32 : n < 2 ^ 32) (h : Streams n physical s)
    (actions : List EventAction) : Streams n physical (s.run n physical actions) := by
  induction actions generalizing s with
  | nil => exact h
  | cons action actions ih => exact ih (streams_step hn hn32 h action)

/-- Over every run from a cleared ring the calls return exactly the events that were written,
each once and in order. A call fails exactly when none is left, and the driver always knows the
address of the next block. -/
theorem events_delivered {ring : EventRingInfo} (hn32 : n < 2 ^ 32)
    (hinit : initializeEventRingState physical n = some ring) (actions : List EventAction) :
    let s := (start ring).run n physical actions
    s.delivered = (s.produced.take s.delivered.length).map eventInfo ∧
      ((dequeueEventTrb s.trbs (n * kTrbBytes) physical s.ring).1 = none ↔
        s.produced.length = s.delivered.length) ∧
      s.ring.dequeuePhysical = trbAddress physical (s.delivered.length % n) ∧
      ∀ event, (dequeueEventTrb s.trbs (n * kTrbBytes) physical s.ring).1 = some event →
        (s.produced[s.delivered.length]?).map eventInfo = some event := by
  intro s
  have hn : 0 < n := by
    by_contra hz
    simp [initializeEventRingState, show n = 0 by omega] at hinit
  have hring : ring = driverAt n physical 0 := by
    unfold initializeEventRingState at hinit
    split at hinit
    · simp at hinit
    · rw [← Option.some.inj hinit]
      simp [driverAt, trbAddress, lap]
  have h : Streams n physical s := streams_run hn hn32 (hring ▸ streams_start physical n) actions
  have hready := h.handed.ready_iff hn
  have hle := h.handed.le
  rw [h.ring, dequeue_driverAt hn hn32]
  by_cases hlt : s.delivered.length < s.produced.length
  · rw [if_pos (hready.mpr hlt), h.handed.held _ le_rfl hlt]
    refine ⟨h.delivered, ?_, rfl, fun event he => he⟩
    simp
    omega
  · rw [if_neg (fun hb => hlt (hready.mp hb))]
    refine ⟨h.delivered, ?_, rfl, fun event he => by cases he⟩
    simp
    omega

/-- The whole write of one event. -/
def writeEvent (event : TrbFields) : List EventAction :=
  [.begin event, .store, .store, .store, .store]

/-- Three events through a ring of two blocks. -/
def threeEvents : List EventAction :=
  writeEvent ⟨0x1000#64, 1#32, 0x8000#32⟩ ++ [.dequeue] ++
    writeEvent ⟨0x2000#64, 2#32, 0x8400#32⟩ ++ writeEvent ⟨0x3000#64, 3#32, 0x8800#32⟩ ++
    [.dequeue, .dequeue, .dequeue]

theorem events_delivered_three :
    let s := (start (driverAt 2 0x10000#64 0)).run 2 0x10000#64 threeEvents
    initializeEventRingState 0x10000#64 2 = some (driverAt 2 0x10000#64 0) ∧
      s.produced.length = 3 ∧ s.delivered.length = 3 ∧
      s.delivered = (s.produced.take s.delivered.length).map eventInfo ∧
      s.ring.dequeuePhysical = 0x10010#64 := by
  intro s
  have hinit : initializeEventRingState 0x10000#64 2 = some (driverAt 2 0x10000#64 0) := by decide
  have h := events_delivered (by decide) hinit threeEvents
  refine ⟨hinit, by decide, by decide, h.1, ?_⟩
  exact h.2.2.1.trans (by decide)

end EventSystem

end Os1.Xhci
