import Os1.Usb.Trb

/-!
# The command ring

The driver writes commands one field at a time and hands the link block over after the last
block of a lap. The consumer may act between any two stores. It may follow the link at once or
wait for the link's cycle bit first.
-/

namespace Os1.Xhci

open CycleRing

structure CommandRingInfo where
  trbCount : Nat
  enqueueIndex : Nat
  cycleState : Bool
  deriving DecidableEq, Repr

/-- The link block back to the start of the ring. -/
def linkTrb (ringPhysical : BitVec 64) : Trb where
  parameterLow := ringPhysical.truncate 32
  parameterHigh := (ringPhysical >>> 32).truncate 32
  status := 0#32
  control := kTrbTypeLink <<< kTrbTypeShift ||| kLinkTrbToggleCycle ||| 1#32

def initializeCommandRing (trbs : Trbs) (ringBytes : Nat) (ringPhysical : BitVec 64) :
    Option (Trbs × CommandRingInfo) :=
  if ringBytes < 2 * kTrbBytes ∨ ringBytes % kTrbBytes ≠ 0 ∨ ringPhysical &&& 0x3F#64 ≠ 0#64 then
    none
  else
    let cleared : Trbs := fun i => if i < ringBytes / kTrbBytes then Trb.zero else trbs i
    let trbCount := u32 (ringBytes / kTrbBytes)
    some (Function.update cleared (trbCount - 1) (linkTrb ringPhysical),
      { trbCount, enqueueIndex := 0, cycleState := true })

/-- The stores of a call that are left: those to the entry, then that to the link. -/
structure EnqueueCall where
  slot : Nat := 0
  stores : List TrbStore := []
  link : Option Bool := none
  deriving DecidableEq, Repr

/-- `link.control = (link.control & ~kTrbCycleBit) | (cycle_state ? kTrbCycleBit : 0)` -/
def Trbs.storeLink (trbs : Trbs) (trbCount : Nat) (cycle : Bool) : Trbs :=
  Function.update trbs (trbCount - 1)
    { trbs (trbCount - 1) with control := withCycle (trbs (trbCount - 1)).control cycle }

/-- The stores of a call, its effect on the ring record and the address it returns. -/
def beginEnqueue (ringBytes : Nat) (ringPhysical : BitVec 64) (ring : CommandRingInfo)
    (trb : TrbFields) : Option (EnqueueCall × CommandRingInfo × BitVec 64) :=
  if ring.trbCount < 2 ∨ ringBytes ≠ ring.trbCount * kTrbBytes ∨
      ring.enqueueIndex ≥ ring.trbCount - 1 then none
  else
    let stores := (Trb.ofFields trb ring.cycleState).stores
    let address := trbAddress ringPhysical ring.enqueueIndex
    let next := u32 (ring.enqueueIndex + 1)
    if next = ring.trbCount - 1 then
      some (⟨ring.enqueueIndex, stores, some ring.cycleState⟩,
        { ring with enqueueIndex := 0, cycleState := !ring.cycleState }, address)
    else some (⟨ring.enqueueIndex, stores, none⟩, { ring with enqueueIndex := next }, address)

/-- The call as a whole: all its stores in order. -/
def enqueueCommandTrb (trbs : Trbs) (ringBytes : Nat) (ringPhysical : BitVec 64)
    (ring : CommandRingInfo) (trb : TrbFields) : Option (Trbs × CommandRingInfo × BitVec 64) :=
  (beginEnqueue ringBytes ringPhysical ring trb).map fun (call, next, address) =>
    let trbs := call.stores.foldl (fun trbs s => trbs.store call.slot s) trbs
    (match call.link with
      | none => trbs
      | some cycle => trbs.storeLink ring.trbCount cycle, next, address)

/-! ## The ring and its consumer -/

/-- The ring memory, the driver's record and the call in progress, the commands handed to calls
with the addresses returned, the consumer's pointer and cycle state, and the blocks it took with
the addresses it read them from. -/
structure CommandSystem where
  trbs : Trbs
  ring : CommandRingInfo
  call : EnqueueCall := {}
  enqueued : List (TrbFields × BitVec 64) := []
  dequeue : BitVec 64
  consumerCycle : Bool := true
  obtained : List (Trb × BitVec 64) := []

inductive CommandAction where
  | enqueue (trb : TrbFields)
  | store
  | consume

def Trb.isLink (t : Trb) : Bool := (t.control &&& kTrbTypeMask) >>> kTrbTypeShift = kTrbTypeLink

namespace CommandSystem

/-- A ring at `physical` of `bytes` bytes, and whether the consumer waits for the link's cycle
bit. -/
structure Setup where
  bytes : Nat
  physical : BitVec 64
  waits : Bool

/-- The number of blocks. -/
def Setup.count (c : Setup) : Nat := c.bytes / kTrbBytes

def start (c : Setup) (trbs : Trbs) (ring : CommandRingInfo) : CommandSystem :=
  { trbs, ring, dequeue := c.physical }

/-- The consumer looks at the block its pointer names. -/
def consume (c : Setup) (s : CommandSystem) : CommandSystem :=
  let index := (s.dequeue - c.physical).toNat / kTrbBytes
  let t := s.trbs index
  if index = c.count - 1 ∧ t.isLink then
    if c.waits ∧ t.cycle ≠ s.consumerCycle then s
    else
      { s with
        dequeue := t.parameter &&& ~~~0xF#64
        consumerCycle :=
          if t.control &&& kLinkTrbToggleCycle ≠ 0#32 then !s.consumerCycle else s.consumerCycle }
  else if t.cycle ≠ s.consumerCycle then s
  else
    { s with
      obtained := s.obtained ++ [(t, s.dequeue)]
      dequeue := s.dequeue + BitVec.ofNat 64 kTrbBytes }

def Idle (s : CommandSystem) : Prop := s.call.stores = [] ∧ s.call.link = none

instance (s : CommandSystem) : Decidable s.Idle := inferInstanceAs (Decidable (_ ∧ _))

def step (c : Setup) (s : CommandSystem) : CommandAction → CommandSystem
  | .enqueue trb =>
    if s.Idle then
      match beginEnqueue c.bytes c.physical s.ring trb with
      | none => s
      | some (call, ring, address) =>
        { s with call, ring, enqueued := s.enqueued ++ [(trb, address)] }
    else s
  | .store =>
    match s.call.stores, s.call.link with
    | first :: rest, _ =>
      { s with trbs := s.trbs.store s.call.slot first, call := { s.call with stores := rest } }
    | [], some cycle =>
      { s with
        trbs := s.trbs.storeLink s.ring.trbCount cycle
        call := { s.call with link := none } }
    | [], none => s
  | .consume => s.consume c

def run (c : Setup) (s : CommandSystem) (actions : List CommandAction) : CommandSystem :=
  actions.foldl (step c) s

/-- The consumer stands on the link block. -/
def OnLink (c : Setup) (s : CommandSystem) : Prop :=
  s.dequeue = trbAddress c.physical (c.count - 1)

instance (c : Setup) (s : CommandSystem) : Decidable (s.OnLink c) :=
  inferInstanceAs (Decidable (_ = _))

/-- There is room for one more command. The link counts as outstanding while a consumer that
waits for its cycle bit stands on it. -/
def Room (c : Setup) (s : CommandSystem) : Prop :=
  s.enqueued.length + (if c.waits ∧ s.OnLink c then 1 else 0) < s.obtained.length + (c.count - 1)

/-- There are fewer commands outstanding than slots. -/
def Unfilled (c : Setup) (s : CommandSystem) : Prop :=
  s.enqueued.length < s.obtained.length + (c.count - 1)

instance (c : Setup) : DecidablePred (Room c) := fun _ => inferInstanceAs (Decidable (_ < _))

instance (c : Setup) : DecidablePred (Unfilled c) := fun _ => inferInstanceAs (Decidable (_ < _))

/-- Every call of the run starts in a state that allows it. -/
def Allowed (allow : CommandSystem → Prop) (c : Setup) :
    CommandSystem → List CommandAction → Prop
  | _, [] => True
  | s, .enqueue trb :: actions =>
    (s.Idle → allow s) ∧ Allowed allow c (s.step c (.enqueue trb)) actions
  | s, .store :: actions => Allowed allow c (s.step c .store) actions
  | s, .consume :: actions => Allowed allow c (s.step c .consume) actions

instance decidableAllowed (allow : CommandSystem → Prop) [DecidablePred allow] (c : Setup) :
    (s : CommandSystem) → (actions : List CommandAction) → Decidable (Allowed allow c s actions)
  | _, [] => .isTrue trivial
  | s, .enqueue trb :: actions =>
    have := decidableAllowed allow c (s.step c (.enqueue trb)) actions
    inferInstanceAs (Decidable ((s.Idle → allow s) ∧ _))
  | s, .store :: actions => decidableAllowed allow c (s.step c .store) actions
  | s, .consume :: actions => decidableAllowed allow c (s.step c .consume) actions

/-! ## Addresses -/

theorem index_trbAddress (physical : BitVec 64) {i : Nat} (h : i < 2 ^ 28) :
    (trbAddress physical i - physical).toNat / kTrbBytes = i := by
  have hsub : trbAddress physical i - physical = BitVec.ofNat 64 (i * kTrbBytes) := by
    unfold trbAddress
    rw [BitVec.add_comm, BitVec.add_sub_cancel]
  rw [hsub, BitVec.toNat_ofNat]
  unfold kTrbBytes
  omega

theorem trbAddress_succ (physical : BitVec 64) (i : Nat) :
    trbAddress physical i + BitVec.ofNat 64 kTrbBytes = trbAddress physical (i + 1) := by
  unfold trbAddress
  rw [BitVec.add_assoc, ← BitVec.ofNat_add, Nat.add_one_mul]

theorem trbAddress_zero (physical : BitVec 64) : trbAddress physical 0 = physical := by
  simp [trbAddress]

/-! ## The link block -/

/-- The block leads back to the start of the ring and toggles the cycle state. -/
structure LinkBlock (physical : BitVec 64) (t : Trb) : Prop where
  isLink : t.isLink = true
  pointer : t.parameter &&& ~~~0xF#64 = physical
  toggles : t.control &&& kLinkTrbToggleCycle ≠ 0#32

theorem linkBlock_linkTrb {physical : BitVec 64} (h : physical &&& 0x3F#64 = 0#64) :
    LinkBlock physical (linkTrb physical) := by
  have hparameter : (linkTrb physical).parameter = physical :=
    Trb.parameter_ofFields ⟨physical, 0#32, 0#32⟩ true
  have htoggles : (kTrbTypeLink <<< kTrbTypeShift ||| kLinkTrbToggleCycle ||| 1#32) &&&
      kLinkTrbToggleCycle ≠ 0#32 := by decide
  have htype : ((kTrbTypeLink <<< kTrbTypeShift ||| kLinkTrbToggleCycle ||| 1#32) &&&
      kTrbTypeMask) >>> kTrbTypeShift = kTrbTypeLink := by decide
  refine ⟨decide_eq_true htype, ?_, htoggles⟩
  have hlow : physical.toNat % 64 = 0 := by
    have htoNat := congrArg BitVec.toNat h
    rwa [BitVec.toNat_and, show (0x3F#64).toNat = 2 ^ 6 - 1 from rfl,
      Nat.and_two_pow_sub_one_eq_mod] at htoNat
  rw [hparameter, show 0xF#64 = BitVec.ofNat 64 (2 ^ 4) - 1#64 by decide]
  apply BitVec.eq_of_toNat_eq
  rw [toNat_and_not_low physical 4 (by decide)]
  omega

theorem LinkBlock.withCycle {physical : BitVec 64} {t : Trb} (h : LinkBlock physical t) (b : Bool) :
    LinkBlock physical { t with control := Xhci.withCycle t.control b } := by
  refine ⟨?_, h.pointer, ?_⟩
  · have hmask := withCycle_and t.control kTrbTypeMask b (by decide)
    have hlink := h.isLink
    simp only [Trb.isLink] at hlink ⊢
    rwa [hmask]
  · have hmask := withCycle_and t.control kLinkTrbToggleCycle b (by decide)
    simp only
    rw [hmask]
    exact h.toggles

/-! ## The invariant -/

variable {c : Setup} {s : CommandSystem}

/-- The slots for commands: all blocks but the link. -/
def Setup.slots (c : Setup) : Nat := c.count - 1

/-- The commands whose cycle bit is written. -/
def published (s : CommandSystem) : Nat :=
  if s.call.stores = [] then s.enqueued.length else s.enqueued.length - 1

/-- The call in progress writes the newest command to its slot. -/
structure Writing (c : Setup) (s : CommandSystem) (entry : Trb) : Prop where
  slot : s.call.slot = (s.enqueued.length - 1) % c.slots
  stage : ∃ k, s.call.stores = entry.stores.drop k
  finishes : s.call.stores.foldl TrbStore.apply (s.trbs s.call.slot) = entry
  marked : entry.cycle = lap c.slots (s.enqueued.length - 1)
  newest : (s.enqueued.map (·.1.clean))[s.enqueued.length - 1]? = some entry.fields

/-- The consumer is at the slot of its next command, or on the link before it. -/
def Reading (c : Setup) (s : CommandSystem) : Prop :=
  s.dequeue = trbAddress c.physical (s.obtained.length % c.slots) ∧
      s.consumerCycle = lap c.slots s.obtained.length ∨
    s.OnLink c ∧ s.obtained.length % c.slots = 0 ∧ 0 < s.obtained.length ∧
      (s.consumerCycle = !lap c.slots s.obtained.length) ∧
      (c.waits = true → s.enqueued.length < s.obtained.length + c.slots)

structure Streams (c : Setup) (s : CommandSystem) : Prop where
  handed : Handed c.slots (fun j => (s.trbs j).cycle) (fun j => (s.trbs j).fields)
    (s.enqueued.map (·.1.clean)) s.published s.obtained.length
  bound : s.enqueued.length ≤ s.obtained.length + c.slots
  ring : s.ring = ⟨c.count, s.enqueued.length % c.slots, lap c.slots s.enqueued.length⟩
  addresses : ∀ (k : Nat) p, s.enqueued[k]? = some p →
    p.2 = trbAddress c.physical (k % c.slots)
  obtained : s.obtained.map (fun p => (p.1.fields, p.2)) =
    (s.enqueued.take s.obtained.length).map (fun p => (p.1.clean, p.2))
  writing : s.call.stores ≠ [] → ∃ entry, Writing c s entry
  link : LinkBlock c.physical (s.trbs c.slots)
  linkBit : s.call.link = none → c.slots ≤ s.enqueued.length →
    (s.trbs c.slots).cycle = !lap c.slots s.enqueued.length
  linkPending : ∀ b, s.call.link = some b → b = !lap c.slots s.enqueued.length
  reading : s.Reading c

/-- A ring that `initialize_command_ring` accepts. -/
structure Setup.Good (c : Setup) : Prop where
  bytes : c.bytes = c.count * kTrbBytes
  two : 2 ≤ c.count
  small : c.count < 2 ^ 28
  aligned : c.physical &&& 0x3F#64 = 0#64

theorem Setup.Good.slots_pos (hc : c.Good) : 0 < c.slots := by
  have := hc.two
  unfold Setup.slots
  omega

theorem Setup.Good.slots_succ (hc : c.Good) : c.slots + 1 = c.count := by
  have := hc.two
  unfold Setup.slots
  omega

theorem initializeCommandRing_some {trbs trbs' : Trbs} {ring : CommandRingInfo}
    (hbytes : c.bytes < 2 ^ 32)
    (h : initializeCommandRing trbs c.bytes c.physical = some (trbs', ring)) :
    c.Good ∧ ring = ⟨c.count, 0, true⟩ ∧ LinkBlock c.physical (trbs' c.slots) ∧
      ∀ j < c.slots, trbs' j = Trb.zero := by
  unfold initializeCommandRing at h
  split at h
  · simp at h
  rename_i hguard
  push Not at hguard
  obtain ⟨htwo, hmod, haligned⟩ := hguard
  have hcount : u32 (c.bytes / kTrbBytes) = c.count := u32_of_lt (by unfold kTrbBytes; omega)
  have hgood : c.Good := by
    unfold kTrbBytes at htwo hmod
    exact ⟨by unfold Setup.count kTrbBytes; omega, by unfold Setup.count kTrbBytes; omega,
      by unfold Setup.count kTrbBytes; omega, haligned⟩
  simp only [hcount, Option.some.injEq, Prod.mk.injEq] at h
  obtain ⟨rfl, rfl⟩ := h
  refine ⟨hgood, rfl, ?_, fun j hj => ?_⟩
  · rw [show c.slots = c.count - 1 from rfl, Function.update_self]
    exact linkBlock_linkTrb haligned
  · have hlt : j < c.bytes / kTrbBytes := by
      have := hgood.slots_succ
      unfold Setup.count at this
      omega
    rw [Function.update_of_ne (show j ≠ c.count - 1 from Nat.ne_of_lt hj), if_pos hlt]

theorem streams_start (hc : c.Good) {trbs : Trbs} (hlink : LinkBlock c.physical (trbs c.slots))
    (hzero : ∀ j < c.slots, trbs j = Trb.zero) :
    Streams c (start c trbs ⟨c.count, 0, true⟩) := by
  have hpos := hc.slots_pos
  refine ⟨Handed.start fun j hj => ?_, by simp [start], by simp [start, lap], by simp [start], rfl,
    by simp [start], hlink, ?_, by simp [start], Or.inl ⟨?_, by simp [start, lap]⟩⟩
  · simp only [start, hzero j hj]
    decide
  · intro _ hle
    simp only [start, List.length_nil] at hle
    omega
  · simp [start, trbAddress_zero]

/-! ## The driver's steps -/

/-- A call at its place in the stream is accepted. -/
theorem beginEnqueue_at (hc : c.Good) (e : Nat) (trb : TrbFields) :
    beginEnqueue c.bytes c.physical ⟨c.count, e % c.slots, lap c.slots e⟩ trb =
      some (⟨e % c.slots, (Trb.ofFields trb (lap c.slots e)).stores,
          if e % c.slots + 1 = c.slots then some (lap c.slots e) else none⟩,
        ⟨c.count, (e + 1) % c.slots, lap c.slots (e + 1)⟩,
        trbAddress c.physical (e % c.slots)) := by
  have hlt := Nat.mod_lt e hc.slots_pos
  have hsucc := hc.slots_succ
  have hsmall := hc.small
  have hguard : ¬ (c.count < 2 ∨ c.bytes ≠ c.count * kTrbBytes ∨ e % c.slots ≥ c.count - 1) := by
    have := hc.two
    have := hc.bytes
    omega
  have hword : u32 (e % c.slots + 1) = e % c.slots + 1 := u32_of_lt (by omega)
  unfold beginEnqueue
  rw [if_neg hguard]
  simp only [hword]
  rw [show c.count - 1 = c.slots from rfl]
  rcases succ_cases hc.slots_pos e with ⟨hnext, hmod, hlap⟩ | ⟨hlast, hmod, hlap⟩
  · rw [if_neg (by omega), if_neg (by omega), hmod, hlap]
  · rw [if_pos hlast, if_pos hlast, hmod, hlap]

theorem streams_enqueue (hc : c.Good) (h : Streams c s) (hroom : s.Idle → s.Room c)
    (trb : TrbFields) : Streams c (s.step c (.enqueue trb)) := by
  unfold step
  dsimp only
  split
  swap
  · exact h
  rename_i hidle
  have hroom := hroom hidle
  have hpos := hc.slots_pos
  have hroom' : s.enqueued.length < s.obtained.length + c.slots := by
    unfold Room at hroom
    rw [show c.count - 1 = c.slots from rfl] at hroom
    omega
  have hpublished : s.published = s.enqueued.length := if_pos hidle.1
  have hhanded := h.handed
  rw [hpublished] at hhanded
  rw [h.ring, beginEnqueue_at hc]
  dsimp only
  have hstores : (Trb.ofFields trb (lap c.slots s.enqueued.length)).stores ≠ [] := by
    simp [Trb.stores]
  refine ⟨?_, ?_, ?_, ?_, ?_, fun _ => ⟨Trb.ofFields trb (lap c.slots s.enqueued.length), ?_⟩,
    h.link, ?_, ?_, ?_⟩
  · simp only [published, if_neg hstores, List.map_append, List.length_append,
      List.length_singleton, Nat.add_sub_cancel]
    exact hhanded.append (by simp) _
  · simp only [List.length_append, List.length_singleton]
    omega
  · simp
  · intro k p hp
    by_cases hk : k < s.enqueued.length
    · rw [List.getElem?_append_left hk] at hp
      exact h.addresses k p hp
    · have hlen := (List.getElem?_eq_some_iff.mp hp).1
      simp only [List.length_append, List.length_singleton] at hlen
      obtain rfl : k = s.enqueued.length := by omega
      rw [List.getElem?_concat_length] at hp
      rw [← Option.some.inj hp]
  · rw [List.take_append_of_le_length (hhanded.le)]
    exact h.obtained
  · refine ⟨by simp, ⟨0, rfl⟩, rfl, ?_, ?_⟩
    · simp [Trb.cycle_ofFields]
    · simp [Trb.fields_ofFields]
  · intro hnone hle
    simp only [List.length_append, List.length_singleton] at hle hnone ⊢
    rcases succ_cases hpos s.enqueued.length with ⟨hnext, -, hlap⟩ | ⟨hlast, -, -⟩
    · rw [hlap]
      refine h.linkBit hidle.2 ?_
      by_contra hlt
      rw [Nat.mod_eq_of_lt (by omega)] at hnext
      omega
    · rw [if_pos hlast] at hnone
      simp at hnone
  · intro b hb
    simp only [List.length_append, List.length_singleton] at hb ⊢
    rcases succ_cases hpos s.enqueued.length with ⟨hnext, -, -⟩ | ⟨hlast, -, hlap⟩
    · rw [if_neg (by omega)] at hb
      simp at hb
    · rw [if_pos hlast] at hb
      rw [hlap, ← Option.some.inj hb, Bool.not_not]
  · rcases h.reading with hslot | ⟨hon, hmod, ho, hcycle, -⟩
    · exact Or.inl hslot
    · refine Or.inr ⟨hon, hmod, ho, hcycle, fun hwaits => ?_⟩
      unfold Room at hroom
      rw [if_pos ⟨hwaits, hon⟩, show c.count - 1 = c.slots from rfl] at hroom
      simp only [List.length_append, List.length_singleton]
      omega

theorem Writing.length_pos {entry : Trb} (h : Writing c s entry) : 0 < s.enqueued.length := by
  have hlt := (List.getElem?_eq_some_iff.mp h.newest).1
  rw [List.length_map] at hlt
  omega

theorem Writing.slot_lt {entry : Trb} (h : Writing c s entry) (hc : c.Good) :
    s.call.slot < c.slots := by
  rw [h.slot]
  exact Nat.mod_lt _ hc.slots_pos

/-- What a step of the driver within a call leaves alone. -/
structure SameParties (s s' : CommandSystem) : Prop where
  ring : s'.ring = s.ring
  enqueued : s'.enqueued = s.enqueued
  dequeue : s'.dequeue = s.dequeue
  consumerCycle : s'.consumerCycle = s.consumerCycle
  obtained : s'.obtained = s.obtained

/-- A step within a call keeps the invariant if it does so in the ring memory. -/
theorem Streams.of_memory {s' : CommandSystem} (h : Streams c s) (hsame : SameParties s s')
    (hhanded : Handed c.slots (fun j => (s'.trbs j).cycle) (fun j => (s'.trbs j).fields)
      (s.enqueued.map (·.1.clean)) s'.published s.obtained.length)
    (hwriting : s'.call.stores ≠ [] → ∃ entry, Writing c s' entry)
    (hlink : LinkBlock c.physical (s'.trbs c.slots))
    (hbit : s'.call.link = none → c.slots ≤ s.enqueued.length →
      (s'.trbs c.slots).cycle = !lap c.slots s.enqueued.length)
    (hpending : ∀ b, s'.call.link = some b → b = !lap c.slots s.enqueued.length) :
    Streams c s' := by
  obtain ⟨hr, he, hd, hcy, ho⟩ := hsame
  refine ⟨?_, ?_, ?_, ?_, ?_, hwriting, hlink, ?_, ?_, ?_⟩
  · rw [he, ho]
    exact hhanded
  · rw [he, ho]
    exact h.bound
  · rw [hr, he]
    exact h.ring
  · rw [he]
    exact h.addresses
  · rw [he, ho]
    exact h.obtained
  · rw [he]
    exact hbit
  · rw [he]
    exact hpending
  · unfold Reading OnLink
    rw [hd, hcy, ho, he]
    exact h.reading

theorem streams_prepare (hc : c.Good) (h : Streams c s) {first next : TrbStore}
    {rest : List TrbStore} (hp : s.call.stores = first :: next :: rest) :
    Streams c { s with
      trbs := s.trbs.store s.call.slot first, call := { s.call with stores := next :: rest } } := by
  have hne : s.call.stores ≠ [] := by simp [hp]
  obtain ⟨entry, hw⟩ := h.writing hne
  obtain ⟨k, hk⟩ := hw.stage
  have hlen := hw.length_pos
  have hpublished : s.published = s.enqueued.length - 1 := if_neg hne
  have hhanded := h.handed
  rw [hpublished] at hhanded
  have hslot := hw.slot_lt hc
  have hat : s.trbs.store s.call.slot first c.slots = s.trbs c.slots :=
    Trbs.store_of_ne _ _ (by omega)
  have hbound := h.bound
  refine h.of_memory ⟨rfl, rfl, rfl, rfl, rfl⟩ ?_ (fun _ => ⟨entry, hw.slot, ⟨k + 1, ?_⟩, ?_,
    hw.marked, hw.newest⟩) ?_ ?_ h.linkPending
  · have hstill : published { s with
        trbs := s.trbs.store s.call.slot first
        call := { s.call with stores := next :: rest } } = s.enqueued.length - 1 :=
      if_neg (by simp)
    rw [hstill]
    refine hhanded.prepare (by omega) (fun j _ => ?_) (fun j hj => ?_)
    · by_cases hj : j = s.call.slot
      · subst hj
        exact (congrArg Trb.cycle (Trbs.store_self ..)).trans (cycle_of_stage (hp.symm.trans hk))
      · exact congrArg Trb.cycle (Trbs.store_of_ne _ _ hj)
    · exact congrArg Trb.fields (Trbs.store_of_ne _ _ (by rw [hw.slot]; exact hj))
  · rw [← List.drop_drop, ← hk, hp]
    rfl
  · have hfinishes := hw.finishes
    rw [hp, List.foldl_cons] at hfinishes
    have hself := Trbs.store_self s.trbs s.call.slot first
    dsimp only
    rw [hself]
    exact hfinishes
  · dsimp only
    rw [hat]
    exact h.link
  · intro hnone hle
    dsimp only
    rw [hat]
    exact h.linkBit hnone hle

theorem streams_publish (hc : c.Good) (h : Streams c s) {last : TrbStore}
    (hp : s.call.stores = [last]) :
    Streams c { s with
      trbs := s.trbs.store s.call.slot last, call := { s.call with stores := [] } } := by
  have hne : s.call.stores ≠ [] := by simp [hp]
  obtain ⟨entry, hw⟩ := h.writing hne
  have hlen := hw.length_pos
  have hpublished : s.published = s.enqueued.length - 1 := if_neg hne
  have hhanded := h.handed
  rw [hpublished] at hhanded
  have hslot := hw.slot_lt hc
  have hat : s.trbs.store s.call.slot last c.slots = s.trbs c.slots :=
    Trbs.store_of_ne _ _ (by omega)
  have hbound := h.bound
  have hentry : s.trbs.store s.call.slot last s.call.slot = entry := by
    have hfinishes := hw.finishes
    rw [hp] at hfinishes
    exact (Trbs.store_self ..).trans hfinishes
  refine h.of_memory ⟨rfl, rfl, rfl, rfl, rfl⟩ ?_ (fun hno => (hno rfl).elim) ?_ ?_ h.linkPending
  · have hnow : published { s with
        trbs := s.trbs.store s.call.slot last
        call := { s.call with stores := [] } } = s.enqueued.length - 1 + 1 :=
      (if_pos rfl).trans (show s.enqueued.length = s.enqueued.length - 1 + 1 by omega)
    rw [hnow]
    refine hhanded.publish hc.slots_pos (by omega) (fun j _ => ?_) (fun j hj => ?_) ?_
    · by_cases hj : j = s.call.slot
      · rw [hj, if_pos hw.slot]
        dsimp only
        rw [hentry]
        exact hw.marked
      · rw [if_neg (by rw [← hw.slot]; exact hj)]
        exact congrArg Trb.cycle (Trbs.store_of_ne _ _ hj)
    · exact congrArg Trb.fields (Trbs.store_of_ne _ _ (by rw [hw.slot]; exact hj))
    · rw [hw.newest, ← hw.slot]
      dsimp only
      rw [hentry]
  · dsimp only
    rw [hat]
    exact h.link
  · intro hnone hle
    dsimp only
    rw [hat]
    exact h.linkBit hnone hle

theorem streams_link (hc : c.Good) (h : Streams c s) {b : Bool} (hp : s.call.stores = [])
    (hl : s.call.link = some b) :
    Streams c { s with
      trbs := s.trbs.storeLink s.ring.trbCount b, call := { s.call with link := none } } := by
  have hcount : s.ring.trbCount - 1 = c.slots := by
    rw [h.ring]
    rfl
  have hself : s.trbs.storeLink s.ring.trbCount b c.slots =
      { s.trbs c.slots with control := withCycle (s.trbs c.slots).control b } := by
    unfold Trbs.storeLink
    rw [hcount, Function.update_self]
  have hother : ∀ j < c.slots, s.trbs.storeLink s.ring.trbCount b j = s.trbs j := by
    intro j hj
    unfold Trbs.storeLink
    rw [hcount, Function.update_of_ne (Nat.ne_of_lt hj)]
  have hpublished : published { s with
      trbs := s.trbs.storeLink s.ring.trbCount b
      call := { s.call with link := none } } = s.published := rfl
  refine h.of_memory ⟨rfl, rfl, rfl, rfl, rfl⟩ ?_ (fun hno => (hno hp).elim) ?_ ?_ (by simp)
  · rw [hpublished]
    refine ⟨h.handed.le, h.handed.room, fun j hj => ?_, fun k h1 h2 => ?_⟩
    · dsimp only
      rw [hother j hj]
      exact h.handed.bits j hj
    · dsimp only
      rw [hother _ (Nat.mod_lt k hc.slots_pos)]
      exact h.handed.held k h1 h2
  · dsimp only
    rw [hself]
    exact h.link.withCycle b
  · intro _ _
    dsimp only
    rw [hself, ← h.linkPending b hl]
    exact cycle_withCycle _ b

/-! ## The consumer's steps -/

/-- In its slot the consumer takes the next command as soon as its cycle bit is written. -/
theorem consume_slot (hc : c.Good) (h : Streams c s)
    (hd : s.dequeue = trbAddress c.physical (s.obtained.length % c.slots))
    (hcycle : s.consumerCycle = lap c.slots s.obtained.length) :
    s.consume c = if s.obtained.length < s.published then
        { s with
          obtained := s.obtained ++ [(s.trbs (s.obtained.length % c.slots), s.dequeue)]
          dequeue := trbAddress c.physical (s.obtained.length % c.slots + 1) }
      else s := by
  have hlt := Nat.mod_lt s.obtained.length hc.slots_pos
  have hindex : (s.dequeue - c.physical).toNat / kTrbBytes = s.obtained.length % c.slots := by
    rw [hd]
    refine index_trbAddress _ ?_
    have := hc.slots_succ
    have := hc.small
    omega
  have hready := h.handed.ready_iff hc.slots_pos
  unfold consume
  simp only [hindex]
  rw [if_neg (fun hl => absurd hl.1 (Nat.ne_of_lt hlt)), hcycle]
  by_cases hlt' : s.obtained.length < s.published
  · rw [if_neg (not_not.mpr (hready.mpr hlt')), if_pos hlt', hd, trbAddress_succ]
  · rw [if_pos (fun hb => hlt' (hready.mp hb)), if_neg hlt']

/-- On the link the consumer goes to the first slot, unless it waits for the cycle bit. -/
theorem consume_link (hc : c.Good) (h : Streams c s) (hon : s.OnLink c) :
    s.consume c = if c.waits = true ∧ (s.trbs c.slots).cycle ≠ s.consumerCycle then s
      else { s with dequeue := c.physical, consumerCycle := !s.consumerCycle } := by
  have hindex : (s.dequeue - c.physical).toNat / kTrbBytes = c.slots := by
    rw [hon]
    refine index_trbAddress _ ?_
    have := hc.small
    omega
  unfold consume
  simp only [hindex]
  rw [if_pos ⟨rfl, h.link.isLink⟩, h.link.pointer, if_pos h.link.toggles]

theorem streams_take (hc : c.Good) (h : Streams c s)
    (hd : s.dequeue = trbAddress c.physical (s.obtained.length % c.slots))
    (hcycle : s.consumerCycle = lap c.slots s.obtained.length)
    (hlt : s.obtained.length < s.published) :
    Streams c { s with
      obtained := s.obtained ++ [(s.trbs (s.obtained.length % c.slots), s.dequeue)]
      dequeue := trbAddress c.physical (s.obtained.length % c.slots + 1) } := by
  have hle : s.published ≤ s.enqueued.length := by
    unfold published
    split <;> omega
  have hbound := h.bound
  have hheld := h.handed.held s.obtained.length le_rfl hlt
  obtain ⟨p, hp⟩ : ∃ p, s.enqueued[s.obtained.length]? = some p :=
    ⟨_, List.getElem?_eq_getElem (by omega)⟩
  have hclean : p.1.clean = (s.trbs (s.obtained.length % c.slots)).fields := by
    rw [List.getElem?_map, hp] at hheld
    exact Option.some.inj hheld
  refine ⟨?_, ?_, h.ring, h.addresses, ?_, fun hne => ?_, h.link, h.linkBit, h.linkPending, ?_⟩
  · rw [List.length_append, List.length_singleton]
    exact h.handed.take hlt
  · simp only [List.length_append, List.length_singleton]
    omega
  · simp only [List.map_append, List.map_singleton, List.length_append, List.length_singleton,
      List.take_add_one, hp, Option.toList_some]
    rw [h.obtained, hclean, hd, h.addresses _ p hp]
  · obtain ⟨entry, hw⟩ := h.writing hne
    exact ⟨entry, hw.slot, hw.stage, hw.finishes, hw.marked, hw.newest⟩
  · unfold Reading OnLink
    simp only [List.length_append, List.length_singleton]
    rcases succ_cases hc.slots_pos s.obtained.length with ⟨-, hmod, hlap⟩ | ⟨hlast, hmod, hlap⟩
    · rw [hmod, hlap]
      exact Or.inl ⟨rfl, hcycle⟩
    · refine Or.inr ⟨by rw [hlast]; rfl, hmod, by omega, ?_, fun _ => by omega⟩
      rw [hlap, Bool.not_not]
      exact hcycle

theorem streams_follow (h : Streams c s) (hmod : s.obtained.length % c.slots = 0)
    (hcycle : s.consumerCycle = !lap c.slots s.obtained.length) :
    Streams c { s with dequeue := c.physical, consumerCycle := !s.consumerCycle } := by
  refine ⟨h.handed, h.bound, h.ring, h.addresses, h.obtained, fun hne => ?_, h.link, h.linkBit,
    h.linkPending, Or.inl ⟨?_, ?_⟩⟩
  · obtain ⟨entry, hw⟩ := h.writing hne
    exact ⟨entry, hw.slot, hw.stage, hw.finishes, hw.marked, hw.newest⟩
  · rw [hmod, trbAddress_zero]
  · simp [hcycle]

theorem streams_consume (hc : c.Good) (h : Streams c s) : Streams c (s.consume c) := by
  rcases h.reading with ⟨hd, hcycle⟩ | ⟨hon, hmod, -, hcycle, -⟩
  · rw [consume_slot hc h hd hcycle]
    split
    · exact streams_take hc h hd hcycle ‹_›
    · exact h
  · rw [consume_link hc h hon]
    split
    · exact h
    · exact streams_follow h hmod hcycle

/-! ## Whole runs -/

theorem streams_store (hc : c.Good) (h : Streams c s) : Streams c (s.step c .store) := by
  unfold step
  dsimp only
  split
  · rename_i first rest hp
    cases rest with
    | nil => exact streams_publish hc h hp
    | cons next rest => exact streams_prepare hc h hp
  · rename_i b hp hl
    exact streams_link hc h hp hl
  · exact h

theorem streams_run (hc : c.Good) (h : Streams c s) (actions : List CommandAction)
    (hallowed : Allowed (Room c) c s actions) : Streams c (s.run c actions) := by
  induction actions generalizing s with
  | nil => exact h
  | cons action actions ih =>
    cases action with
    | enqueue trb => exact ih (streams_enqueue hc h hallowed.1 trb) hallowed.2
    | store => exact ih (streams_store hc h) hallowed
    | consume => exact ih (streams_consume hc h) hallowed

theorem consume_obtained_le (c : Setup) (s : CommandSystem) :
    s.obtained.length ≤ (s.consume c).obtained.length := by
  unfold consume
  dsimp only
  split
  · split <;> exact le_rfl
  · split
    · exact le_rfl
    · simp

/-- While no call is in progress, an outstanding command is taken within two looks: one may be
needed for the link. -/
theorem consume_progress (hc : c.Good) (h : Streams c s) (hidle : s.Idle)
    (hlt : s.obtained.length < s.enqueued.length) :
    s.obtained.length < ((s.consume c).consume c).obtained.length := by
  have hpublished : s.published = s.enqueued.length := if_pos hidle.1
  have htake : ∀ {t : CommandSystem}, Streams c t →
      t.dequeue = trbAddress c.physical (t.obtained.length % c.slots) →
      t.consumerCycle = lap c.slots t.obtained.length → t.obtained.length < t.published →
      (t.consume c).obtained.length = t.obtained.length + 1 := by
    intro t ht hd hcycle hlt
    rw [consume_slot hc ht hd hcycle, if_pos hlt]
    simp
  rcases h.reading with ⟨hd, hcycle⟩ | ⟨hon, hmod, ho, hcycle, hwaits⟩
  · have hone := htake h hd hcycle (by omega)
    have hmore := consume_obtained_le c (s.consume c)
    omega
  · have hmatch : ¬ (c.waits = true ∧ (s.trbs c.slots).cycle ≠ s.consumerCycle) := by
      rintro ⟨hw, hne⟩
      have hroom := hwaits hw
      have hslots : c.slots ≤ s.obtained.length := Nat.le_of_dvd ho (Nat.dvd_of_mod_eq_zero hmod)
      refine hne ((h.linkBit hidle.2 (by omega)).trans ?_)
      rw [hcycle]
      -- The driver is in the lap that the link leads to.
      rcases same_or_next_lap hc.slots_pos hlt hroom.le with ⟨hlap, -⟩ | ⟨-, hle⟩
      · rw [hlap]
      · exact absurd (by omega) (mod_ne hlt hroom)
    have hfollow := consume_link hc h hon
    rw [if_neg hmatch] at hfollow
    have hnext := streams_follow h hmod hcycle
    rw [← hfollow] at hnext
    have hsame : (s.consume c).obtained = s.obtained ∧ (s.consume c).published = s.published ∧
        (s.consume c).dequeue = c.physical ∧ (s.consume c).consumerCycle = !s.consumerCycle := by
      rw [hfollow]
      exact ⟨rfl, rfl, rfl, rfl⟩
    have htwo := htake hnext (by rw [hsame.1, hsame.2.2.1, hmod, trbAddress_zero])
      (by rw [hsame.1, hsame.2.2.2, hcycle, Bool.not_not]) (by rw [hsame.1, hsame.2.1]; omega)
    rw [htwo, hsame.1]
    omega

/-- Over every run of calls, stores and looks of the consumer in which each call finds room, the
consumer takes exactly the enqueued commands in order, each from the address its call returned.
Every call is accepted, and while none is in progress an outstanding command is taken within two
looks. -/
theorem commands_obtained {trbs trbs' : Trbs} {ring : CommandRingInfo} (hbytes : c.bytes < 2 ^ 32)
    (hinit : initializeCommandRing trbs c.bytes c.physical = some (trbs', ring))
    (actions : List CommandAction) (hallowed : Allowed (Room c) c (start c trbs' ring) actions) :
    let s := (start c trbs' ring).run c actions
    s.obtained.map (fun p => (p.1.fields, p.2)) =
        (s.enqueued.take s.obtained.length).map (fun p => (p.1.clean, p.2)) ∧
      (∀ trb, (enqueueCommandTrb s.trbs c.bytes c.physical s.ring trb).isSome = true) ∧
      (s.Idle → s.obtained.length < s.enqueued.length →
        s.obtained.length < ((s.consume c).consume c).obtained.length) := by
  intro s
  obtain ⟨hc, rfl, hlink, hzero⟩ := initializeCommandRing_some hbytes hinit
  have h : Streams c s := streams_run hc (streams_start hc hlink hzero) actions hallowed
  refine ⟨h.obtained, fun trb => ?_, consume_progress hc h⟩
  unfold enqueueCommandTrb
  rw [h.ring, beginEnqueue_at hc]
  rfl

/-- One call without interruption. -/
def wholeCall (trb : TrbFields) : List CommandAction :=
  [.enqueue trb, .store, .store, .store, .store, .store]

def command (k : Nat) : TrbFields := ⟨BitVec.ofNat 64 (k * 0x1000), 0#32, 0x5C00#32⟩

/-- The ring memory after initialisation. -/
def freshTrbs (c : Setup) : Trbs :=
  ((initializeCommandRing (fun _ => Trb.zero) c.bytes c.physical).map (·.1)).getD fun _ => Trb.zero

/-- A ring of three blocks with a consumer that waits for the link. -/
def threeBlocks : Setup := ⟨48, 0x1000#64, true⟩

/-- Three commands through two slots; the consumer looks twice where it meets the link. -/
def threeCommands : List CommandAction :=
  wholeCall (command 1) ++ wholeCall (command 2) ++ [.consume, .consume, .consume] ++
    wholeCall (command 3) ++ [.consume]

theorem commands_obtained_three :
    let s := (start threeBlocks (freshTrbs threeBlocks) ⟨3, 0, true⟩).run threeBlocks threeCommands
    Allowed (Room threeBlocks) threeBlocks
        (start threeBlocks (freshTrbs threeBlocks) ⟨3, 0, true⟩) threeCommands ∧
      s.obtained.length = 3 ∧
      s.obtained.map (fun p => (p.1.fields, p.2)) =
        (s.enqueued.take s.obtained.length).map (fun p => (p.1.clean, p.2)) := by
  intro s
  have hallowed : Allowed (Room threeBlocks) threeBlocks
      (start threeBlocks (freshTrbs threeBlocks) ⟨3, 0, true⟩) threeCommands := by decide +kernel
  have hinit : initializeCommandRing (fun _ => Trb.zero) threeBlocks.bytes threeBlocks.physical =
      some (freshTrbs threeBlocks, ⟨3, 0, true⟩) := rfl
  exact ⟨hallowed, by decide +kernel,
    (commands_obtained (by decide) hinit threeCommands hallowed).1⟩

/-- A ring of two blocks, one of them the link. -/
def twoBlocks : Setup := ⟨32, 0x1000#64, true⟩

/-- The consumer takes the first command and stands on the link; the next call fills the only
slot and flips the link's cycle bit a second time. -/
def overtakenLink : List CommandAction :=
  wholeCall (command 1) ++ [.consume] ++ wholeCall (command 2)

/-- There is never more than one command outstanding, but the consumer stays on the link and never
takes the second command. -/
theorem overtaken_link_blocks :
    let s := (start twoBlocks (freshTrbs twoBlocks) ⟨2, 0, true⟩).run twoBlocks overtakenLink
    Allowed (Unfilled twoBlocks) twoBlocks (start twoBlocks (freshTrbs twoBlocks) ⟨2, 0, true⟩)
        overtakenLink ∧
      s.Idle ∧ s.enqueued.length = 2 ∧
      ∀ k, ((CommandSystem.consume twoBlocks)^[k] s).obtained.length = 1 := by
  intro s
  have hfixed : s.consume twoBlocks = s := by
    unfold consume
    dsimp only
    rw [if_pos (by decide +kernel), if_pos (by decide +kernel)]
  refine ⟨by decide +kernel, by decide +kernel, by decide +kernel, fun k => ?_⟩
  rw [Function.iterate_fixed hfixed]
  decide +kernel

end CommandSystem

end Os1.Xhci
