import Os1.Lib.Along
import Os1.Virtio.Virtqueue

/-! Runs of a virtio queue between its driver and a device, of any length. -/
namespace Os1.Virtio

open CounterRing

/-- `virtqueue_allocate`; `memory` tells whether there was memory for the rings, which is zero. -/
def virtqueueAllocate (size : Nat) (memory : Bool) : Option Virtqueue :=
  if size = 0 ∨ kVirtqueueMaxSize < size then none
  else if !memory then none
  else some { size }

/-- The queue and the device's place in the available ring. The lists are history: the heads that
were submitted and obtained, and the elements that were returned and consumed. -/
structure Exchange where
  queue : Virtqueue
  deviceIdx : Nat := 0
  submitted : List Nat := []
  obtained : List Nat := []
  returned : List VirtqUsedElem := []
  consumed : List VirtqUsedElem := []

inductive QueueAction where
  | submit (head : Nat)
  | read
  | push (element : VirtqUsedElem)
  | consume
  deriving DecidableEq, Repr

namespace Exchange

def step (s : Exchange) : QueueAction → Exchange
  | .submit head =>
    match virtqueueSubmit s.queue head with
    | none => s
    | some queue => { s with queue := queue, submitted := s.submitted ++ [head] }
  | .read =>
    match readAvailable s.queue s.deviceIdx with
    | none => s
    | some (head, next) => { s with deviceIdx := next, obtained := s.obtained ++ [head] }
  | .push element =>
    { s with queue := pushUsed s.queue element, returned := s.returned ++ [element] }
  | .consume =>
    match virtqueueConsumeUsed s.queue with
    | none => s
    | some (element, queue) => { s with queue := queue, consumed := s.consumed ++ [element] }

/-- No more heads are outstanding than the queue has entries, and the device returns no more than
it has obtained. -/
def Allowed (s : Exchange) : QueueAction → Prop
  | .submit head =>
    head < s.queue.size → s.submitted.length < s.consumed.length + s.queue.size
  | .push _ => s.returned.length < s.obtained.length
  | .read | .consume => True

instance (s : Exchange) : DecidablePred s.Allowed
  | .submit _ => inferInstanceAs (Decidable (_ → _))
  | .push _ => inferInstanceAs (Decidable (_ < _))
  | .read | .consume => isTrue trivial

/-- The device obtains the heads in their order, and the driver the elements. -/
structure InOrder (s : Exchange) : Prop where
  obtained : s.obtained <+: s.submitted
  consumed : s.consumed <+: s.returned
  read : readAvailable s.queue s.deviceIdx = none ↔ s.obtained = s.submitted
  consume : virtqueueConsumeUsed s.queue = none ↔ s.consumed = s.returned

variable {s : Exchange} {size : Nat} {unread : List Nat} {pending : List VirtqUsedElem}

/-! ## Sizes that divide the turn of the indices -/

/-- What is under way in the two rings. -/
structure Flow (size : Nat) (s : Exchange) (unread : List Nat) (pending : List VirtqUsedElem) :
    Prop where
  entries : s.queue.size = size
  available : Available s.queue s.deviceIdx unread
  used : Used s.queue pending
  submitted : s.submitted = s.obtained ++ unread
  returned : s.returned = s.consumed ++ pending
  owned : s.returned.length ≤ s.obtained.length
  room : s.submitted.length ≤ s.consumed.length + size

theorem Flow.lengths (h : Flow size s unread pending) :
    unread.length ≤ size ∧ pending.length ≤ size := by
  have h1 := congrArg List.length h.submitted
  have h2 := congrArg List.length h.returned
  have h3 := h.owned
  have h4 := h.room
  simp only [List.length_append] at h1 h2
  omega

theorem Flow.inOrder (h : Flow size s unread pending) (hsize : size ≤ kVirtqueueMaxSize) :
    InOrder s := by
  obtain ⟨hunread, hpending⟩ := h.lengths
  have hmax : kVirtqueueMaxSize < kIndexWrap := by decide
  refine ⟨⟨unread, h.submitted.symm⟩, ⟨pending, h.returned.symm⟩, ?_, ?_⟩
  · cases unread with
    | nil => simp [readAvailable_nil h.available, h.submitted]
    | cons head rest =>
      simp only [List.length_cons] at hunread
      obtain ⟨next, hread, -⟩ := readAvailable_cons h.available (by omega)
      simp [hread, h.submitted]
  · cases pending with
    | nil => simp [virtqueueConsumeUsed_nil h.used, h.returned]
    | cons element rest =>
      simp only [List.length_cons] at hpending
      obtain ⟨last, hconsume, -⟩ := virtqueueConsumeUsed_cons h.used (by omega)
      simp [hconsume, h.returned]

theorem Flow.step (h : Flow size s unread pending) (hdvd : size ∣ kIndexWrap)
    (hsize : size ≤ kVirtqueueMaxSize) {a : QueueAction} (ha : Allowed s a) :
    ∃ unread pending, Flow size (s.step a) unread pending := by
  obtain ⟨hunread, hpending⟩ := h.lengths
  have hmax : kVirtqueueMaxSize < kIndexWrap := by decide
  have hsubmitted := congrArg List.length h.submitted
  have hreturned := congrArg List.length h.returned
  simp only [List.length_append] at hsubmitted hreturned
  have howned := h.owned
  have hroom := h.room
  cases a with
  | submit head =>
    by_cases hhead : head < s.queue.size
    · have hlt := ha hhead
      rw [h.entries] at hlt
      have hfits : Fits kIndexWrap s.queue.size unread.length := by
        rw [h.entries]
        exact fits_of_dvd hdvd (by omega)
      obtain ⟨ring, idx, hsubmit, havailable⟩ := virtqueueSubmit_spec h.available hfits hhead
      refine ⟨unread ++ [head], pending, ?_⟩
      simp only [Exchange.step, hsubmit]
      refine ⟨h.entries, havailable, h.used, ?_, h.returned, howned, ?_⟩
      · simp [h.submitted]
      · simpa using Nat.succ_le_of_lt hlt
    · refine ⟨unread, pending, ?_⟩
      have hnone : virtqueueSubmit s.queue head = none := if_pos (Nat.le_of_not_lt hhead)
      simpa only [Exchange.step, hnone] using h
  | read =>
    cases unread with
    | nil =>
      refine ⟨[], pending, ?_⟩
      simpa only [Exchange.step, readAvailable_nil h.available] using h
    | cons head rest =>
      simp only [List.length_cons] at hunread
      obtain ⟨next, hread, havailable⟩ := readAvailable_cons h.available (by omega)
      refine ⟨rest, pending, ?_⟩
      simp only [Exchange.step, hread]
      refine ⟨h.entries, havailable, h.used, ?_, h.returned, ?_, hroom⟩
      · simp [h.submitted]
      · simp only [List.length_append, List.length_singleton]
        omega
  | push element =>
    have hlt : s.returned.length < s.obtained.length := ha
    have hfits : Fits kIndexWrap s.queue.size pending.length := by
      rw [h.entries]
      exact fits_of_dvd hdvd (by omega)
    refine ⟨unread, pending ++ [element], ?_⟩
    refine ⟨h.entries, h.available, pushUsed_used h.used hfits element, h.submitted, ?_, ?_, hroom⟩
    · simp [Exchange.step, h.returned]
    · simpa [Exchange.step] using Nat.succ_le_of_lt hlt
  | consume =>
    cases pending with
    | nil =>
      refine ⟨unread, [], ?_⟩
      simpa only [Exchange.step, virtqueueConsumeUsed_nil h.used] using h
    | cons element rest =>
      simp only [List.length_cons] at hpending
      obtain ⟨last, hconsume, hused⟩ := virtqueueConsumeUsed_cons h.used (by omega)
      refine ⟨unread, rest, ?_⟩
      simp only [Exchange.step, hconsume]
      refine ⟨h.entries, h.available, hused, h.submitted, ?_, howned, ?_⟩
      · simp [h.returned]
      · simp only [List.length_append, List.length_singleton]
        omega

/-- Along every run a queue whose size divides the turn of the indices keeps the order. -/
theorem run_inOrder (hdvd : size ∣ kIndexWrap) (hsize : size ≤ kVirtqueueMaxSize)
    {actions : List QueueAction} (h : Along step Allowed { queue := { size } } actions) :
    InOrder (actions.foldl step { queue := { size } }) := by
  have hstart : Flow size { queue := { size } } [] [] :=
    ⟨rfl, ⟨0, rfl, rfl, trivial⟩, ⟨0, rfl, rfl, trivial⟩, rfl, rfl, Nat.le_refl _, Nat.zero_le _⟩
  have hrun := Along.invariant (fun s => ∃ unread pending, Flow size s unread pending)
    (fun s a hs ha => by
      obtain ⟨unread, pending, hflow⟩ := hs
      exact hflow.step hdvd hsize ha)
    ⟨[], [], hstart⟩ h actions.length
  rw [List.take_length] at hrun
  obtain ⟨unread, pending, hflow⟩ := hrun
  exact hflow.inOrder hsize

/-! ## Other sizes -/

/-- One head is passed to the device and its element back. -/
def turn : List QueueAction := [.submit 0, .read, .push {}, .consume]

/-- `n` turns of a fresh queue. -/
structure Turned (size n : Nat) (s : Exchange) : Prop where
  entries : s.queue.size = size
  device : s.deviceIdx = n % kIndexWrap
  availIdx : s.queue.availIdx = n % kIndexWrap
  usedIdx : s.queue.usedIdx = n % kIndexWrap
  lastUsedIdx : s.queue.lastUsedIdx = n % kIndexWrap
  submitted : s.submitted = List.replicate n 0
  obtained : s.obtained = List.replicate n 0
  returned : s.returned.length = n
  consumed : s.consumed.length = n

theorem next_ne (n : Nat) : (n % kIndexWrap + 1) % kIndexWrap ≠ n % kIndexWrap := by
  rw [Nat.mod_add_mod]
  exact counter_ne Nat.one_pos (by decide)

theorem Turned.turn {n : Nat} (h : Turned size n s) (hsize : 0 < size) :
    Along Exchange.step Allowed s turn ∧ Turned size (n + 1) (turn.foldl Exchange.step s) := by
  obtain ⟨queue, deviceIdx, submitted, obtained, returned, consumed⟩ := s
  obtain ⟨size, desc, availIdx, availRing, usedIdx, usedRing, lastUsedIdx⟩ := queue
  obtain ⟨rfl, rfl, rfl, rfl, rfl, rfl, rfl, hreturned, hconsumed⟩ := h
  dsimp only at hsize hreturned hconsumed
  have hnot : ¬ size ≤ 0 := Nat.not_le_of_lt hsize
  have hne := next_ne n
  have hread : ¬ n % kIndexWrap = (n % kIndexWrap + 1) % kIndexWrap := fun h => hne h.symm
  have hnext : (n % kIndexWrap + 1) % kIndexWrap = (n + 1) % kIndexWrap := Nat.mod_add_mod ..
  simp only [Exchange.turn, Along, List.foldl, Exchange.step, virtqueueSubmit, readAvailable,
    pushUsed, virtqueueConsumeUsed, if_neg hnot, if_neg hne, if_neg hread,
    Function.update_self]
  refine ⟨⟨?_, trivial, ?_, trivial, trivial⟩, ?_⟩
  · simp [Allowed, hconsumed]
  · simp [Allowed, hreturned]
  · constructor
    all_goals simp [hnext, hreturned, hconsumed, List.replicate_succ']

theorem turns {n : Nat} (hsize : 0 < size) :
    ∃ actions, Along step Allowed { queue := { size } } actions ∧
      Turned size n (actions.foldl step { queue := { size } }) := by
  induction n with
  | zero => exact ⟨[], trivial, rfl, rfl, rfl, rfl, rfl, rfl, rfl, rfl, rfl⟩
  | succ n ih =>
    obtain ⟨actions, halong, hturned⟩ := ih
    obtain ⟨hmore, hnext⟩ := hturned.turn hsize
    refine ⟨actions ++ turn, halong.append hmore, ?_⟩
    rwa [List.foldl_append]

/-- Heads that are submitted with nothing between them. -/
theorem submits {n : Nat} (heads : List Nat) (hidx : s.queue.availIdx = n % kIndexWrap)
    (hheads : ∀ head ∈ heads, head < s.queue.size)
    (hroom : s.submitted.length + heads.length ≤ s.consumed.length + s.queue.size) :
    Along step Allowed s (heads.map .submit) ∧
      ∃ ring, (heads.map .submit).foldl step s =
        { s with
          queue := { s.queue with availIdx := (n + heads.length) % kIndexWrap, availRing := ring }
          submitted := s.submitted ++ heads } := by
  induction heads generalizing s n with
  | nil =>
    refine ⟨trivial, s.queue.availRing, ?_⟩
    simp only [List.map_nil, List.foldl_nil, List.length_nil, Nat.add_zero, List.append_nil]
    rw [← hidx]
  | cons head heads ih =>
    have hhead : head < s.queue.size := hheads head List.mem_cons_self
    simp only [List.length_cons] at hroom
    have hstep : s.step (.submit head) =
        { s with
          queue := { s.queue with
            availRing := Function.update s.queue.availRing (s.queue.availIdx % s.queue.size) head
            availIdx := (n + 1) % kIndexWrap }
          submitted := s.submitted ++ [head] } := by
      simp [step, virtqueueSubmit, Nat.not_le_of_lt hhead, hidx, Nat.mod_add_mod]
    obtain ⟨halong, ring, hrun⟩ := ih (s := s.step (.submit head)) (n := n + 1)
      (by rw [hstep]) (by rw [hstep]; exact fun h hmem => hheads h (List.mem_cons_of_mem _ hmem))
      (by rw [hstep]; simp only [List.length_append, List.length_singleton]; omega)
    refine ⟨⟨fun _ => by omega, halong⟩, ring, ?_⟩
    simp only [List.map_cons, List.foldl_cons, hrun]
    simp [hstep, Nat.add_assoc, Nat.add_comm 1]

/-- Where the size does not divide the turn, the heads submitted over the wrap of the index meet in
one entry, and the device obtains the last of them for the first. -/
theorem overwritten (hpos : 0 < size) (hsize : size ≤ kVirtqueueMaxSize)
    (hdvd : ¬ size ∣ kIndexWrap) :
    ∃ actions, Along step Allowed { queue := { size } } actions ∧
      ¬ InOrder (actions.foldl step { queue := { size } }) := by
  -- the last place before the wrap that has the same entry as the first place after it
  obtain ⟨n, hn⟩ : ∃ n, n = kIndexWrap - kIndexWrap % size := ⟨_, rfl⟩
  have hentry : n % size = 0 := Nat.mod_eq_zero_of_dvd (hn ▸ Nat.dvd_sub_mod _)
  have hmax : kVirtqueueMaxSize + 1 < kIndexWrap := by decide
  have hrest : 0 < kIndexWrap % size := Nat.pos_of_ne_zero fun h => hdvd (Nat.dvd_of_mod_eq_zero h)
  have hlt : kIndexWrap % size < size := Nat.mod_lt _ hpos
  obtain ⟨r, hr⟩ : ∃ r, n + (r + 1) = kIndexWrap := ⟨kIndexWrap - n - 1, by omega⟩
  obtain ⟨turning, halong, hturned⟩ := turns (n := n) hpos
  generalize hs : turning.foldl step { queue := { size } } = s at hturned
  obtain ⟨hsubmits, ring, hrun⟩ := submits (0 :: List.replicate r 1) hturned.availIdx
    (by
      intro head hmem
      rw [hturned.entries]
      simp only [List.mem_cons, List.mem_replicate] at hmem
      omega)
    (by
      simp only [hturned.submitted, hturned.consumed, hturned.entries, List.length_cons,
        List.length_replicate]
      omega)
  have hidx : (n + (0 :: List.replicate r 1).length) % kIndexWrap = 0 := by
    simp [hr]
  have hdevice : s.deviceIdx = n := hturned.device.trans (Nat.mod_eq_of_lt (by omega))
  rw [hidx] at hrun
  have hlast : ([.submit 1, .read] : List QueueAction).foldl step
      { s with
        queue := { s.queue with availIdx := 0, availRing := ring }
        submitted := s.submitted ++ 0 :: List.replicate r 1 } =
      { s with
        queue := { s.queue with availIdx := 1, availRing := Function.update ring 0 1 }
        deviceIdx := (n + 1) % kIndexWrap
        submitted := s.submitted ++ 0 :: List.replicate r 1 ++ [1]
        obtained := s.obtained ++ [1] } := by
    have hone : ¬ size ≤ 1 := by omega
    have hunread : ¬ n = 1 := by omega
    have hnext : 1 % kIndexWrap = 1 := by decide
    simp [step, virtqueueSubmit, readAvailable, hturned.entries, hone, hdevice, hentry, hunread,
      hnext]
  refine ⟨turning ++ ((0 :: List.replicate r 1).map .submit ++ [.submit 1, .read]), ?_, ?_⟩
  · refine halong.append ?_
    rw [hs]
    refine hsubmits.append ?_
    rw [hrun]
    refine ⟨fun _ => ?_, trivial, trivial⟩
    simp only [hturned.submitted, hturned.consumed, hturned.entries, List.length_append,
      List.length_cons, List.length_replicate]
    omega
  · intro horder
    rw [List.foldl_append, List.foldl_append, hs, hrun, hlast] at horder
    have hprefix := horder.obtained
    simp [hturned.submitted, hturned.obtained, List.prefix_append_right_inj] at hprefix

end Exchange

theorem virtqueueAllocate_eq_some {size : Nat} {memory : Bool} {queue : Virtqueue} :
    virtqueueAllocate size memory = some queue ↔
      (0 < size ∧ size ≤ kVirtqueueMaxSize) ∧ memory = true ∧ { size } = queue := by
  unfold virtqueueAllocate
  split
  · simp
    omega
  · cases memory <;> simp
    omega

open Exchange

/-- An allocated queue keeps the order of heads and elements along every run exactly when its size
divides the turn of the indices. -/
theorem queue_in_order_iff {size : Nat} {memory : Bool} {queue : Virtqueue}
    (h : virtqueueAllocate size memory = some queue) :
    (∀ actions, Along step Allowed { queue } actions →
        InOrder (actions.foldl step { queue })) ↔ size ∣ kIndexWrap := by
  obtain ⟨⟨hpos, hsize⟩, -, rfl⟩ := virtqueueAllocate_eq_some.mp h
  constructor
  · intro horder
    by_contra hdvd
    obtain ⟨actions, halong, hbad⟩ := overwritten hpos hsize hdvd
    exact hbad (horder actions halong)
  · exact fun hdvd actions halong => run_inOrder hdvd hsize halong

theorem eight_entries_in_order :
    virtqueueAllocate 8 true = some { size := 8 } ∧
      InOrder ([.submit 3, .submit 5, .read, .push ⟨3, 512⟩, .consume].foldl step
        { queue := { size := 8 } }) := by
  have hqueue : virtqueueAllocate 8 true = some { size := 8 } := rfl
  refine ⟨hqueue, (queue_in_order_iff hqueue).mpr (by decide) _ ?_⟩
  exact ⟨by decide, by decide, trivial, by decide, trivial, trivial⟩

/-- A queue of three entries is accepted, and passes a wrong head over the wrap of its index. -/
theorem three_entries_overwritten :
    virtqueueAllocate 3 true = some { size := 3 } ∧
      ∃ actions, Along step Allowed { queue := { size := 3 } } actions ∧
        ¬ InOrder (actions.foldl step { queue := { size := 3 } }) := by
  exact ⟨rfl, overwritten (by decide) (by decide) (by decide)⟩

end Os1.Virtio
