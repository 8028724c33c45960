import Os1.Lib.CounterRing

/-! The queue shared by a virtio driver and its device. -/
namespace Os1.Virtio

open CounterRing

def kVirtqueueMaxSize : Nat := 8
def kVirtqDescFlagNext : BitVec 16 := 1#16
def kVirtqDescFlagWrite : BitVec 16 := 2#16

structure VirtqDesc where
  addr : Nat := 0
  len : Nat := 0
  flags : BitVec 16 := 0#16
  next : Nat := 0
  deriving DecidableEq, Repr

structure VirtqUsedElem where
  id : Nat := 0
  len : Nat := 0
  deriving DecidableEq, Repr

/-- Indices run modulo 2^16. -/
def kIndexWrap : Nat := 65536

/-- The rings in the memory of an allocated queue, and the driver's place in the used ring. -/
structure Virtqueue where
  size : Nat
  desc : Nat → VirtqDesc := fun _ => {}
  availIdx : Nat := 0
  availRing : Nat → Nat := fun _ => 0
  usedIdx : Nat := 0
  usedRing : Nat → VirtqUsedElem := fun _ => {}
  lastUsedIdx : Nat := 0

/-- `virtqueue_submit` -/
def virtqueueSubmit (queue : Virtqueue) (headDescriptor : Nat) : Option Virtqueue :=
  if queue.size ≤ headDescriptor then none
  else
    some { queue with
      availRing := Function.update queue.availRing (queue.availIdx % queue.size) headDescriptor
      availIdx := (queue.availIdx + 1) % kIndexWrap }

/-- `virtqueue_consume_used` -/
def virtqueueConsumeUsed (queue : Virtqueue) : Option (VirtqUsedElem × Virtqueue) :=
  if queue.usedIdx = queue.lastUsedIdx then none
  else
    some (queue.usedRing (queue.lastUsedIdx % queue.size),
      { queue with lastUsedIdx := (queue.lastUsedIdx + 1) % kIndexWrap })

/-- The device reads the next head, if there is one, and advances its index. -/
def readAvailable (queue : Virtqueue) (deviceIdx : Nat) : Option (Nat × Nat) :=
  if deviceIdx = queue.availIdx then none
  else some (queue.availRing (deviceIdx % queue.size), (deviceIdx + 1) % kIndexWrap)

/-- The device returns a chain. -/
def pushUsed (queue : Virtqueue) (element : VirtqUsedElem) : Virtqueue :=
  { queue with
    usedRing := Function.update queue.usedRing (queue.usedIdx % queue.size) element
    usedIdx := (queue.usedIdx + 1) % kIndexWrap }

/-- The descriptors of a chain, at most `fuel` of them. -/
def descriptorChain (desc : Nat → VirtqDesc) : Nat → Nat → List Nat
  | 0, _ => []
  | fuel + 1, d =>
    d :: if (desc d).flags &&& kVirtqDescFlagNext ≠ 0#16 then
      descriptorChain desc fuel (desc d).next
    else []

/-! ## What the rings hold -/

/-- The heads that the driver has submitted and the device has not read. -/
def Available (queue : Virtqueue) (deviceIdx : Nat) (heads : List Nat) : Prop :=
  ∃ first, deviceIdx = first % kIndexWrap ∧
    queue.availIdx = (first + heads.length) % kIndexWrap ∧
    Holds queue.availRing kIndexWrap queue.size first heads

/-- The elements that the device has returned and the driver has not consumed. -/
def Used (queue : Virtqueue) (elements : List VirtqUsedElem) : Prop :=
  ∃ first, queue.lastUsedIdx = first % kIndexWrap ∧
    queue.usedIdx = (first + elements.length) % kIndexWrap ∧
    Holds queue.usedRing kIndexWrap queue.size first elements

variable {queue queue' : Virtqueue} {deviceIdx head : Nat} {heads : List Nat}
  {element : VirtqUsedElem} {elements : List VirtqUsedElem}

theorem virtqueueSubmit_spec (h : Available queue deviceIdx heads)
    (hfits : Fits kIndexWrap queue.size heads.length) (hhead : head < queue.size) :
    ∃ ring idx, virtqueueSubmit queue head =
        some { queue with availRing := ring, availIdx := idx } ∧
      Available { queue with availRing := ring, availIdx := idx } deviceIdx (heads ++ [head]) := by
  obtain ⟨first, hdevice, hidx, hholds⟩ := h
  refine ⟨_, _, if_neg (Nat.not_le_of_lt hhead), first, hdevice, ?_, ?_⟩
  · dsimp only
    rw [hidx, Nat.mod_add_mod, List.length_append, List.length_singleton, Nat.add_assoc]
  · dsimp only
    rw [hidx]
    exact hholds.push hfits head

theorem readAvailable_nil (h : Available queue deviceIdx []) :
    readAvailable queue deviceIdx = none := by
  obtain ⟨first, hdevice, hidx, -⟩ := h
  exact if_pos (hdevice.trans hidx.symm)

theorem readAvailable_cons (h : Available queue deviceIdx (head :: heads))
    (hlen : heads.length + 1 < kIndexWrap) :
    ∃ next, readAvailable queue deviceIdx = some (head, next) ∧ Available queue next heads := by
  obtain ⟨first, hdevice, hidx, hhead, hholds⟩ := h
  refine ⟨(deviceIdx + 1) % kIndexWrap, ?_, first + 1, ?_, ?_, hholds⟩
  · have hne : deviceIdx ≠ queue.availIdx := by
      rw [hdevice, hidx]
      exact (counter_ne (Nat.succ_pos _) hlen).symm
    rw [readAvailable, if_neg hne, ← hhead, hdevice]
    rfl
  · rw [hdevice, Nat.mod_add_mod]
  · rw [hidx, List.length_cons, Nat.add_assoc, Nat.add_comm 1]

theorem pushUsed_used (h : Used queue elements)
    (hfits : Fits kIndexWrap queue.size elements.length) (element : VirtqUsedElem) :
    Used (pushUsed queue element) (elements ++ [element]) := by
  obtain ⟨first, hlast, hidx, hholds⟩ := h
  refine ⟨first, hlast, ?_, ?_⟩
  · simp only [pushUsed, hidx, Nat.mod_add_mod, List.length_append, List.length_singleton,
      Nat.add_assoc]
  · simp only [pushUsed, hidx]
    exact hholds.push hfits element

theorem virtqueueConsumeUsed_nil (h : Used queue []) : virtqueueConsumeUsed queue = none := by
  obtain ⟨first, hlast, hidx, -⟩ := h
  exact if_pos (hidx.trans hlast.symm)

theorem virtqueueConsumeUsed_cons (h : Used queue (element :: elements))
    (hlen : elements.length + 1 < kIndexWrap) :
    ∃ last, virtqueueConsumeUsed queue = some (element, { queue with lastUsedIdx := last }) ∧
      Used { queue with lastUsedIdx := last } elements := by
  obtain ⟨first, hlast, hidx, hhead, hholds⟩ := h
  refine ⟨(queue.lastUsedIdx + 1) % kIndexWrap, ?_, first + 1, ?_, ?_, hholds⟩
  · have hne : queue.usedIdx ≠ queue.lastUsedIdx := by
      rw [hlast, hidx]
      exact counter_ne (Nat.succ_pos _) hlen
    rw [virtqueueConsumeUsed, if_neg hne, ← hhead, hlast]
    rfl
  · dsimp only
    rw [hlast, Nat.mod_add_mod]
  · dsimp only
    rw [hidx, List.length_cons, Nat.add_assoc, Nat.add_comm 1]

end Os1.Virtio
