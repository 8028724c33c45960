import Mathlib.Data.List.Perm.Subperm
import Mathlib.Tactic.IntervalCases
import Os1.Virtio.VirtioBlk

/-! Each chain in flight belongs to the slot and the call that submitted it. -/
namespace Os1.Virtio

open CounterRing

/-! ## Masks and chains -/

theorem virtioBlkDescriptorMask_bit {i : Nat} (hi : i < 3) (d : Nat) :
    (virtioBlkDescriptorMask (3 * i)).getLsbD d = decide (3 * i ≤ d ∧ d < 3 * i + 3) := by
  by_cases hd : d < 16
  · interval_cases i <;> interval_cases d <;> decide
  · rw [BitVec.getLsbD_of_ge _ _ (by omega)]
    exact (decide_eq_false (by omega)).symm

/-- The descriptors of a request are linked from the head on. -/
structure Linked (desc : Nat → VirtqDesc) (head : Nat) : Prop where
  first : (desc head).flags &&& kVirtqDescFlagNext ≠ 0#16 ∧ (desc head).next = head + 1
  second : (desc (head + 1)).flags &&& kVirtqDescFlagNext ≠ 0#16 ∧
    (desc (head + 1)).next = head + 2
  last : (desc (head + 2)).flags &&& kVirtqDescFlagNext = 0#16

theorem Linked.chain {desc : Nat → VirtqDesc} {head size : Nat} (h : Linked desc head)
    (hsize : 3 ≤ size) : descriptorChain desc size head = [head, head + 1, head + 2] := by
  obtain ⟨n, rfl⟩ := Nat.exists_eq_add_of_le' hsize
  simp [descriptorChain, h.first, h.second, h.last]

theorem Linked.congr {desc desc' : Nat → VirtqDesc} {head : Nat} (h : Linked desc head)
    (h0 : desc' head = desc head) (h1 : desc' (head + 1) = desc (head + 1))
    (h2 : desc' (head + 2) = desc (head + 2)) : Linked desc' head :=
  ⟨h0 ▸ h.first, h1 ▸ h.second, h2 ▸ h.last⟩

/-- One slot needs no gap in the ring, two need six cells: the index may wrap in between. -/
theorem fits_of_room {size n : Nat} (hsize : size ≤ 8) (hroom : n + 1 ≤ size / 3) :
    Fits kIndexWrap size n := by
  obtain rfl | rfl : n = 0 ∨ n = 1 := by omega
  · exact fits_zero
  · intro first k hk
    obtain rfl : k = 0 := by omega
    have hge : 6 ≤ size := by omega
    simp only [place, kIndexWrap]
    interval_cases size <;> omega

namespace BlkSystem

variable {s t : BlkSystem} {i d : Nat} {c : Chain}

/-- The chains that the driver has submitted and not seen returned. -/
def outstanding (s : BlkSystem) : List Chain := s.available ++ s.owned ++ s.returned

/-- The slots and the mask of descriptors in use agree. -/
structure SlotsSound (s : BlkSystem) : Prop where
  size : s.queue.size ≤ kVirtqueueMaxSize
  count : s.requestSlotCount = s.queue.size / 3
  head : ∀ i, (s.slots i).headDescriptor = 3 * i
  slotMask : ∀ i, (s.slots i).descriptorMask = virtioBlkDescriptorMask (3 * i)
  mask : ∀ d, s.descriptorInUseMask.getLsbD d ↔
    ∃ i < s.requestSlotCount, (s.slots i).active ∧ 3 * i ≤ d ∧ d < 3 * i + 3
  linked : ∀ i < s.requestSlotCount, (s.slots i).active → Linked s.queue.desc (3 * i)

/-- The slot of a chain is active for the call that submitted it. -/
def Holder (s : BlkSystem) (c : Chain) (i : Nat) : Prop :=
  i < s.requestSlotCount ∧ c.head = 3 * i ∧ (s.slots i).active ∧ s.slotCall i = c.call ∧
    (s.slots i).request = some (s.callRequest c.call)

/-- Chains in flight have different heads and different calls, and are in the rings in order. -/
structure FlightSound (s : BlkSystem) : Prop where
  held : ∀ c ∈ s.outstanding, ∃ i, s.Holder c i
  heads : (s.outstanding.map Chain.head).Nodup
  calls : (s.outstanding.map Chain.call).Nodup
  young : ∀ c ∈ s.outstanding, c.call < s.calls
  available : Available s.queue s.deviceIdx (s.available.map Chain.head)
  used : ∃ elements : List VirtqUsedElem,
    elements.map VirtqUsedElem.id = s.returned.map Chain.head ∧ Used s.queue elements

/-- Completions are of past calls, each once, and none of a chain in flight. -/
structure HistorySound (s : BlkSystem) : Prop where
  own : ∀ k ∈ s.completions, ∀ e, k.element = some e → e = k.call
  request : ∀ k ∈ s.completions, k.request = s.callRequest k.call
  once : (s.completions.map BlkCompletion.call).Nodup
  past : ∀ k ∈ s.completions, k.call < s.calls
  still : ∀ c ∈ s.outstanding, ∀ k ∈ s.completions, k.call ≠ c.call

structure Sound (s : BlkSystem) : Prop where
  slots : s.SlotsSound
  flight : s.FlightSound
  history : s.HistorySound

theorem SlotsSound.count_le (h : s.SlotsSound) : s.requestSlotCount ≤ 2 := by
  have := h.size
  rw [h.count]
  simp only [kVirtqueueMaxSize] at this
  omega

/-- Distinct slots stand for the chains in flight. -/
theorem FlightSound.length_le (h : s.FlightSound) : s.outstanding.length ≤ s.requestSlotCount := by
  have hsub : s.outstanding.map Chain.head ⊆
      (List.range s.requestSlotCount).map fun i => 3 * i := by
    intro x hx
    obtain ⟨c, hc, rfl⟩ := List.mem_map.mp hx
    obtain ⟨i, hi, hhead, -⟩ := h.held c hc
    exact List.mem_map.mpr ⟨i, List.mem_range.mpr hi, hhead.symm⟩
  simpa using (h.heads.subperm hsub).length_le

/-- A free slot leaves room for one more chain. -/
theorem FlightSound.length_lt (h : s.FlightSound) (hi : i < s.requestSlotCount)
    (hfree : (s.slots i).active = false) : s.outstanding.length < s.requestSlotCount := by
  have hsub : s.outstanding.map Chain.head ⊆
      ((List.range s.requestSlotCount).erase i).map fun i => 3 * i := by
    intro x hx
    obtain ⟨c, hc, rfl⟩ := List.mem_map.mp hx
    obtain ⟨j, hj, hhead, hactive, -⟩ := h.held c hc
    have hne : j ≠ i := by
      rintro rfl
      simp [hfree] at hactive
    exact List.mem_map.mpr ⟨j, (List.mem_erase_of_ne hne).mpr (List.mem_range.mpr hj),
      hhead.symm⟩
  have hle := (h.heads.subperm hsub).length_le
  rw [List.length_map, List.length_map, List.length_erase_of_mem (List.mem_range.mpr hi),
    List.length_range] at hle
  omega

theorem FlightSound.unheld (h : s.FlightSound) (hfree : (s.slots i).active = false) :
    3 * i ∉ s.outstanding.map Chain.head := by
  intro hmem
  obtain ⟨c, hc, hhead⟩ := List.mem_map.mp hmem
  obtain ⟨j, -, hhead', hactive, -⟩ := h.held c hc
  obtain rfl : j = i := by omega
  simp [hfree] at hactive

/-! ## Changes that touch no slot -/

/-- Only requests and the contents of buffers differ. -/
structure SameDriver (s t : BlkSystem) : Prop where
  slots : ∀ i, (t.slots i).active = (s.slots i).active ∧
    (t.slots i).headDescriptor = (s.slots i).headDescriptor ∧
    (t.slots i).descriptorMask = (s.slots i).descriptorMask ∧
    (t.slots i).request = (s.slots i).request
  count : t.requestSlotCount = s.requestSlotCount
  mask : t.descriptorInUseMask = s.descriptorInUseMask
  slotCall : t.slotCall = s.slotCall
  calls : t.calls = s.calls
  callRequest : t.callRequest = s.callRequest
  completions : t.completions = s.completions

theorem SameDriver.refl (s : BlkSystem) : SameDriver s s :=
  ⟨fun _ => ⟨rfl, rfl, rfl, rfl⟩, rfl, rfl, rfl, rfl, rfl, rfl⟩

theorem SameDriver.setRequest (s : BlkSystem) (request : Nat) (f : BlockRequest → BlockRequest) :
    SameDriver s (s.setRequest request f) :=
  ⟨fun _ => ⟨rfl, rfl, rfl, rfl⟩, rfl, rfl, rfl, rfl, rfl, rfl⟩

theorem SameDriver.deviceWrite (s : BlkSystem) (head : Nat) (status : BitVec 8)
    (data : List (BitVec 8)) : SameDriver s (s.deviceWrite head status data) := by
  unfold BlkSystem.deviceWrite
  dsimp only
  split
  · exact .refl s
  · next slot _ =>
    refine ⟨fun i => ?_, rfl, rfl, rfl, rfl, rfl, rfl⟩
    by_cases hi : i = slot
    · subst hi
      simp [setSlot]
    · simp [setSlot, hi]

theorem SlotsSound.same (h : s.SlotsSound) (hst : SameDriver s t)
    (hsize : t.queue.size = s.queue.size) (hdesc : t.queue.desc = s.queue.desc) :
    t.SlotsSound where
  size := hsize ▸ h.size
  count := by rw [hst.count, hsize, h.count]
  head i := (hst.slots i).2.1.trans (h.head i)
  slotMask i := (hst.slots i).2.2.1.trans (h.slotMask i)
  mask d := by simp only [hst.mask, hst.count, (hst.slots _).1, h.mask]
  linked i hi hactive := by
    rw [hdesc]
    exact h.linked i (hst.count ▸ hi) ((hst.slots i).1 ▸ hactive)

theorem Holder.same (h : s.Holder c i) (hst : SameDriver s t) : t.Holder c i := by
  obtain ⟨hi, hhead, hactive, hcall, hrequest⟩ := h
  refine ⟨hst.count ▸ hi, hhead, (hst.slots i).1 ▸ hactive, hst.slotCall ▸ hcall, ?_⟩
  rw [(hst.slots i).2.2.2, hst.callRequest, hrequest]

/-- The chains in flight may change places. -/
theorem FlightSound.same (h : s.FlightSound) (hst : SameDriver s t)
    (hperm : t.outstanding.Perm s.outstanding)
    (havailable : Available t.queue t.deviceIdx (t.available.map Chain.head))
    (hused : ∃ elements : List VirtqUsedElem,
      elements.map VirtqUsedElem.id = t.returned.map Chain.head ∧ Used t.queue elements) :
    t.FlightSound where
  held c hc := by
    obtain ⟨i, hi⟩ := h.held c (hperm.mem_iff.mp hc)
    exact ⟨i, hi.same hst⟩
  heads := (hperm.map Chain.head).nodup_iff.mpr h.heads
  calls := (hperm.map Chain.call).nodup_iff.mpr h.calls
  young c hc := hst.calls ▸ h.young c (hperm.mem_iff.mp hc)
  available := havailable
  used := hused

theorem HistorySound.same (h : s.HistorySound) (hst : SameDriver s t)
    (hperm : t.outstanding.Perm s.outstanding) : t.HistorySound where
  own := hst.completions ▸ h.own
  request := by
    rw [hst.completions, hst.callRequest]
    exact h.request
  once := hst.completions ▸ h.once
  past := by
    rw [hst.completions, hst.calls]
    exact h.past
  still c hc := by
    rw [hst.completions]
    exact h.still c (hperm.mem_iff.mp hc)

/-- A call that has neither completed nor a chain in flight completes. -/
theorem HistorySound.logged {k : BlkCompletion} (h : s.HistorySound)
    (hlog : t.completions = s.completions ++ [k]) (hcalls : t.calls = s.calls)
    (hrequests : t.callRequest = s.callRequest)
    (hout : ∀ c ∈ t.outstanding, c ∈ s.outstanding ∧ c.call ≠ k.call)
    (hnew : ∀ old ∈ s.completions, old.call ≠ k.call) (hpast : k.call < s.calls)
    (hown : ∀ e, k.element = some e → e = k.call) (hrequest : k.request = s.callRequest k.call) :
    t.HistorySound := by
  have hcases : ∀ k' ∈ t.completions, k' ∈ s.completions ∨ k' = k := by
    intro k' hk'
    rw [hlog] at hk'
    exact (List.mem_append.mp hk').imp id List.mem_singleton.mp
  refine ⟨fun k' hk' => ?_, fun k' hk' => ?_, ?_, fun k' hk' => ?_, fun c hc k' hk' => ?_⟩
  · rcases hcases k' hk' with hk' | rfl
    · exact h.own k' hk'
    · exact hown
  · rw [hrequests]
    rcases hcases k' hk' with hk' | rfl
    · exact h.request k' hk'
    · exact hrequest
  · rw [hlog, List.map_append, List.nodup_append]
    refine ⟨h.once, by simp, fun past hpast other hother => ?_⟩
    obtain ⟨old, hold, rfl⟩ := List.mem_map.mp hpast
    obtain rfl : other = k.call := by simpa using hother
    exact hnew old hold
  · rw [hcalls]
    rcases hcases k' hk' with hk' | rfl
    · exact h.past k' hk'
    · exact hpast
  · rcases hcases k' hk' with hk' | rfl
    · exact h.still c (hout c hc).1 k' hk'
    · exact (hout c hc).2.symm

theorem Sound.setRequest (h : s.Sound) (request : Nat) (f : BlockRequest → BlockRequest) :
    (s.setRequest request f).Sound :=
  ⟨h.slots.same (.setRequest s request f) rfl rfl,
    h.flight.same (.setRequest s request f) (.refl _) h.flight.available h.flight.used,
    h.history.same (.setRequest s request f) (.refl _)⟩

/-! ## The device -/

theorem deviceWrite_rest (s : BlkSystem) (head : Nat) (status : BitVec 8) (data : List (BitVec 8)) :
    (s.deviceWrite head status data).queue = s.queue ∧
      (s.deviceWrite head status data).deviceIdx = s.deviceIdx ∧
      (s.deviceWrite head status data).available = s.available ∧
      (s.deviceWrite head status data).owned = s.owned ∧
      (s.deviceWrite head status data).returned = s.returned ∧
      (s.deviceWrite head status data).requests = s.requests := by
  unfold BlkSystem.deviceWrite
  dsimp only
  split <;> exact ⟨rfl, rfl, rfl, rfl, rfl, rfl⟩

/-- The chains in flight, by where they are. -/
structure DeviceView where
  available : List Chain
  owned : List Chain
  returned : List Chain
  deriving DecidableEq, Repr

def view (s : BlkSystem) : DeviceView := ⟨s.available, s.owned, s.returned⟩

namespace DeviceView

/-- The device takes chains in the order of their submission and returns them in any order. -/
def step (v : DeviceView) : DeviceAction → DeviceView
  | .take =>
    match v.available with
    | [] => v
    | c :: rest => ⟨rest, v.owned ++ [c], v.returned⟩
  | .complete call _ _ _ =>
    match v.owned.find? fun c => c.call = call with
    | none => v
    | some c => ⟨v.available, v.owned.erase c, v.returned ++ [c]⟩

def chains (v : DeviceView) : List Chain := v.available ++ v.owned ++ v.returned

theorem step_perm (v : DeviceView) (a : DeviceAction) : (v.step a).chains.Perm v.chains := by
  cases a with
  | take =>
    simp only [step]
    split
    · exact .refl _
    · next c rest hav =>
      have hmove := @List.perm_middle _ c (rest ++ v.owned) v.returned
      simpa [chains, hav] using hmove
  | complete call len status data =>
    simp only [step]
    split
    · exact .refl _
    · next c hfind =>
      have hmem := List.mem_of_find?_eq_some hfind
      have hmove : (v.owned.erase c ++ v.returned ++ [c]).Perm (v.owned ++ v.returned) :=
        (List.perm_append_singleton c _).trans
          ((List.perm_cons_erase hmem).symm.append_right v.returned)
      simpa [chains] using hmove.append_left v.available

end DeviceView

theorem outstanding_eq (s : BlkSystem) : s.outstanding = s.view.chains := rfl

/-- What a step of the device does to the rest of the system. -/
structure DeviceStepped (s t : BlkSystem) (a : DeviceAction) : Prop where
  same : SameDriver s t
  size : t.queue.size = s.queue.size
  desc : t.queue.desc = s.queue.desc
  requests : t.requests = s.requests
  view : t.view = s.view.step a
  available : Available t.queue t.deviceIdx (t.available.map Chain.head)
  used : ∃ elements : List VirtqUsedElem,
    elements.map VirtqUsedElem.id = t.returned.map Chain.head ∧ Used t.queue elements

theorem Sound.length_lt (h : s.Sound) : s.outstanding.length < kIndexWrap := by
  have := h.flight.length_le
  have := h.slots.count_le
  simp only [kIndexWrap]
  omega

/-- The device reads from the ring what the driver submitted first. -/
theorem Sound.take_stepped (h : s.Sound) : DeviceStepped s (s.deviceStep .take) .take := by
  have havailable := h.flight.available
  cases hav : s.available with
  | nil =>
    rw [hav] at havailable
    have heq : s.deviceStep .take = s := by
      simp only [deviceStep, readAvailable_nil havailable]
    rw [heq]
    refine ⟨.refl s, rfl, rfl, rfl, ?_, h.flight.available, h.flight.used⟩
    simp [DeviceView.step, view, hav]
  | cons c rest =>
    rw [hav] at havailable
    have hlen : (rest.map Chain.head).length + 1 < kIndexWrap := by
      have := h.length_lt
      simp only [outstanding, hav, List.length_append, List.length_cons] at this
      rw [List.length_map]
      omega
    obtain ⟨next, hread, hnext⟩ := readAvailable_cons havailable hlen
    have heq : s.deviceStep .take =
        { s with deviceIdx := next, owned := s.owned ++ [c], available := rest } := by
      simp [deviceStep, hread, hav]
    rw [heq]
    refine ⟨⟨fun _ => ⟨rfl, rfl, rfl, rfl⟩, rfl, rfl, rfl, rfl, rfl, rfl⟩, rfl, rfl, rfl, ?_,
      hnext, h.flight.used⟩
    simp [DeviceView.step, view, hav]

/-- The used ring has room for every chain that the device owns. -/
theorem Sound.complete_stepped (h : s.Sound) (call len : Nat) (status : BitVec 8)
    (data : List (BitVec 8)) :
    DeviceStepped s (s.deviceStep (.complete call len status data))
      (.complete call len status data) := by
  simp only [deviceStep]
  split
  · next hnone =>
    refine ⟨.refl s, rfl, rfl, rfl, ?_, h.flight.available, h.flight.used⟩
    simp only [DeviceView.step, view, hnone]
  · next c hfind =>
    have hmem := List.mem_of_find?_eq_some hfind
    have hsame := SameDriver.deviceWrite s c.head status data
    obtain ⟨hqueue, hidx, havailable, howned, hreturned, hrequests⟩ :=
      s.deviceWrite_rest c.head status data
    obtain ⟨elements, hids, hused⟩ := h.flight.used
    have hlen : elements.length = s.returned.length := by
      simpa using congrArg List.length hids
    have hroom : elements.length + 1 ≤ s.queue.size / 3 := by
      have hle := h.flight.length_le
      have hpos := List.length_pos_of_mem hmem
      simp only [outstanding, List.length_append] at hle
      rw [← h.slots.count]
      omega
    have hfits := fits_of_room h.slots.size hroom
    refine ⟨⟨hsame.slots, hsame.count, hsame.mask, hsame.slotCall, hsame.calls, hsame.callRequest,
      hsame.completions⟩, ?_, ?_, hrequests, ?_, ?_, elements ++ [⟨c.head, len⟩], ?_, ?_⟩
    · simp [pushUsed, hqueue]
    · simp [pushUsed, hqueue]
    · simp only [view, DeviceView.step, hfind, havailable, howned, hreturned]
    · simpa [pushUsed, Available, hqueue, hidx, havailable] using h.flight.available
    · simp [hids, hreturned]
    · rw [hqueue]
      exact pushUsed_used hused hfits _

theorem Sound.deviceStepped (h : s.Sound) (a : DeviceAction) :
    DeviceStepped s (s.deviceStep a) a := by
  cases a with
  | take => exact h.take_stepped
  | complete call len status data => exact h.complete_stepped call len status data

theorem DeviceStepped.perm {a : DeviceAction} (h : DeviceStepped s t a) :
    t.outstanding.Perm s.outstanding := by
  rw [outstanding_eq, outstanding_eq, h.view]
  exact s.view.step_perm a

theorem Sound.deviceStep (h : s.Sound) (a : DeviceAction) : (s.deviceStep a).Sound :=
  have ht := h.deviceStepped a
  ⟨h.slots.same ht.same ht.size ht.desc, h.flight.same ht.same ht.perm ht.available ht.used,
    h.history.same ht.same ht.perm⟩

end BlkSystem
end Os1.Virtio
