import Os1.Virtio.BlkInvariant

/-! Draining the used ring completes each returned chain's own request. -/
namespace Os1.Virtio.BlkSystem

variable {s t : BlkSystem} {i request : Nat} {c : Chain} {rest : List Chain}

theorem SlotsSound.release (h : s.SlotsSound) (hi : i < s.requestSlotCount) :
    (s.releaseRequestSlot i).SlotsSound where
  size := h.size
  count := h.count
  head j := by
    by_cases hj : j = i
    · subst hj
      simpa [releaseRequestSlot, setSlot] using h.head j
    · simpa [releaseRequestSlot, setSlot, hj] using h.head j
  slotMask j := by
    by_cases hj : j = i
    · subst hj
      simpa [releaseRequestSlot, setSlot] using h.slotMask j
    · simpa [releaseRequestSlot, setSlot, hj] using h.slotMask j
  mask d := by
    have hcount := h.count_le
    have hbit : (s.releaseRequestSlot i).descriptorInUseMask.getLsbD d =
        (s.descriptorInUseMask.getLsbD d && !decide (3 * i ≤ d ∧ d < 3 * i + 3)) := by
      simp only [releaseRequestSlot, BitVec.getLsbD_and, BitVec.getLsbD_not, h.slotMask,
        virtioBlkDescriptorMask_bit (show i < 3 by omega)]
      by_cases hd : d < 16
      · simp [hd]
      · simp [BitVec.getLsbD_of_ge _ _ (Nat.le_of_not_lt hd)]
    rw [hbit, Bool.and_eq_true, h.mask, Bool.not_eq_true', decide_eq_false_iff_not]
    constructor
    · rintro ⟨⟨j, hj, hactive, hlow, hhigh⟩, hout⟩
      have hne : j ≠ i := by
        rintro rfl
        exact hout ⟨hlow, hhigh⟩
      exact ⟨j, hj, by simpa [releaseRequestSlot, setSlot, hne] using hactive, hlow, hhigh⟩
    · rintro ⟨j, hj, hactive, hlow, hhigh⟩
      have hne : j ≠ i := by
        rintro rfl
        simp [releaseRequestSlot, setSlot] at hactive
      exact ⟨⟨j, hj, by simpa [releaseRequestSlot, setSlot, hne] using hactive, hlow, hhigh⟩,
        by omega⟩
  linked j hj hactive := by
    have hne : j ≠ i := by
      rintro rfl
      simp [releaseRequestSlot, setSlot] at hactive
    exact h.linked j hj (by simpa [releaseRequestSlot, setSlot, hne] using hactive)

theorem SlotsSound.findRequestSlot (h : s.SlotsSound) (hi : i < s.requestSlotCount) :
    s.findRequestSlot (3 * i) = some i := by
  unfold BlkSystem.findRequestSlot
  cases hfind : (List.range s.requestSlotCount).find? fun slot =>
      (s.slots slot).headDescriptor = 3 * i with
  | none =>
    have := List.find?_eq_none.mp hfind i (List.mem_range.mpr hi)
    simp [h.head] at this
  | some j =>
    have hj := List.find?_some hfind
    simp only [h.head, decide_eq_true_eq] at hj
    rw [show j = i by omega]

/-- The slot of another chain is another slot. -/
theorem Holder.release (h : s.Holder c i) {j : Nat} (hne : c.head ≠ 3 * j) :
    (s.releaseRequestSlot j).Holder c i := by
  obtain ⟨hi, hhead, hactive, hcall, hrequest⟩ := h
  have hij : i ≠ j := by
    rintro rfl
    exact hne hhead
  refine ⟨hi, hhead, ?_, hcall, ?_⟩
  · simpa [releaseRequestSlot, setSlot, hij] using hactive
  · simpa [releaseRequestSlot, setSlot, hij] using hrequest

/-- The driver has consumed the element of the first returned chain. -/
def consumed (s : BlkSystem) (last : Nat) : BlkSystem :=
  { s with queue := { s.queue with lastUsedIdx := last }, returned := s.returned.tail }

/-- The element of a chain finds the slot that the chain was submitted from. -/
theorem Sound.drainOne_cons (h : s.Sound) (hreturned : s.returned = c :: rest) :
    ∃ i last, s.Holder c i ∧
      s.drainOne =
        some ((s.consumed last).completeSlot i (s.callRequest c.call) (some c.call)) ∧
      ∃ elements : List VirtqUsedElem, elements.map VirtqUsedElem.id = rest.map Chain.head ∧
        Used { s.queue with lastUsedIdx := last } elements := by
  have hmem : c ∈ s.outstanding := by simp [outstanding, hreturned]
  obtain ⟨i, hi, hhead, hactive, hcall, hrequest⟩ := h.flight.held c hmem
  obtain ⟨elements, hids, hused⟩ := h.flight.used
  rw [hreturned, List.map_cons] at hids
  obtain ⟨element, elements, rfl, hid, hids⟩ := List.map_eq_cons_iff.mp hids
  have hlen : elements.length + 1 < kIndexWrap := by
    have hlen : elements.length = rest.length := by simpa using congrArg List.length hids
    have := h.length_lt
    simp only [outstanding, hreturned, List.length_append, List.length_cons] at this
    omega
  obtain ⟨last, hconsume, hused⟩ := virtqueueConsumeUsed_cons hused hlen
  refine ⟨i, last, ⟨hi, hhead, hactive, hcall, hrequest⟩, ?_, elements, hids, hused⟩
  have hwrap : element.id % kIndexWrap = 3 * i := by
    have := h.slots.count_le
    rw [hid, hhead, kIndexWrap]
    omega
  have hfind : (s.consumed last).findRequestSlot (3 * i) = some i := h.slots.findRequestSlot hi
  unfold consumed at hfind
  simp only [drainOne, hconsume, hwrap]
  rw [hfind]
  simp [hactive, hrequest, hreturned, consumed]

theorem consumed_perm (hreturned : s.returned = c :: rest) (last : Nat) :
    s.outstanding.Perm (c :: (s.consumed last).outstanding) := by
  have hmove := @List.perm_middle _ c (s.available ++ s.owned) rest
  simpa [outstanding, consumed, hreturned] using hmove

/-- Completing a returned chain's request takes the chain out of flight. -/
theorem Sound.completeSlot (h : s.Sound) (hreturned : s.returned = c :: rest)
    (hholder : s.Holder c i) {last : Nat}
    (hused : ∃ elements : List VirtqUsedElem, elements.map VirtqUsedElem.id = rest.map Chain.head ∧
      Used { s.queue with lastUsedIdx := last } elements) :
    ((s.consumed last).completeSlot i (s.callRequest c.call) (some c.call)).Sound := by
  have hperm := consumed_perm hreturned last
  have hheads := (hperm.map Chain.head).nodup_iff.mp h.flight.heads
  have hcalls := (hperm.map Chain.call).nodup_iff.mp h.flight.calls
  rw [List.map_cons, List.nodup_cons] at hheads hcalls
  have hmem : c ∈ s.outstanding := hperm.mem_iff.mpr (List.mem_cons_self)
  have hstay : ∀ c' ∈ (s.consumed last).outstanding, c' ∈ s.outstanding :=
    fun c' hc' => hperm.mem_iff.mpr (List.mem_cons_of_mem c hc')
  have hconsumed : (s.consumed last).SlotsSound :=
    ⟨h.slots.size, h.slots.count, h.slots.head, h.slots.slotMask, h.slots.mask, h.slots.linked⟩
  have hslots := hconsumed.release hholder.1
  refine ⟨⟨hslots.size, hslots.count, hslots.head, hslots.slotMask, hslots.mask, hslots.linked⟩,
    ?_, ?_⟩
  · refine ⟨fun c' hc' => ?_, hheads.2, hcalls.2, fun c' hc' => h.flight.young c' (hstay c' hc'),
      h.flight.available, ?_⟩
    · obtain ⟨j, hj⟩ := h.flight.held c' (hstay c' hc')
      have hne : c'.head ≠ 3 * i := by
        rw [← hholder.2.1]
        exact fun heq => hheads.1 (heq ▸ List.mem_map_of_mem hc')
      exact ⟨j, hj.release hne⟩
    · have hrest : (s.consumed last).returned = rest := by simp [consumed, hreturned]
      exact hrest.symm ▸ hused
  · have hcall : s.slotCall i = c.call := hholder.2.2.2.1
    have hlog : ((s.consumed last).completeSlot i (s.callRequest c.call)
        (some c.call)).completions =
          s.completions ++ [⟨c.call, s.callRequest c.call, some c.call⟩] := by
      rw [← hcall]
      rfl
    refine h.history.logged hlog rfl rfl (fun c' hc' => ⟨hstay c' hc', fun heq => ?_⟩)
      (h.history.still c hmem) (h.flight.young c hmem) (fun _ he => (Option.some.inj he).symm) rfl
    exact hcalls.1 (List.mem_map.mpr ⟨c', hc', heq⟩)

/-- The used ring is empty, and exactly the requests of the returned chains are done. -/
structure Drained (s t : BlkSystem) : Prop where
  sound : t.Sound
  count : t.requestSlotCount = s.requestSlotCount
  calls : t.calls = s.calls
  callRequest : t.callRequest = s.callRequest
  available : t.available = s.available
  owned : t.owned = s.owned
  returned : t.returned = []
  done : ∀ r, (t.requests r).done = true ↔
    (s.requests r).done = true ∨ ∃ c ∈ s.returned, s.callRequest c.call = r

theorem completeSlot_done (s : BlkSystem) (i request : Nat) (element : Option Nat) (r : Nat) :
    ((s.completeSlot i request element).requests r).done = true ↔
      r = request ∨ (s.requests r).done = true := by
  by_cases hr : r = request
  · subst hr
    simp [completeSlot, setRequest]
  · simp [completeSlot, setRequest, releaseRequestSlot, setSlot, hr]

theorem Sound.drainRounds (h : s.Sound) : Drained s (drainRounds s.returned.length s) := by
  induction hreturned : s.returned generalizing s with
  | nil =>
    exact ⟨h, rfl, rfl, rfl, rfl, rfl, hreturned, fun r => by simp [BlkSystem.drainRounds,
      hreturned]⟩
  | cons c rest ih =>
    obtain ⟨i, last, hholder, hone, hused⟩ := h.drainOne_cons hreturned
    have hsound := h.completeSlot hreturned hholder hused
    have hrest : ((s.consumed last).completeSlot i (s.callRequest c.call)
        (some c.call)).returned = rest :=
      congrArg List.tail hreturned
    have hnext := ih hsound hrest
    rw [List.length_cons, BlkSystem.drainRounds, hone]
    refine ⟨hnext.sound, hnext.count, hnext.calls, hnext.callRequest, hnext.available, hnext.owned,
      hnext.returned, fun r => ?_⟩
    rw [hnext.done, completeSlot_done, hrest]
    simp only [hreturned, List.mem_cons, exists_eq_or_imp, consumed]
    constructor
    · rintro ((rfl | hdone) | hlater)
      · exact .inr (.inl rfl)
      · exact .inl hdone
      · exact .inr (.inr hlater)
    · rintro (hdone | rfl | hlater)
      · exact .inl (.inr hdone)
      · exact .inl (.inl rfl)
      · exact .inr hlater

/-- The distance of the indices is the number of returned chains. -/
theorem Sound.drainUsed (h : s.Sound) : Drained s s.drainUsed := by
  obtain ⟨elements, hids, first, hlast, hidx, -⟩ := h.flight.used
  have hlen : elements.length = s.returned.length := by simpa using congrArg List.length hids
  have hlt := h.length_lt
  simp only [outstanding, List.length_append] at hlt
  have hfuel : (s.queue.usedIdx + kIndexWrap - s.queue.lastUsedIdx) % kIndexWrap =
      s.returned.length := by
    rw [hidx, hlast, hlen]
    simp only [kIndexWrap] at hlt ⊢
    omega
  unfold BlkSystem.drainUsed
  rw [hfuel]
  exact h.drainRounds

end Os1.Virtio.BlkSystem
