import Os1.Virtio.BlkDrain

/-! A submission puts one new chain in flight, for its own call. -/
namespace Os1.Virtio.BlkSystem

open CounterRing

variable {s t : BlkSystem} {i call request : Nat} {c : Chain}

theorem callRequest_called {k : Nat} (hk : k < s.calls) :
    (s.called request).callRequest k = s.callRequest k :=
  Function.update_of_ne (Nat.ne_of_lt hk) _ _

theorem Sound.called (h : s.Sound) (request : Nat) : (s.called request).Sound where
  slots := ⟨h.slots.size, h.slots.count, h.slots.head, h.slots.slotMask, h.slots.mask,
    h.slots.linked⟩
  flight :=
    { held := fun c hc => by
        obtain ⟨i, hi, hhead, hactive, hcall, hrequest⟩ := h.flight.held c hc
        refine ⟨i, hi, hhead, hactive, hcall, ?_⟩
        rw [callRequest_called (h.flight.young c hc)]
        exact hrequest
      heads := h.flight.heads
      calls := h.flight.calls
      young := fun c hc => Nat.lt_succ_of_lt (h.flight.young c hc)
      available := h.flight.available
      used := h.flight.used }
  history :=
    { own := h.history.own
      request := fun k hk => by
        rw [callRequest_called (h.history.past k hk)]
        exact h.history.request k hk
      once := h.history.once
      past := fun k hk => Nat.lt_succ_of_lt (h.history.past k hk)
      still := h.history.still }

/-- The completion of a call that has no chain in flight. -/
theorem Sound.failImmediately (h : s.Sound) (hnew : ∀ k ∈ s.completions, k.call ≠ call)
    (hout : ∀ c ∈ s.outstanding, c.call ≠ call) (hcall : call < s.calls)
    (hrequest : s.callRequest call = request) (status : BlockRequestStatus) :
    (s.failImmediately call request status).Sound where
  slots := ⟨h.slots.size, h.slots.count, h.slots.head, h.slots.slotMask, h.slots.mask,
    h.slots.linked⟩
  flight := ⟨h.flight.held, h.flight.heads, h.flight.calls, h.flight.young, h.flight.available,
    h.flight.used⟩
  history := h.history.logged (k := ⟨call, request, none⟩) rfl rfl rfl
    (fun c hc => ⟨hc, hout c hc⟩) hnew hcall (fun _ he => by cases he) hrequest.symm

/-- A call that is refused is completed at once. -/
theorem Sound.refused (h : s.Sound) (request : Nat) (status : BlockRequestStatus) :
    ((s.called request).failImmediately s.calls request status).Sound :=
  (h.called request).failImmediately (fun k hk => Nat.ne_of_lt (h.history.past k hk))
    (fun c hc => Nat.ne_of_lt (h.flight.young c hc)) (Nat.lt_succ_self _)
    (Function.update_self _ _ _) status

/-! ## An accepted call -/

theorem freeRequestSlot_spec (hfree : s.freeRequestSlot = some i) :
    i < s.requestSlotCount ∧ (s.slots i).active = false := by
  have hmem := List.mem_range.mp (List.mem_of_find?_eq_some hfree)
  have hspec := List.find?_some hfree
  simp only [Bool.and_eq_true, Bool.not_eq_true'] at hspec
  exact ⟨hmem, hspec.1⟩

/-- The driver's state once the request is written to its slot. -/
def prepared (s : BlkSystem) (request slot : Nat) : BlkSystem :=
  ((s.called request).takeRequestSlot slot).prepareRequest slot s.calls request

theorem requestDescriptors_linked (desc : Nat → VirtqDesc) (slot : VirtioBlkRequestSlot)
    (operation : BlockOperation) (bytes : Nat) :
    Linked (requestDescriptors desc slot operation bytes) slot.headDescriptor := by
  refine ⟨?_, ?_, ?_⟩
  · simp [requestDescriptors, kVirtqDescFlagNext]
  · cases operation <;> simp [requestDescriptors, kVirtqDescFlagNext, kVirtqDescFlagWrite]
  · simp [requestDescriptors, kVirtqDescFlagNext, kVirtqDescFlagWrite]

theorem requestDescriptors_other (desc : Nat → VirtqDesc) (slot : VirtioBlkRequestSlot)
    (operation : BlockOperation) (bytes : Nat) {d : Nat}
    (hd : d < slot.headDescriptor ∨ slot.headDescriptor + 3 ≤ d) :
    requestDescriptors desc slot operation bytes d = desc d := by
  simp only [requestDescriptors]
  rw [Function.update_of_ne (by omega), Function.update_of_ne (by omega),
    Function.update_of_ne (by omega)]

theorem prepared_slot_other {j : Nat} (hj : j ≠ i) :
    (s.prepared request i).slots j = s.slots j := by
  simp [prepared, prepareRequest, takeRequestSlot, called, setSlot, setRequest, hj]

theorem prepared_slot_self (s : BlkSystem) (request i : Nat) :
    ((s.prepared request i).slots i).active = true ∧
      ((s.prepared request i).slots i).headDescriptor = (s.slots i).headDescriptor ∧
      ((s.prepared request i).slots i).descriptorMask = (s.slots i).descriptorMask ∧
      ((s.prepared request i).slots i).request = some request := by
  simp [prepared, prepareRequest, takeRequestSlot, called, setSlot, setRequest]

theorem prepared_rest (s : BlkSystem) (request i : Nat) :
    (s.prepared request i).queue.size = s.queue.size ∧
      (s.prepared request i).requestSlotCount = s.requestSlotCount ∧
      (s.prepared request i).descriptorInUseMask =
        s.descriptorInUseMask ||| (s.slots i).descriptorMask ∧
      (s.prepared request i).slotCall = Function.update s.slotCall i s.calls ∧
      (s.prepared request i).callRequest = (s.called request).callRequest ∧
      (s.prepared request i).outstanding = s.outstanding ∧
      (s.prepared request i).completions = s.completions ∧
      (s.prepared request i).calls = s.calls + 1 := by
  refine ⟨rfl, rfl, ?_, rfl, rfl, rfl, rfl, rfl⟩
  simp [prepared, prepareRequest, takeRequestSlot, called, setSlot, setRequest]

theorem SlotsSound.prepared (h : s.SlotsSound) (hi : i < s.requestSlotCount) (request : Nat) :
    (s.prepared request i).SlotsSound := by
  obtain ⟨hsize, hcount, hmask, -⟩ := s.prepared_rest request i
  obtain ⟨hactive, hhead, hslotMask, -⟩ := s.prepared_slot_self request i
  have htwo := h.count_le
  refine ⟨h.size, h.count, fun j => ?_, fun j => ?_, fun d => ?_, fun j hj hjactive => ?_⟩
  · by_cases hj : j = i
    · rw [hj, hhead, h.head]
    · rw [prepared_slot_other hj, h.head]
  · by_cases hj : j = i
    · rw [hj, hslotMask, h.slotMask]
    · rw [prepared_slot_other hj, h.slotMask]
  · rw [hmask, BitVec.getLsbD_or, Bool.or_eq_true, h.mask, h.slotMask,
      virtioBlkDescriptorMask_bit (show i < 3 by omega), decide_eq_true_eq, hcount]
    constructor
    · rintro (⟨j, hj, hjactive, hrange⟩ | hrange)
      · refine ⟨j, hj, ?_, hrange⟩
        by_cases hji : j = i
        · rw [hji, hactive]
        · rwa [prepared_slot_other hji]
      · exact ⟨i, hi, hactive, hrange⟩
    · rintro ⟨j, hj, hjactive, hrange⟩
      by_cases hji : j = i
      · exact .inr (hji ▸ hrange)
      · exact .inl ⟨j, hj, prepared_slot_other hji ▸ hjactive, hrange⟩
  · by_cases hji : j = i
    · have hlinked := requestDescriptors_linked s.queue.desc ((s.prepared request i).slots i)
        (s.requests request).operation ((s.requests request).sectorCount * kVirtioSectorSize)
      rw [hhead, h.head] at hlinked
      rw [hji]
      exact hlinked
    · have hother := h.linked j hj (prepared_slot_other hji ▸ hjactive)
      have hdesc : ∀ d, d < 3 * i ∨ 3 * i + 3 ≤ d →
          (s.prepared request i).queue.desc d = s.queue.desc d := by
        intro d hd
        refine requestDescriptors_other s.queue.desc ((s.prepared request i).slots i)
          (s.requests request).operation _ ?_
        rwa [hhead, h.head]
      exact hother.congr (hdesc _ (by omega)) (hdesc _ (by omega)) (hdesc _ (by omega))

/-- The state after `virtqueue_submit`. -/
def submitted (s : BlkSystem) (request slot : Nat) : BlkSystem :=
  let p := s.prepared request slot
  { p with
    queue := (virtqueueSubmit p.queue (3 * slot)).getD p.queue
    available := p.available ++ [⟨s.calls, 3 * slot⟩] }

theorem submitted_slots (s : BlkSystem) (request i : Nat) :
    (s.submitted request i).slots = (s.prepared request i).slots := rfl

theorem submitted_perm (s : BlkSystem) (request i : Nat) :
    (s.submitted request i).outstanding.Perm (⟨s.calls, 3 * i⟩ :: s.outstanding) := by
  have hmove := @List.perm_middle _ (Chain.mk s.calls (3 * i)) s.available (s.owned ++ s.returned)
  have hout : (s.submitted request i).outstanding =
      s.available ++ [⟨s.calls, 3 * i⟩] ++ s.owned ++ s.returned := rfl
  rw [hout]
  simp only [outstanding, List.append_assoc, List.singleton_append]
  exact hmove

theorem Sound.submitted (h : s.Sound) (hi : i < s.requestSlotCount)
    (hfree : (s.slots i).active = false) (request : Nat) : (s.submitted request i).Sound := by
  obtain ⟨hsize, hcount, -, hslotCall, hcallRequest, -, hlog, hcalls⟩ :=
    s.prepared_rest request i
  obtain ⟨hactive, -, -, hrequest⟩ := s.prepared_slot_self request i
  have hslots := h.slots.prepared hi request
  have hperm := s.submitted_perm request i
  have hhead : 3 * i < (s.prepared request i).queue.size := by
    have := h.slots.count
    rw [hsize]
    omega
  have hlen : (s.available.map Chain.head).length + 1 ≤ s.queue.size / 3 := by
    have := h.flight.length_lt hi hfree
    simp only [outstanding, List.length_append] at this
    rw [List.length_map, ← h.slots.count]
    omega
  have hbefore : Available (s.prepared request i).queue s.deviceIdx (s.available.map Chain.head) :=
    h.flight.available
  obtain ⟨ring, idx, hsubmit, havailable⟩ :=
    virtqueueSubmit_spec hbefore (fits_of_room h.slots.size hlen) hhead
  have hqueue : (s.submitted request i).queue =
      { (s.prepared request i).queue with availRing := ring, availIdx := idx } := by
    simp [BlkSystem.submitted, hsubmit]
  refine ⟨⟨?_, ?_, hslots.head, hslots.slotMask, hslots.mask, ?_⟩, ?_, ?_⟩
  · rw [hqueue]
    exact hslots.size
  · rw [hqueue]
    exact hslots.count
  · rw [hqueue]
    exact hslots.linked
  · refine ⟨fun c hc => ?_, ?_, ?_, fun c hc => ?_, ?_, ?_⟩
    · rcases List.mem_cons.mp (hperm.mem_iff.mp hc) with rfl | hc
      · refine ⟨i, hi, rfl, hactive, ?_, ?_⟩
        · exact (congrFun hslotCall i).trans (Function.update_self _ _ _)
        · refine hrequest.trans (congrArg some ?_)
          exact ((congrFun hcallRequest s.calls).trans (Function.update_self _ _ _)).symm
      · obtain ⟨j, hj, hjhead, hjactive, hjcall, hjrequest⟩ := h.flight.held c hc
        have hji : j ≠ i := by
          rintro rfl
          simp [hfree] at hjactive
        have hslot : (s.submitted request i).slots j = s.slots j := by
          rw [submitted_slots, prepared_slot_other hji]
        refine ⟨j, hj, hjhead, hslot ▸ hjactive, ?_, ?_⟩
        · exact ((congrFun hslotCall j).trans (Function.update_of_ne hji _ _)).trans hjcall
        · rw [hslot, hjrequest]
          refine congrArg some ?_
          exact ((congrFun hcallRequest c.call).trans
            (callRequest_called (h.flight.young c hc))).symm
    · rw [(hperm.map Chain.head).nodup_iff, List.map_cons, List.nodup_cons]
      exact ⟨h.flight.unheld hfree, h.flight.heads⟩
    · rw [(hperm.map Chain.call).nodup_iff, List.map_cons, List.nodup_cons]
      refine ⟨fun hmem => ?_, h.flight.calls⟩
      obtain ⟨c, hc, hcall⟩ := List.mem_map.mp hmem
      exact Nat.lt_irrefl _ (hcall ▸ h.flight.young c hc)
    · rcases List.mem_cons.mp (hperm.mem_iff.mp hc) with rfl | hc
      · exact Nat.lt_succ_self _
      · exact Nat.lt_succ_of_lt (h.flight.young c hc)
    · have hheads : (s.submitted request i).available.map Chain.head =
          s.available.map Chain.head ++ [3 * i] := by
        have : (s.submitted request i).available = s.available ++ [⟨s.calls, 3 * i⟩] := rfl
        rw [this, List.map_append]
        rfl
      rw [hqueue, hheads]
      exact havailable
    · rw [hqueue]
      exact h.flight.used
  · have hlog : (s.submitted request i).completions = s.completions := hlog
    have hcalls : (s.submitted request i).calls = s.calls + 1 := hcalls
    refine ⟨?_, ?_, ?_, ?_, ?_⟩
    · rw [hlog]
      exact h.history.own
    · rw [hlog]
      intro k hk
      exact (h.history.request k hk).trans ((congrFun hcallRequest k.call).trans
        (callRequest_called (h.history.past k hk))).symm
    · rw [hlog]
      exact h.history.once
    · rw [hlog, hcalls]
      exact fun k hk => Nat.lt_succ_of_lt (h.history.past k hk)
    · rw [hlog]
      intro c hc k hk
      rcases List.mem_cons.mp (hperm.mem_iff.mp hc) with rfl | hc
      · exact Nat.ne_of_lt (h.history.past k hk)
      · exact h.history.still c hc k hk

end Os1.Virtio.BlkSystem
