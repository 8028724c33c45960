import Os1.Virtio.BlkPolling

/-! Used elements complete their own requests exactly as long as no polling wait gives up. -/
namespace Os1.Virtio.BlkSystem

variable {s t : BlkSystem} {i request : Nat} {c : Chain} {device : Nat → List DeviceAction}

/-- The union of the active slots' masks. -/
def activeMask (s : BlkSystem) : BitVec 16 :=
  (List.range s.requestSlotCount).foldl
    (fun mask i => if (s.slots i).active then mask ||| (s.slots i).descriptorMask else mask) 0#16

/-- A used element completes the request of the call that submitted its chain, no call's request is
completed twice, active slots have disjoint descriptors, and the mask of descriptors in use is their
union and covers every descriptor of the chains that the device has not returned. -/
structure Correct (s : BlkSystem) : Prop where
  own : ∀ k ∈ s.completions, ∀ e, k.element = some e →
    e = k.call ∧ k.request = s.callRequest e
  once : (s.completions.map BlkCompletion.call).Nodup
  disjoint : ∀ i < s.requestSlotCount, ∀ j < s.requestSlotCount, i ≠ j → (s.slots i).active →
    (s.slots j).active → (s.slots i).descriptorMask &&& (s.slots j).descriptorMask = 0#16
  union : s.descriptorInUseMask = s.activeMask
  covers : ∀ c ∈ s.available ++ s.owned, ∀ d ∈ descriptorChain s.queue.desc s.queue.size c.head,
    s.descriptorInUseMask.getLsbD d

/-- A call that has to poll is for a request of which the device returns a chain before the last
round. -/
def InTime (s : BlkSystem) : BlkAction → Prop
  | .submit request value .withoutProcess device =>
    s.validRequest value → ∀ slot, s.freeRequestSlot = some slot →
      ∃ c ∈ (((List.range kBootCompletionSpins).flatMap device).foldl DeviceView.step
          ⟨s.available ++ [⟨s.calls, 3 * slot⟩], s.owned, s.returned⟩).returned,
        Function.update s.callRequest s.calls request c.call = request
  | _ => True

theorem foldl_mask_bit (s : BlkSystem) (slots : List Nat) (mask : BitVec 16) (d : Nat) :
    (slots.foldl (fun mask i =>
        if (s.slots i).active then mask ||| (s.slots i).descriptorMask else mask) mask).getLsbD d =
      (mask.getLsbD d ||
        slots.any fun i => (s.slots i).active && (s.slots i).descriptorMask.getLsbD d) := by
  induction slots generalizing mask with
  | nil => simp
  | cons i slots ih =>
    rw [List.foldl_cons, ih, List.any_cons]
    cases (s.slots i).active <;> simp [Bool.or_assoc]

theorem SlotsSound.disjoint (h : s.SlotsSound) {j : Nat} (hi : i < s.requestSlotCount)
    (hj : j < s.requestSlotCount) (hij : i ≠ j) :
    (s.slots i).descriptorMask &&& (s.slots j).descriptorMask = 0#16 := by
  have := h.count_le
  apply BitVec.eq_of_getLsbD_eq
  intro d _
  rw [BitVec.getLsbD_and, h.slotMask, h.slotMask,
    virtioBlkDescriptorMask_bit (by omega), virtioBlkDescriptorMask_bit (by omega),
    BitVec.getLsbD_zero, Bool.and_eq_false_iff, decide_eq_false_iff_not, decide_eq_false_iff_not]
  omega

theorem SlotsSound.union (h : s.SlotsSound) : s.descriptorInUseMask = s.activeMask := by
  have hcount := h.count_le
  apply BitVec.eq_of_getLsbD_eq
  intro d _
  rw [Bool.eq_iff_iff, h.mask, activeMask, foldl_mask_bit, BitVec.getLsbD_zero, Bool.false_or,
    List.any_eq_true]
  constructor
  · rintro ⟨i, hi, hactive, hrange⟩
    refine ⟨i, List.mem_range.mpr hi, ?_⟩
    rw [hactive, h.slotMask, virtioBlkDescriptorMask_bit (by omega)]
    simpa using hrange
  · rintro ⟨i, hi, hbits⟩
    have hi := List.mem_range.mp hi
    rw [Bool.and_eq_true, h.slotMask, virtioBlkDescriptorMask_bit (by omega),
      decide_eq_true_eq] at hbits
    exact ⟨i, hi, hbits⟩

theorem Sound.covers (h : s.Sound) (hc : c ∈ s.outstanding) {d : Nat}
    (hd : d ∈ descriptorChain s.queue.desc s.queue.size c.head) :
    s.descriptorInUseMask.getLsbD d := by
  obtain ⟨i, hi, hhead, hactive, -⟩ := h.flight.held c hc
  have hsize : 3 ≤ s.queue.size := by
    have := h.slots.count
    omega
  rw [hhead, (h.slots.linked i hi hactive).chain hsize] at hd
  refine (h.slots.mask d).mpr ⟨i, hi, hactive, ?_⟩
  simp only [List.mem_cons, List.not_mem_nil, or_false] at hd
  omega

theorem Sound.correct (h : s.Sound) : s.Correct where
  own k hk e he := by
    obtain rfl := h.history.own k hk e he
    exact ⟨rfl, h.history.request k hk⟩
  once := h.history.once
  disjoint i hi j hj hij _ _ := h.slots.disjoint hi hj hij
  union := h.slots.union
  covers c hc d hd := h.covers (List.mem_append_left _ hc) hd

/-! ## Calls -/

/-- A call that finds a slot submits the head of that slot and may have to wait. -/
theorem Sound.submitRequest_accepted (h : s.Sound) (hvalid : s.validRequest (s.requests request))
    (hfree : s.freeRequestSlot = some i) (thread : CallerThread) :
    s.submitRequest request thread device =
      match (s.submitted request i).waitForBootCompletion request thread device with
      | (true, t) => (true, t)
      | (false, t) => (false, t.abandonRequest i s.calls request) := by
  obtain ⟨hi, -⟩ := freeRequestSlot_spec hfree
  have hhead : ((s.prepared request i).slots i).headDescriptor = 3 * i := by
    rw [(s.prepared_slot_self request i).2.1, h.slots.head]
  have hlt : ¬ (s.prepared request i).queue.size ≤ 3 * i := by
    have := h.slots.count
    rw [(s.prepared_rest request i).1]
    omega
  have hsubmit : virtqueueSubmit (s.prepared request i).queue (3 * i) =
      some ((virtqueueSubmit (s.prepared request i).queue (3 * i)).getD
        (s.prepared request i).queue) := by
    simp [virtqueueSubmit, hlt]
  have hvalid' : (s.called request).validRequest ((s.called request).requests request) = true :=
    hvalid
  have hfree' : (s.called request).freeRequestSlot = some i := hfree
  have hprepared : ((s.called request).takeRequestSlot i).prepareRequest i s.calls request =
    s.prepared request i := rfl
  unfold submitRequest
  simp only [hvalid', hfree', hprepared, hhead, Bool.not_true, Bool.false_eq_true, if_false]
  rw [hsubmit]
  rfl

theorem submitRequest_refused (hrefused : s.validRequest (s.requests request) = false ∨
    s.freeRequestSlot = none) (thread : CallerThread) (device : Nat → List DeviceAction) :
    ∃ status, s.submitRequest request thread device =
      (false, (s.called request).failImmediately s.calls request status) := by
  have hvalid : (s.called request).validRequest ((s.called request).requests request) =
    s.validRequest (s.requests request) := rfl
  unfold submitRequest
  cases hv : s.validRequest (s.requests request) with
  | false => exact ⟨.invalid, by simp only [hvalid, hv, Bool.not_false, if_true]⟩
  | true =>
    have hnone : (s.called request).freeRequestSlot = none :=
      hrefused.resolve_left (by simp [hv])
    exact ⟨.busy, by simp only [hvalid, hv, hnone, Bool.not_true, Bool.false_eq_true, if_false]⟩

theorem submitted_done (s : BlkSystem) (request i : Nat) :
    ((s.submitted request i).requests request).done = false := by
  simp [submitted, prepared, prepareRequest, setSlot, setRequest]

/-- The polling wait of an accepted call succeeds exactly when the device is in time. -/
theorem Sound.poll_submitted (h : s.Sound) (hfree : s.freeRequestSlot = some i) (request : Nat)
    (device : Nat → List DeviceAction) :
    Polled (s.submitted request i) request
        (BlkSystem.poll request device kBootCompletionSpins 0 (s.submitted request i)) ∧
      ((BlkSystem.poll request device kBootCompletionSpins 0 (s.submitted request i)).1 = true ↔
        ∃ c ∈ (((List.range kBootCompletionSpins).flatMap device).foldl DeviceView.step
            ⟨s.available ++ [⟨s.calls, 3 * i⟩], s.owned, s.returned⟩).returned,
          Function.update s.callRequest s.calls request c.call = request) := by
  obtain ⟨hi, hinactive⟩ := freeRequestSlot_spec hfree
  have hpoll := (h.submitted hi hinactive request).poll request device kBootCompletionSpins 0 []
    (by simp [submitted_done]) (fun hzero => absurd hzero (by decide))
  rw [List.range_eq_range']
  exact hpoll

/-- A call that gives up frees the descriptors of a chain that the device still owns. -/
theorem Sound.abandoned (h : s.Sound) (hfree : s.freeRequestSlot = some i)
    (hpolled : Polled (s.submitted request i) request (false, t)) :
    ¬ (t.abandonRequest i s.calls request).Correct := by
  obtain ⟨hi, hinactive⟩ := freeRequestSlot_spec hfree
  obtain ⟨hreturned, hdone⟩ : t.returned = [] ∧ (t.requests request).done = false :=
    hpolled.gaveUp rfl
  have hsound : t.Sound := hpolled.sound
  have hcallRequest : t.callRequest s.calls = request := by
    rw [hpolled.callRequest]
    exact Function.update_self _ _ _
  -- The chain is neither returned nor completed.
  have hmem : (Chain.mk s.calls (3 * i)) ∈ t.available ++ t.owned := by
    have hout := hpolled.kept ⟨s.calls, 3 * i⟩
      ((s.submitted_perm request i).mem_iff.mpr List.mem_cons_self)
    rw [← hpolled.callRequest] at hout
    have hnone : ¬ (t.requests (t.callRequest s.calls)).done = true := by
      simp [hcallRequest, hdone]
    simpa [outstanding, hreturned] using hout.resolve_right hnone
  obtain ⟨j, hj, hhead, hactive, -, hrequest⟩ :=
    hsound.flight.held _ (List.mem_append_left _ hmem)
  obtain rfl : i = j := by
    have : 3 * i = 3 * j := hhead
    omega
  have hslot : (t.slots i).active = true ∧ (t.slots i).request = some request :=
    ⟨hactive, hrequest.trans (congrArg some hcallRequest)⟩
  have hrequests := hsound.setRequest request
    fun value => { value with driverContext := none }
  have hslots := hrequests.slots.release hj
  have heq : t.abandonRequest i s.calls request =
      ((t.setRequest request fun value => { value with driverContext := none }).releaseRequestSlot
        i).failImmediately s.calls request .timeout := by
    unfold abandonRequest
    dsimp only
    rw [if_pos]
    exact hslot
  intro hcorrect
  rw [heq] at hcorrect
  have hsize : 0 < t.queue.size := by
    have := hsound.slots.count
    omega
  have hhead : 3 * i ∈ descriptorChain t.queue.desc t.queue.size (3 * i) := by
    obtain ⟨n, hn⟩ := Nat.exists_eq_succ_of_ne_zero (Nat.ne_of_gt hsize)
    rw [hn, descriptorChain]
    exact List.mem_cons_self
  have hbit := hcorrect.covers ⟨s.calls, 3 * i⟩ hmem (3 * i) hhead
  obtain ⟨j, -, hjactive, hlow, hhigh⟩ := (hslots.mask (3 * i)).mp hbit
  obtain rfl : j = i := by omega
  simp [releaseRequestSlot, setSlot] at hjactive

/-! ## Runs -/

/-- What a caller has put in a request is what the call checks. -/
theorem validRequest_setRequest (s : BlkSystem) (request : Nat) (value : BlockRequest) :
    (s.setRequest request fun _ => value).validRequest
      ((s.setRequest request fun _ => value).requests request) = s.validRequest value := by
  have hvalue : (s.setRequest request fun _ => value).requests request = value := by
    simp [setRequest]
  rw [hvalue]
  rfl

theorem Sound.step (h : s.Sound) {a : BlkAction} (hin : s.InTime a) : (s.step a).Sound := by
  cases a with
  | drain => exact h.drainUsed.sound
  | device action => exact h.deviceStep action
  | submit request value thread device =>
    have hset := h.setRequest request fun _ => value
    have hvalue := s.validRequest_setRequest request value
    simp only [BlkSystem.step]
    by_cases hrefused : s.validRequest value = false ∨ s.freeRequestSlot = none
    · obtain ⟨status, heq⟩ := submitRequest_refused
        (s := s.setRequest request fun _ => value) (hvalue.symm ▸ hrefused) thread device
      rw [heq]
      exact hset.refused request status
    · rw [not_or, Bool.not_eq_false] at hrefused
      obtain ⟨i, hfree⟩ := Option.ne_none_iff_exists'.mp hrefused.2
      have hfree' : (s.setRequest request fun _ => value).freeRequestSlot = some i := hfree
      obtain ⟨hi, hinactive⟩ := freeRequestSlot_spec hfree'
      rw [hset.submitRequest_accepted (hvalue.trans hrefused.1) hfree' thread]
      cases thread with
      | none => exact hset.submitted hi hinactive request
      | withProcess => exact hset.submitted hi hinactive request
      | withoutProcess =>
        obtain ⟨hpolled, hresult⟩ := hset.poll_submitted hfree' request device
        have htrue := hresult.mpr (hin hrefused.1 i hfree)
        simp only [waitForBootCompletion]
        rw [← Prod.mk.eta (p := BlkSystem.poll request device _ 0 _), htrue]
        exact hpolled.sound

/-- A call that is not in time leaves a state that is not correct. -/
theorem Sound.late (h : s.Sound) {a : BlkAction} (hlate : ¬ s.InTime a) :
    ¬ (s.step a).Correct := by
  match a, hlate with
  | .submit request value .withoutProcess device, hlate =>
    simp only [InTime, Classical.not_imp, not_forall] at hlate
    obtain ⟨hvalid, i, hfree, hnone⟩ := hlate
    have hset := h.setRequest request fun _ => value
    have hvalue := s.validRequest_setRequest request value
    have hfree' : (s.setRequest request fun _ => value).freeRequestSlot = some i := hfree
    obtain ⟨hpolled, hresult⟩ := hset.poll_submitted hfree' request device
    have hfalse := Bool.eq_false_of_not_eq_true fun htrue => hnone (hresult.mp htrue)
    simp only [BlkSystem.step]
    rw [hset.submitRequest_accepted (hvalue.trans hvalid) hfree']
    simp only [waitForBootCompletion]
    rw [← Prod.mk.eta (p := BlkSystem.poll request device _ 0 _), hfalse] at hpolled ⊢
    exact hset.abandoned hfree' hpolled
  | .submit _ _ .none _, hlate => exact absurd trivial hlate
  | .submit _ _ .withProcess _, hlate => exact absurd trivial hlate
  | .drain, hlate => exact absurd trivial hlate
  | .device _, hlate => exact absurd trivial hlate

theorem probed_sound (deviceQueueSize capacitySectors : Nat) (buffer : Nat → Nat) :
    (probed deviceQueueSize capacitySectors buffer).Sound where
  slots :=
    { size := by
        have hsize : (if deviceQueueSize < 8 then deviceQueueSize else 8) ≤ 8 := by
          split <;> omega
        exact hsize
      count := rfl
      head := fun i => Nat.mul_comm i 3
      slotMask := fun i => congrArg virtioBlkDescriptorMask (Nat.mul_comm i 3)
      mask := fun d => by simp [probed]
      linked := fun i _ hactive => by cases hactive }
  flight :=
    { held := fun _ hc => by cases hc
      heads := List.nodup_nil
      calls := List.nodup_nil
      young := fun _ hc => by cases hc
      available := ⟨0, rfl, rfl, trivial⟩
      used := ⟨[], rfl, 0, rfl, rfl, trivial⟩ }
  history :=
    { own := fun _ hk => by cases hk
      request := fun _ hk => by cases hk
      once := List.nodup_nil
      past := fun _ hk => by cases hk
      still := fun _ hc => by cases hc }

/-- Every state of a run is correct exactly when no polling wait gives up: each request submitted by
a thread without a process has a chain returned by the device before the last round. -/
theorem used_elements_exact (deviceQueueSize capacitySectors : Nat) (buffer : Nat → Nat)
    (actions : List BlkAction) :
    (∀ n, (run (probed deviceQueueSize capacitySectors buffer) (actions.take n)).Correct) ↔
      Along step InTime (probed deviceQueueSize capacitySectors buffer) actions :=
  Along.iff_forall Sound Correct (fun _ h => h.correct) (fun _ _ h hin => h.step hin)
    (fun _ _ h hlate => h.late hlate) (probed_sound deviceQueueSize capacitySectors buffer)

/-- A disk of 16 sectors behind a queue of eight entries, so with two slots. -/
def smallDisk : BlkSystem := probed 8 16 fun slot => 8192 * slot

def readSector (sector : Nat) : BlockRequest :=
  { sector, buffer := some [], sectorCount := 1 }

/-- The device takes the first chain and returns it at once. -/
def promptDevice (call : Nat) : Nat → List DeviceAction
  | 0 => [.take, .complete call 513 0#8 []]
  | _ => []

/-- A request that polls and one that does not, each answered. -/
theorem used_elements_exact_prompt : (run smallDisk
    [.submit 0 (readSector 3) .withoutProcess (promptDevice 0),
      .submit 1 (readSector 4) .withProcess fun _ => [], .device .take,
      .device (.complete 1 513 0#8 []), .drain]).Correct := by
  refine (used_elements_exact 8 16 (fun slot => 8192 * slot)
    [.submit 0 (readSector 3) .withoutProcess (promptDevice 0),
      .submit 1 (readSector 4) .withProcess fun _ => [], .device .take,
      .device (.complete 1 513 0#8 []), .drain]).mpr
    ⟨fun _ slot hslot => ?_, trivial, trivial, trivial, trivial, trivial⟩ 5
  cases hslot
  have hspins : kBootCompletionSpins = 9999999 + 1 := rfl
  rw [hspins, List.range_succ_eq_map, List.flatMap_cons, List.foldl_append]
  exact ⟨⟨0, 0⟩, DeviceView.mem_returned_foldl (by decide), rfl⟩

theorem poll_idle (hindex : s.queue.usedIdx = s.queue.lastUsedIdx)
    (hdone : (s.requests request).done = false) (fuel spin : Nat) :
    poll request (fun _ => []) fuel spin s = (false, s) := by
  have hdrain : s.drainUsed = s := by
    simp [drainUsed, hindex, drainRounds]
  induction fuel generalizing spin with
  | zero => rfl
  | succ fuel ih => simp [poll, hdrain, hdone, ih]

/-- A call that polls an idle device ends without its slot. -/
theorem Sound.submitRequest_gives_up (h : s.Sound)
    (hvalid : s.validRequest (s.requests request)) (hfree : s.freeRequestSlot = some i)
    (hindex : s.queue.usedIdx = s.queue.lastUsedIdx) :
    s.submitRequest request .withoutProcess (fun _ => []) =
      (false, (s.submitted request i).abandonRequest i s.calls request) := by
  obtain ⟨hi, -⟩ := freeRequestSlot_spec hfree
  have hlt : ¬ (s.prepared request i).queue.size ≤ 3 * i := by
    have := h.slots.count
    rw [(s.prepared_rest request i).1]
    omega
  have hindex' : (s.submitted request i).queue.usedIdx =
      (s.submitted request i).queue.lastUsedIdx := by
    simp only [BlkSystem.submitted, virtqueueSubmit, if_neg hlt, Option.getD_some]
    exact hindex
  rw [h.submitRequest_accepted hvalid hfree]
  simp only [waitForBootCompletion]
  rw [poll_idle hindex' (submitted_done s request i)]

theorem step_submit (s : BlkSystem) (request : Nat) (value : BlockRequest) (thread : CallerThread)
    (device : Nat → List DeviceAction) :
    s.step (.submit request value thread device) =
      ((s.setRequest request fun _ => value).submitRequest request thread device).2 := rfl

/-- The first request is given up, and its element then completes the second one. -/
theorem late_element_completes_other :
    let s := run smallDisk
      [.submit 0 (readSector 3) .withoutProcess fun _ => [], .device .take,
        .submit 1 (readSector 4) .withProcess fun _ => [],
        .device (.complete 0 513 0#8 []), .drain]
    s.completions = [⟨0, 0, none⟩, ⟨1, 1, some 0⟩] ∧ (s.requests 1).status = .success ∧
      ¬ s.Correct := by
  have hsound : (smallDisk.setRequest 0 fun _ => readSector 3).Sound :=
    (probed_sound 8 16 fun slot => 8192 * slot).setRequest 0 fun _ => readSector 3
  -- The polling loop is not evaluated: on an idle device it gives up.
  rw [run, List.foldl_cons, step_submit, hsound.submitRequest_gives_up (i := 0) (by decide +kernel)
    (by decide +kernel) rfl]
  have hlog : (([.device .take, .submit 1 (readSector 4) .withProcess fun _ => [],
      .device (.complete 0 513 0#8 []), .drain] : List BlkAction).foldl step
        (((smallDisk.setRequest 0 fun _ => readSector 3).submitted 0 0).abandonRequest 0
          (smallDisk.setRequest 0 fun _ => readSector 3).calls 0)).completions =
      [⟨0, 0, none⟩, ⟨1, 1, some 0⟩] := by
    decide +kernel
  refine ⟨hlog, by decide +kernel, fun hcorrect => ?_⟩
  have hown := (hcorrect.own ⟨1, 1, some 0⟩ (by rw [hlog]; simp) 0 rfl).1
  simp at hown

end Os1.Virtio.BlkSystem
