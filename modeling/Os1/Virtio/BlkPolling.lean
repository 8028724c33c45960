import Os1.Lib.Along
import Os1.Virtio.BlkSubmit

/-! The polling wait, and what its giving up does to a chain that the device still owns. -/
namespace Os1.Virtio.BlkSystem

variable {s t : BlkSystem} {i request : Nat} {c : Chain} {device : Nat → List DeviceAction}

namespace DeviceView

variable {v : DeviceView} {actions : List DeviceAction}

/-- A view with chains that were returned earlier. -/
def after (earlier : List Chain) (v : DeviceView) : DeviceView :=
  ⟨v.available, v.owned, earlier ++ v.returned⟩

theorem step_after (earlier : List Chain) (v : DeviceView) (a : DeviceAction) :
    (v.after earlier).step a = (v.step a).after earlier := by
  cases a with
  | take =>
    simp only [step, after]
    split <;> rfl
  | complete call len status data =>
    simp only [step, after]
    split <;> simp

theorem foldl_after (earlier : List Chain) (v : DeviceView) :
    actions.foldl step (v.after earlier) = (actions.foldl step v).after earlier := by
  induction actions generalizing v with
  | nil => rfl
  | cons a actions ih => rw [List.foldl_cons, step_after, ih, List.foldl_cons]

/-- What has been returned stays in the used ring. -/
theorem mem_returned_foldl (hc : c ∈ v.returned) : c ∈ (actions.foldl step v).returned := by
  have hv : v = DeviceView.after v.returned ⟨v.available, v.owned, []⟩ := by simp [after]
  rw [hv, foldl_after]
  exact List.mem_append_left _ hc

end DeviceView

/-- The device has taken these steps. -/
structure Passed (s t : BlkSystem) (actions : List DeviceAction) : Prop where
  sound : t.Sound
  count : t.requestSlotCount = s.requestSlotCount
  calls : t.calls = s.calls
  callRequest : t.callRequest = s.callRequest
  requests : t.requests = s.requests
  view : t.view = actions.foldl DeviceView.step s.view
  perm : t.outstanding.Perm s.outstanding

theorem Sound.devicePass (h : s.Sound) (actions : List DeviceAction) :
    Passed s (actions.foldl BlkSystem.deviceStep s) actions := by
  induction actions generalizing s with
  | nil => exact ⟨h, rfl, rfl, rfl, rfl, rfl, .refl _⟩
  | cons a actions ih =>
    have hone := h.deviceStepped a
    have hrest := ih (h.deviceStep a)
    exact ⟨hrest.sound, hrest.count.trans hone.same.count, hrest.calls.trans hone.same.calls,
      hrest.callRequest.trans hone.same.callRequest, hrest.requests.trans hone.requests,
      by rw [List.foldl_cons, List.foldl_cons, hrest.view, hone.view], hrest.perm.trans hone.perm⟩

/-- What holds when the polling loop is left: no chain is lost without its request being done. -/
structure Polled (s : BlkSystem) (request : Nat) (result : Bool × BlkSystem) : Prop where
  sound : result.2.Sound
  count : result.2.requestSlotCount = s.requestSlotCount
  calls : result.2.calls = s.calls
  callRequest : result.2.callRequest = s.callRequest
  kept : ∀ c ∈ s.outstanding, c ∈ result.2.outstanding ∨
    (result.2.requests (s.callRequest c.call)).done = true
  gaveUp : result.1 = false →
    result.2.returned = [] ∧ (result.2.requests request).done = false
  done : ∀ r, (s.requests r).done = true → (result.2.requests r).done = true

/-- One round of the device's steps and a drain. -/
theorem Sound.round (h : s.Sound) (request : Nat) (actions : List DeviceAction) :
    let t := (actions.foldl BlkSystem.deviceStep s).drainUsed
    Polled s request ((t.requests request).done, t) ∧ t.returned = [] ∧
      t.view = ⟨(actions.foldl DeviceView.step s.view).available,
        (actions.foldl DeviceView.step s.view).owned, []⟩ ∧
      ∀ r, (t.requests r).done = true ↔ (s.requests r).done = true ∨
        ∃ c ∈ (actions.foldl DeviceView.step s.view).returned, s.callRequest c.call = r := by
  intro t
  have hpass := h.devicePass actions
  have hdrain : Drained _ t := hpass.sound.drainUsed
  have hreturned : (actions.foldl BlkSystem.deviceStep s).returned =
      (actions.foldl DeviceView.step s.view).returned := by
    rw [← hpass.view]
    rfl
  have hdone : ∀ r, (t.requests r).done = true ↔ (s.requests r).done = true ∨
      ∃ c ∈ (actions.foldl DeviceView.step s.view).returned, s.callRequest c.call = r := by
    intro r
    rw [hdrain.done, hpass.requests, hpass.callRequest, hreturned]
  refine ⟨⟨hdrain.sound, hdrain.count.trans hpass.count, hdrain.calls.trans hpass.calls,
    hdrain.callRequest.trans hpass.callRequest, fun c hc => ?_, fun hfalse => ?_, fun r hr => ?_⟩,
    hdrain.returned, ?_, hdone⟩
  · have hmem := hpass.perm.mem_iff.mpr hc
    rcases List.mem_append.mp hmem with hmem | hmem
    · refine .inl ?_
      have hout : t.outstanding = t.available ++ t.owned ++ t.returned := rfl
      rw [hout, hdrain.available, hdrain.owned]
      exact List.mem_append_left _ hmem
    · exact .inr ((hdone _).mpr (.inr ⟨c, hreturned ▸ hmem, rfl⟩))
  · exact ⟨hdrain.returned, hfalse⟩
  · exact (hdone r).mpr (.inl hr)
  · rw [← hpass.view]
    simp only [view, hdrain.available, hdrain.owned, hdrain.returned]

theorem Polled.trans {result : Bool × BlkSystem} (h : Polled s request (false, t))
    (h' : Polled t request result) : Polled s request result where
  sound := h'.sound
  count := h'.count.trans h.count
  calls := h'.calls.trans h.calls
  callRequest := h'.callRequest.trans h.callRequest
  kept c hc := by
    rcases h.kept c hc with hc | hdone
    · rw [← h.callRequest]
      exact h'.kept c hc
    · exact .inr (h'.done _ hdone)
  gaveUp := h'.gaveUp
  done r hr := h'.done r (h.done r hr)

/-- The loop ends with success exactly when the device returns a chain of the request in time.
The chains drained so far are `earlier`. -/
theorem Sound.poll (h : s.Sound) (request : Nat) (device : Nat → List DeviceAction)
    (fuel spin : Nat) (earlier : List Chain)
    (hearlier : (s.requests request).done = true ↔
      ∃ c ∈ earlier, s.callRequest c.call = request)
    (hzero : fuel = 0 → s.returned = [] ∧ (s.requests request).done = false) :
    Polled s request (poll request device fuel spin s) ∧
      ((BlkSystem.poll request device fuel spin s).1 = true ↔
        ∃ c ∈ (((List.range' spin fuel).flatMap device).foldl DeviceView.step
          (s.view.after earlier)).returned, s.callRequest c.call = request) := by
  induction fuel generalizing s spin earlier with
  | zero =>
    obtain ⟨hreturned, hdone⟩ := hzero rfl
    refine ⟨⟨h, rfl, rfl, rfl, fun c hc => .inl hc, fun _ => ⟨hreturned, hdone⟩, fun _ hr => hr⟩,
      ?_⟩
    simpa [BlkSystem.poll, DeviceView.after, view, hreturned, hdone] using hearlier
  | succ fuel ih =>
    obtain ⟨hround, hreturned, hview, hdone⟩ := h.round request (device spin)
    rw [BlkSystem.poll]
    split
    · next hs =>
      refine ⟨⟨h, rfl, rfl, rfl, fun c hc => .inl hc, fun hfalse => (by cases hfalse),
        fun _ hr => hr⟩, fun _ => ?_, fun _ => rfl⟩
      obtain ⟨c, hc, hcr⟩ := hearlier.mp hs
      exact ⟨c, DeviceView.mem_returned_foldl (List.mem_append_left _ hc), hcr⟩
    next hs =>
    have hnone : ¬ ∃ c ∈ earlier, s.callRequest c.call = request := fun hc => hs (hearlier.mpr hc)
    -- What the drained chains and the device's later steps add up to.
    have hafter : (device spin).foldl DeviceView.step (s.view.after earlier) =
        ((((device spin).foldl BlkSystem.deviceStep s).drainUsed).view.after
          (earlier ++ ((device spin).foldl DeviceView.step s.view).returned)) := by
      rw [DeviceView.foldl_after, hview]
      simp [DeviceView.after]
    rw [List.range'_succ, List.flatMap_cons, List.foldl_append, hafter]
    dsimp only
    have hdone' := hdone request
    rw [or_iff_right hs] at hdone'
    split
    · next ht =>
      rw [ht] at hround
      refine ⟨hround, fun _ => ?_, fun _ => rfl⟩
      obtain ⟨c, hc, hcr⟩ := hdone'.mp ht
      exact ⟨c, DeviceView.mem_returned_foldl (List.mem_append_left _
        (List.mem_append_right _ hc)), hcr⟩
    · next ht =>
      have hfalse := Bool.eq_false_of_not_eq_true ht
      rw [hfalse] at hround
      have hnext := ih hround.sound (spin + 1)
        (earlier ++ ((device spin).foldl DeviceView.step s.view).returned) ?_
        fun _ => ⟨hreturned, hfalse⟩
      · refine ⟨hround.trans hnext.1, hnext.2.trans ?_⟩
        rw [hround.callRequest]
      · rw [hdone', hround.callRequest]
        constructor
        · rintro ⟨c, hc, hcr⟩
          exact ⟨c, List.mem_append_right _ hc, hcr⟩
        · rintro ⟨c, hc, hcr⟩
          rcases List.mem_append.mp hc with hc | hc
          · exact absurd ⟨c, hc, hcr⟩ hnone
          · exact ⟨c, hc, hcr⟩

end Os1.Virtio.BlkSystem
