import Os1.Irq.PciInterrupt
import Os1.Lib.Along

/-! Who holds each interrupt vector over whole runs, and which releases leave one behind. -/
namespace Os1.Irq

open IrqRegistry

namespace IrqRegistry

variable {s t u : IrqRegistry} {route : IrqRoute} {gone : IrqRoute → Bool} {p : Platform}
  {owner : DeviceId} {vector : BitVec 8} {memory : RouteMemory}

theorem frees_iff : frees route = true ↔ route.kind ≠ .legacyIsa := by
  unfold frees
  cases route.kind <;> simp [routeKindUsesDynamicVector]

theorem Same.trans (h : Same s t) (h' : Same t u) : Same s u :=
  ⟨h'.leases.trans h.leases, h'.count.trans h.count⟩

theorem Same.took (h : Same s t) (h' : Took t u route) : Took s u route :=
  ⟨h.leases ▸ h'.leases, h.count ▸ h'.count, h'.dynamic, h.leases ▸ h'.free⟩

theorem registers_refused : Registers owner vector s (false, s) := .inr ⟨rfl, .refl s⟩

theorem platformRouteIsaIrq_registers (p : Platform) (s : IrqRegistry) (owner : DeviceId)
    (busIrq : BitVec 32) (vector : BitVec 8) (memory : RouteMemory) :
    Registers owner vector s (s.platformRouteIsaIrq p owner busIrq vector memory) := by
  unfold platformRouteIsaIrq
  split
  · exact registers_refused
  split
  · exact registers_refused
  dsimp only
  split
  · exact registerRoute_registers s ⟨.legacyIsa, owner, vector, _, _, _, _⟩ memory
  · exact registers_refused

theorem platformRouteGsiIrq_registers (p : Platform) (s : IrqRegistry) (owner : DeviceId)
    (gsi : BitVec 32) (flags : BitVec 16) (vector : BitVec 8) (memory : RouteMemory) :
    Registers owner vector s (s.platformRouteGsiIrq p owner gsi flags vector memory) := by
  unfold platformRouteGsiIrq
  split
  · exact registers_refused
  split
  · exact registers_refused
  split
  · exact registerRoute_registers s ⟨.legacyIsa, owner, vector, _, _, _, _⟩ memory
  · exact registers_refused

/-- A change that releases no route. -/
inductive Grows (s t : IrqRegistry) : Prop where
  | same (h : Same s t)
  | took (route : IrqRoute) (h : Took s t route)
  | entered (route : IrqRoute) (h : Added s t route) (hr : route.vector ∉ dynamicVectors)

theorem Added.leases (h : Added s t route) : t.leases = s.leases.enter route := by
  rw [IrqRegistry.leases, h.vectors, h.routes]
  rfl

theorem Grows.move (h : Grows s t) :
    Leases.Move IrqRoute.vector dynamicVectors s.leases t.leases := by
  cases h with
  | same h => exact h.leases ▸ .stay _
  | took route h => exact h.leases ▸ .take _ route h.dynamic h.free
  | entered route h hr => exact h.leases ▸ .enter _ route hr h.fresh

theorem Took.routes (h : Took s t route) : t.routes = s.routes ++ [route] :=
  congrArg Leases.entries h.leases

theorem Grows.count (h : Grows s t) (hs : s.count = s.routes.length) :
    t.count = t.routes.length := by
  cases h with
  | same h =>
    have hroutes : t.routes = s.routes := congrArg Leases.entries h.leases
    rw [h.count, hroutes, hs]
  | took route h => simp [h.count, h.routes, hs]
  | entered route h => simp [h.count, h.routes, hs]

theorem Grows.tracked {fixed : Set (BitVec 8)} (h : Grows s t)
    (hs : s.leases.Tracked IrqRoute.vector dynamicVectors fixed) :
    t.leases.Tracked IrqRoute.vector dynamicVectors fixed := by
  cases h with
  | same h => exact h.leases ▸ hs
  | took route h => exact h.leases ▸ hs.take route
  | entered route h hr => exact h.leases ▸ hs.enter hr

theorem Dropped.move (h : Dropped s t gone) :
    Leases.Move IrqRoute.vector dynamicVectors s.leases t.leases :=
  h.leases ▸ .drop _ gone frees

/-- Taking a vector for a route and dropping that route alone. -/
theorem Took.round_trip (h : Took s t route) (hdrop : Dropped t u gone) (hgone : gone route)
    (hstay : ∀ q ∈ s.routes, ¬ gone q) : u.leases.taken = s.leases.taken ↔ frees route := by
  rw [hdrop.leases, h.leases]
  exact Leases.take_drop_taken_iff h.free hgone hstay

end IrqRegistry

namespace IrqSystem

variable {s t : IrqSystem} {p : Platform} {owner : DeviceId} {device : PciFunction}
  {sourceId : BitVec 16} {handler handle : Nat} {memory : RouteMemory}

/-! ## Enabling -/

/-- An attempt to enable leaves no trace in the registry, or takes a vector for a route of the
owner. -/
structure Attempt (s : IrqSystem) (owner : DeviceId)
    (result : Option PciInterruptHandle × IrqSystem) : Prop where
  ipi : result.2.ipi = s.ipi
  handles : result.2.handles = s.handles
  failed : result.1 = none → Same s.toIrqRegistry result.2.toIrqRegistry
  took : ∀ value, result.1 = some value → ∃ route, route.owner = owner ∧
    value.vector = route.vector ∧ Took s.toIrqRegistry result.2.toIrqRegistry route

theorem attempt_refused : Attempt s owner (none, s) :=
  ⟨rfl, rfl, fun _ => (Unchanged.refl _).same, fun _ h => by cases h⟩

theorem settle_attempt {vector : BitVec 8} {value : PciInterruptHandle}
    {register : IrqRegistry → Bool × IrqRegistry}
    (halloc : s.allocateHandlerVector handler = some (vector, t))
    (hregister : ∀ r, Registers owner vector r (register r)) (hvalue : value.vector = vector) :
    Attempt s owner (t.settle vector value register) := by
  obtain ⟨⟨_, vectors⟩, hfound, heq⟩ := Option.map_eq_some_iff.mp halloc
  cases heq
  have hspec := hregister
    ({ s with vectors := vectors }.setVectorHandler vector handler).toIrqRegistry
  unfold settle
  split
  · next registry hreg =>
    rw [hreg] at hspec
    obtain ⟨-, route, howner, hvector, hadded⟩ | ⟨hfalse, -⟩ := hspec
    · refine ⟨rfl, rfl, (fun h => by cases h), fun _ h => ?_⟩
      cases h
      exact ⟨route, howner, hvalue.trans hvector.symm, took_of_added hfound hadded hvector⟩
    · cases hfalse
  · next registry hreg =>
    rw [hreg] at hspec
    obtain ⟨htrue, -⟩ | ⟨-, hsame⟩ := hspec
    · cases htrue
    · exact ⟨rfl, rfl, fun _ => same_of_freed hfound hsame, fun _ h => by cases h⟩

theorem pciEnableMsixInterrupt_attempt (s : IrqSystem) (owner : DeviceId) (device : PciFunction)
    (sourceId : BitVec 16) (handler : Nat) (memory : RouteMemory) :
    Attempt s owner (s.pciEnableMsixInterrupt owner device sourceId handler memory) := by
  unfold pciEnableMsixInterrupt
  split
  · exact attempt_refused
  split
  · exact attempt_refused
  · next halloc =>
    exact settle_attempt halloc
      (fun r => registerRoute_registers r ⟨.msix, owner, _, _, _, _, sourceId⟩ memory) rfl

theorem pciEnableMsiInterrupt_attempt (s : IrqSystem) (owner : DeviceId) (device : PciFunction)
    (sourceId : BitVec 16) (handler : Nat) (memory : RouteMemory) :
    Attempt s owner (s.pciEnableMsiInterrupt owner device sourceId handler memory) := by
  unfold pciEnableMsiInterrupt
  split
  · exact attempt_refused
  split
  · exact attempt_refused
  · next halloc =>
    exact settle_attempt halloc
      (fun r => registerRoute_registers r ⟨.msi, owner, _, _, _, _, sourceId⟩ memory) rfl

theorem routeIntx_registers (vector : BitVec 8) (r : IrqRegistry) :
    Registers owner vector r (routeIntx p device owner vector memory r) := by
  unfold routeIntx
  split
  · split
    · exact platformRouteGsiIrq_registers p r owner _ _ vector memory
    · exact platformRouteIsaIrq_registers p r owner _ vector memory
  · exact platformRouteIsaIrq_registers p r owner _ vector memory

theorem pciEnableIntxInterrupt_attempt (p : Platform) (s : IrqSystem) (owner : DeviceId)
    (device : PciFunction) (sourceId : BitVec 16) (handler : Nat) (memory : RouteMemory) :
    Attempt s owner (s.pciEnableIntxInterrupt p owner device sourceId handler memory) := by
  unfold pciEnableIntxInterrupt
  split
  · exact attempt_refused
  split
  · exact attempt_refused
  split
  · exact attempt_refused
  · next halloc => exact settle_attempt halloc (routeIntx_registers _) rfl

/-- What `pci_enable_best_interrupt` leaves behind: an empty handle, or a handle to a new route. -/
structure Enabled (s t : IrqSystem) (handle : Nat) (owner : DeviceId) : Prop where
  ipi : t.ipi = s.ipi
  outcome : (Same s.toIrqRegistry t.toIrqRegistry ∧ (t.handles handle).vector = 0#8) ∨
    ∃ route, route.owner = owner ∧ (t.handles handle).vector = route.vector ∧
      Took s.toIrqRegistry t.toIrqRegistry route

/-- A successful attempt after attempts that left no trace. -/
theorem Attempt.enabled {value : PciInterruptHandle} {u : IrqSystem}
    (h : Attempt t owner (some value, u)) (hipi : t.ipi = s.ipi)
    (hsame : Same s.toIrqRegistry t.toIrqRegistry) :
    Enabled s (u.setHandle handle value) handle owner := by
  obtain ⟨route, howner, hvalue, htook⟩ := h.took value rfl
  refine ⟨h.ipi.trans hipi, .inr ⟨route, howner, ?_, hsame.took htook⟩⟩
  simpa [setHandle] using hvalue

theorem pciEnableBestInterrupt_enabled (p : Platform) (s : IrqSystem) (handle : Nat)
    (owner : DeviceId) (device : PciFunction) (sourceId : BitVec 16) (handler : Nat)
    (memory : IrqRouteKind → RouteMemory) :
    Enabled s (s.pciEnableBestInterrupt p handle owner device sourceId handler memory).2 handle
      owner := by
  have hsame : Same s.toIrqRegistry (s.setHandle handle {}).toIrqRegistry :=
    (Unchanged.refl _).same
  have hipi : (s.setHandle handle {}).ipi = s.ipi := rfl
  have hhandle : (s.setHandle handle {}).handles handle = {} := by simp [setHandle]
  unfold pciEnableBestInterrupt
  dsimp only
  generalize s.setHandle handle {} = start at hsame hipi hhandle
  have hmsix := start.pciEnableMsixInterrupt_attempt owner device sourceId handler (memory .msix)
  split
  · next hresult => exact (hresult ▸ hmsix).enabled hipi hsame
  next t hresult =>
  rw [hresult] at hmsix
  have hmsi := t.pciEnableMsiInterrupt_attempt owner device sourceId handler (memory .msi)
  have hsame := hsame.trans (hmsix.failed rfl)
  have hipi := hmsix.ipi.trans hipi
  split
  · next hresult => exact (hresult ▸ hmsi).enabled hipi hsame
  next u hresult =>
  rw [hresult] at hmsi
  have hintx := pciEnableIntxInterrupt_attempt p u owner device sourceId handler (memory .legacyIsa)
  have hsame := hsame.trans (hmsi.failed rfl)
  have hipi := hmsi.ipi.trans hipi
  split
  · next hresult => exact (hresult ▸ hintx).enabled hipi hsame
  next hresult =>
  rw [hresult] at hintx
  refine ⟨hintx.ipi.trans hipi, .inl ⟨hsame.trans (hintx.failed rfl), ?_⟩⟩
  rw [hintx.handles, hmsi.handles, hmsix.handles, hhandle]

/-! ## Steps -/

/-- The routes that an action takes out of the registry. -/
def released (s : IrqSystem) : IrqAction → IrqRoute → Bool
  | .release handle => fun route =>
    (s.handles handle).vector ≠ 0#8 ∧ route.vector = (s.handles handle).vector
  | .releaseOwner owner => fun route => route.owner = owner
  | _ => fun _ => false

/-- The action takes out no legacy route that runs on a vector of the dynamic window. -/
def SparesIntx (s : IrqSystem) (a : IrqAction) : Prop :=
  ∀ route ∈ s.routes, s.released a route → irqVectorIsAllocatable route.vector →
    route.kind ≠ .legacyIsa

/-- A vector of the dynamic window is marked allocated exactly when it belongs to an inter-processor
interrupt or to a route. -/
def VectorsTracked (s : IrqSystem) : Prop :=
  ∀ v, irqVectorIsAllocatable v →
    (irqVectorIsAllocated s.vectors v ↔
      v ∈ IpiVectors.vectors s.ipi ∨ ∃ route ∈ s.routes, route.vector = v)

/-- The vectors that the allocator can still hand out. -/
def freeVectors (s : IrqSystem) : Set (BitVec 8) :=
  {v | irqVectorIsAllocatable v ∧ ¬ irqVectorIsAllocated s.vectors v}

structure Sound (s : IrqSystem) : Prop where
  leases : s.leases.Sound IrqRoute.vector dynamicVectors {v | v ∈ IpiVectors.vectors s.ipi}
  count : s.count = s.routes.length

variable {a : IrqAction} {actions : List IrqAction}

theorem legacy_not_dynamic (irq : Fin 16) : tIrq0 + BitVec.ofNat 8 irq ∉ dynamicVectors := by
  revert irq
  simp only [dynamicVectors, Set.mem_setOf_eq]
  decide

theorem Enabled.grows (h : Enabled s t handle owner) : Grows s.toIrqRegistry t.toIrqRegistry := by
  obtain ⟨hsame, -⟩ | ⟨route, -, -, htook⟩ := h.outcome
  · exact .same hsame
  · exact .took route htook

theorem pciReleaseInterrupt_dropped (hdistinct : (s.routes.map IrqRoute.vector).Nodup)
    (handle : Nat) :
    Dropped s.toIrqRegistry (s.pciReleaseInterrupt handle).toIrqRegistry
      (s.released (.release handle)) := by
  unfold pciReleaseInterrupt released
  dsimp only
  split
  · next hvector =>
    simp only [hvector, ne_eq, not_false_eq_true, true_and]
    exact platformReleaseIrqRoute_spec hdistinct _
  · next hvector =>
    have hstay : ∀ q ∈ s.leases.entries, ¬ decide ((s.handles handle).vector ≠ 0#8 ∧
        q.vector = (s.handles handle).vector) = true := by
      simp [hvector]
    exact ⟨(Leases.drop_of_stay hstay).symm, id⟩

/-- An action that releases nothing lets the registry grow; a release drops what it names. -/
theorem step_cases (p : Platform) (hdistinct : (s.routes.map IrqRoute.vector).Nodup)
    (a : IrqAction) :
    (Grows s.toIrqRegistry (s.step p a).toIrqRegistry ∧ ∀ route, ¬ s.released a route) ∨
      Dropped s.toIrqRegistry (s.step p a).toIrqRegistry (s.released a) := by
  cases a with
  | routeLegacy owner irq memory =>
    refine .inl ⟨?_, by simp [released]⟩
    have hspec := platformRouteIsaIrq_registers p s.toIrqRegistry owner (BitVec.ofNat 32 irq)
      (tIrq0 + BitVec.ofNat 8 irq) memory
    obtain ⟨-, route, -, hvector, hadded⟩ | ⟨-, hsame⟩ := hspec
    · exact .entered route hadded (hvector ▸ legacy_not_dynamic irq)
    · exact .same hsame.same
  | allocateLocalApic owner sourceId memory =>
    refine .inl ⟨?_, by simp [released]⟩
    obtain hsame | ⟨route, htook⟩ :=
      s.platformAllocateLocalApicIrqRoute_spec owner sourceId memory
    · exact .same hsame
    · exact .took route htook
  | enable handle owner device sourceId handler memory =>
    exact .inl ⟨(pciEnableBestInterrupt_enabled p s handle owner device sourceId handler
      memory).grows, by simp [released]⟩
  | release handle => exact .inr (pciReleaseInterrupt_dropped hdistinct handle)
  | releaseOwner owner => exact .inr (s.platformReleaseIrqRoutesForOwner_spec owner)

theorem step_ipi (p : Platform) (s : IrqSystem) (a : IrqAction) : (s.step p a).ipi = s.ipi := by
  cases a with
  | enable handle owner device sourceId handler memory =>
    exact (pciEnableBestInterrupt_enabled p s handle owner device sourceId handler memory).ipi
  | release handle =>
    simp only [step, pciReleaseInterrupt]
    split <;> rfl
  | _ => rfl

theorem step_move (p : Platform) (h : s.Sound) (a : IrqAction) :
    Leases.Move IrqRoute.vector dynamicVectors s.leases (s.step p a).leases := by
  obtain ⟨hgrows, -⟩ | hdropped := step_cases p h.leases.distinct a
  · exact hgrows.move
  · exact hdropped.move

theorem Sound.step (p : Platform) (h : s.Sound) (a : IrqAction) : (s.step p a).Sound where
  leases := by
    rw [step_ipi]
    exact (step_move p h a).sound h.leases
  count := by
    obtain ⟨hgrows, -⟩ | hdropped := step_cases p h.leases.distinct a
    · exact hgrows.count h.count
    · exact hdropped.count h.count

theorem sparesIntx_iff : s.SparesIntx a ↔
    s.leases.Returned IrqRoute.vector dynamicVectors (s.released a) frees := by
  simp only [SparesIntx, Leases.Returned, frees_iff]
  rfl

/-- A step keeps the vectors tracked exactly when it spares the routes of INTx interrupts. -/
theorem Sound.tracked_step_iff (p : Platform) (h : s.Sound) (ht : s.VectorsTracked)
    (a : IrqAction) : (s.step p a).VectorsTracked ↔ s.SparesIntx a := by
  have htracked : s.leases.Tracked IrqRoute.vector dynamicVectors
    {v | v ∈ IpiVectors.vectors s.ipi} := ht
  have hgoal : (s.step p a).VectorsTracked ↔ (s.step p a).leases.Tracked IrqRoute.vector
      dynamicVectors {v | v ∈ IpiVectors.vectors s.ipi} := by
    rw [← step_ipi p s a]
    rfl
  rw [hgoal, sparesIntx_iff]
  obtain ⟨hgrows, hnone⟩ | hdropped := step_cases p h.leases.distinct a
  · exact ⟨fun _ r _ hr => absurd hr (hnone r), fun _ => hgrows.tracked htracked⟩
  · rw [hdropped.leases]
    exact h.leases.tracked_drop_iff htracked

/-- Once a vector has leaked, it stays so. -/
theorem Sound.leaked_step (p : Platform) (h : s.Sound) (ht : ¬ s.VectorsTracked) (a : IrqAction) :
    ¬ (s.step p a).VectorsTracked := by
  have hleaks : s.leases.Leaks IrqRoute.vector dynamicVectors
      {v | v ∈ IpiVectors.vectors s.ipi} :=
    not_not.mp fun hno => ht (h.leases.tracked_iff.mpr hno)
  have hstep := (step_move p h a).leaks hleaks
  rw [← step_ipi p s a] at hstep
  exact fun htracked => (h.step p a).leases.tracked_iff.mp htracked hstep

/-! ## Runs -/

theorem boot_tracked : boot.VectorsTracked := by
  have hbits : ∀ v, irqVectorIsAllocatable v → (irqVectorIsAllocated boot.vectors v ↔
      v ∈ IpiVectors.vectors boot.ipi) := by
    decide +kernel
  intro v hv
  rw [hbits v hv]
  simp [boot]

theorem boot_sound : boot.Sound where
  leases :=
    { distinct := List.nodup_nil
      held := fun _ h => by cases h
      fixed_taken := by
        have : ∀ v ∈ IpiVectors.vectors boot.ipi, irqVectorIsAllocatable v ∧
          irqVectorIsAllocated boot.vectors v := by decide +kernel
        exact this
      apart := fun _ h => by cases h }
  count := rfl

theorem run_sound (p : Platform) (actions : List IrqAction) : (run p actions).Sound := by
  unfold run
  have hall : ∀ (s : IrqSystem), s.Sound → (actions.foldl (step p) s).Sound := by
    induction actions with
    | nil => exact fun _ h => h
    | cons a actions ih => exact fun s h => ih _ (h.step p a)
  exact hall boot boot_sound

theorem freeVectors_eq_iff : s.freeVectors = t.freeVectors ↔ s.leases.taken = t.leases.taken := by
  constructor
  · intro h
    ext v
    have hv := Set.ext_iff.mp h v
    simp only [freeVectors, Set.mem_setOf_eq] at hv
    by_cases halloc : irqVectorIsAllocatable v = true
    · simpa [halloc, mem_taken, not_iff_not] using hv
    · exact ⟨fun hs => absurd (allocatable_of_allocated hs) halloc,
        fun ht => absurd (allocatable_of_allocated ht) halloc⟩
  · intro h
    ext v
    exact and_congr_right fun _ => not_congr (Set.ext_iff.mp h v)

/-- Enabling and a release of just what it added restore the free vectors exactly when the release
spares INTx. -/
theorem Enabled.round_trip {e : IrqSystem} (h : Enabled s e handle owner)
    (hdrop : Dropped e.toIrqRegistry t.toIrqRegistry (e.released a))
    (hstay : ∀ q ∈ s.routes, ¬ e.released a q)
    (hgone : ∀ route, Took s.toIrqRegistry e.toIrqRegistry route → route.owner = owner →
      (e.handles handle).vector = route.vector → e.released a route) :
    t.freeVectors = s.freeVectors ↔ e.SparesIntx a := by
  rw [freeVectors_eq_iff, sparesIntx_iff]
  obtain ⟨hsame, -⟩ | ⟨route, howner, hvector, htook⟩ := h.outcome
  · have hnone : ∀ q ∈ e.leases.entries, ¬ e.released a q := hsame.leases ▸ hstay
    refine ⟨fun _ q hq hr => absurd hr (hnone q hq), fun _ => ?_⟩
    rw [hdrop.leases, Leases.drop_of_stay hnone, hsame.leases]
  · have hroute := hgone route htook howner hvector
    rw [htook.round_trip hdrop hroute hstay]
    constructor
    · intro hfrees q hq hr _
      rw [htook.leases] at hq
      rcases List.mem_append.mp hq with hq | hq
      · exact absurd hr (hstay q hq)
      · exact List.mem_singleton.mp hq ▸ hfrees
    · intro hret
      refine hret route ?_ hroute htook.dynamic
      rw [htook.leases]
      exact List.mem_append_right _ (List.mem_singleton_self route)

theorem Enabled.release_stays {e : IrqSystem} (h : Enabled s e handle owner) (hs : s.Sound) :
    ∀ q ∈ s.routes, ¬ e.released (.release handle) q := by
  intro q hq hgone
  simp only [released, decide_eq_true_eq] at hgone
  obtain ⟨-, hzero⟩ | ⟨route, -, hvector, htook⟩ := h.outcome
  · exact hgone.1 hzero
  · have heq : q.vector = route.vector := hgone.2.trans hvector
    exact htook.free (heq ▸ hs.leases.held q hq (heq ▸ htook.dynamic))

/-- Vectors stay tracked along a run exactly when it releases no INTx interrupt. In every run the
routes have distinct vectors and are counted right, and enabling an interrupt and then releasing it
restores the free vectors exactly when it is not an INTx one. -/
theorem vectors_tracked_iff (p : Platform) (actions : List IrqAction) :
    ((run p actions).VectorsTracked ↔ Along (step p) SparesIntx boot actions) ∧
      ((run p actions).routes.map IrqRoute.vector).Nodup ∧
      (run p actions).count = (run p actions).routes.length ∧
      ∀ handle owner device sourceId handler memory,
        let enabled := ((run p actions).pciEnableBestInterrupt p handle owner device sourceId
          handler memory).2
        ((enabled.step p (.release handle)).freeVectors = (run p actions).freeVectors ↔
            enabled.SparesIntx (.release handle)) ∧
          ((∀ route ∈ (run p actions).routes, route.owner ≠ owner) →
            ((enabled.step p (.releaseOwner owner)).freeVectors = (run p actions).freeVectors ↔
              enabled.SparesIntx (.releaseOwner owner))) := by
  have hsound := run_sound p actions
  refine ⟨Along.iff_of_lasting Sound VectorsTracked (fun _ a h => h.step p a)
    (fun _ a h ht => h.tracked_step_iff p ht a) (fun _ a h ht => h.leaked_step p ht a) boot_sound
    boot_tracked, hsound.leases.distinct, hsound.count, ?_⟩
  intro handle owner device sourceId handler memory
  have henabled := pciEnableBestInterrupt_enabled p (run p actions) handle owner device sourceId
    handler memory
  have hnext := hsound.step p (.enable handle owner device sourceId handler memory)
  constructor
  · refine henabled.round_trip (pciReleaseInterrupt_dropped hnext.leases.distinct handle)
      (henabled.release_stays hsound) fun route htook _ hvector => ?_
    have hne : route.vector ≠ 0#8 := by
      intro hzero
      have := htook.dynamic
      rw [hzero] at this
      simp [dynamicVectors, irqVectorIsAllocatable, kDynamicIrqVectorBase] at this
    simp [released, hvector, hne]
  · intro hnone
    refine henabled.round_trip (platformReleaseIrqRoutesForOwner_spec _ owner) ?_
      fun route _ howner _ => by simp [released, howner]
    simpa [released] using hnone

instance (s : IrqSystem) (a : IrqAction) : Decidable (s.SparesIntx a) :=
  inferInstanceAs (Decidable (∀ route ∈ s.routes, s.released a route →
    irqVectorIsAllocatable route.vector → route.kind ≠ .legacyIsa))

/-- One I/O APIC with 24 inputs and no overrides. -/
def smallPlatform : Platform := ⟨true, true, 0#32, some 23#32, []⟩

def enableFor (index : BitVec 16) (device : PciFunction) : IrqAction :=
  .enable index.toNat ⟨.pci, index⟩ device 0#16 index.toNat fun _ => {}

/-- A device with an interrupt pin on line 11 and no message interrupts. -/
def lineDevice : PciFunction := { interruptPin := 1#8, interruptLine := 11#8 }

/-- A device that can do both. -/
def messageDevice : PciFunction := { lineDevice with msiOffset := some 0x50#8 }

/-- An INTx interrupt stays enabled while a message interrupt comes and goes. -/
theorem vectors_tracked_iff_beside_intx :
    (run smallPlatform [enableFor 1 lineDevice, enableFor 2 messageDevice,
      .release 2]).VectorsTracked ∧
    (step smallPlatform (run smallPlatform [enableFor 1 lineDevice, enableFor 2 messageDevice])
      (.releaseOwner ⟨.pci, 2⟩)).freeVectors =
        (run smallPlatform [enableFor 1 lineDevice]).freeVectors :=
  ⟨(vectors_tracked_iff smallPlatform _).1.mpr
      ⟨by decide +kernel, by decide +kernel, by decide +kernel, trivial⟩,
    (((vectors_tracked_iff smallPlatform [enableFor 1 lineDevice]).2.2.2 2 ⟨.pci, 2⟩ messageDevice
      0#16 2 fun _ => {}).2 (by decide +kernel)).mpr (by decide +kernel)⟩

/-- Enabling and releasing one INTx interrupt leaves vector 0x52 allocated for nobody. -/
theorem intx_release_leaks :
    let s := run smallPlatform [enableFor 1 lineDevice, .release 1]
    irqVectorIsAllocated s.vectors 0x52#8 = true ∧ s.routes = [] ∧
      IpiVectors.vectors s.ipi = [0x50#8, 0x51#8] ∧ ¬ s.VectorsTracked ∧
      s.freeVectors ≠ boot.freeVectors := by
  have hmark : irqVectorIsAllocated (run smallPlatform
      [enableFor 1 lineDevice, .release 1]).vectors 0x52#8 = true := by
    decide +kernel
  have hroutes : (run smallPlatform [enableFor 1 lineDevice, .release 1]).routes = [] := by
    decide +kernel
  have hipi : IpiVectors.vectors (run smallPlatform
      [enableFor 1 lineDevice, .release 1]).ipi = [0x50#8, 0x51#8] := by
    decide +kernel
  refine ⟨hmark, hroutes, hipi, fun htracked => ?_, fun hfree => ?_⟩
  · have := (htracked 0x52#8 (by decide)).mp hmark
    rw [hroutes, hipi] at this
    simp at this
  · have hboot : (0x52#8) ∈ boot.freeVectors := ⟨by decide, by decide +kernel⟩
    exact (hfree ▸ hboot).2 hmark

end IrqSystem
end Os1.Irq
