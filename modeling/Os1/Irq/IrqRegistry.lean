import Os1.Irq.VectorAllocator
import Os1.Lib.Leases

/-! The registry of interrupt routes, which decides by the kind of a route who frees its vector. -/
namespace Os1.Irq

inductive DeviceBus where
  | platform
  | pci
  | acpi
  deriving DecidableEq, Repr

structure DeviceId where
  bus : DeviceBus
  index : BitVec 16
  deriving DecidableEq, Repr

inductive IrqRouteKind where
  | legacyIsa
  | localApic
  | msi
  | msix
  deriving DecidableEq, Repr

structure IrqRoute where
  kind : IrqRouteKind
  owner : DeviceId
  vector : BitVec 8
  sourceIrq : BitVec 8
  flags : BitVec 16
  gsi : BitVec 32
  sourceId : BitVec 16
  deriving DecidableEq, Repr

/-- `route_kind_uses_dynamic_vector` -/
def routeKindUsesDynamicVector : IrqRouteKind → Bool
  | .localApic | .msi | .msix => true
  | .legacyIsa => false

/-- Which allocations of a registration succeed: the snapshot array, the node cache, the node. -/
structure RouteMemory where
  snapshot : Bool := true
  cache : Bool := true
  node : Bool := true
  deriving DecidableEq, Repr

/-- The route list from head to tail beside the vector bitmap; `cache` says that the node cache has
been created. -/
structure IrqRegistry where
  vectors : Bitmap.Words := fun _ => 0#64
  cache : Bool := false
  routes : List IrqRoute := []
  snapshotCapacity : Nat := 0
  count : Nat := 0

namespace IrqRegistry

/-- The growth loop of `ensure_snapshot_capacity`, at most `fuel` doublings. -/
def doubleUntil (required : Nat) : Nat → Nat → Nat
  | 0, capacity => capacity
  | fuel + 1, capacity =>
    if capacity < required then doubleUntil required fuel (capacity * 2) else capacity

/-- `ensure_snapshot_capacity` -/
def ensureSnapshotCapacity (s : IrqRegistry) (required : Nat) (allocated : Bool) :
    Bool × IrqRegistry :=
  if required ≤ s.snapshotCapacity then (true, s)
  else if allocated then
    let capacity := if s.snapshotCapacity = 0 then 4 else s.snapshotCapacity
    (true, { s with snapshotCapacity := doubleUntil required required capacity })
  else (false, s)

/-- `ensure_irq_route_cache` -/
def ensureIrqRouteCache (s : IrqRegistry) (created : Bool) : Bool × IrqRegistry :=
  if s.cache then (true, s) else (created, { s with cache := created })

/-- `find_route_locked` -/
def findRoute (s : IrqRegistry) (vector : BitVec 8) : Option IrqRoute :=
  s.routes.find? fun route => route.vector = vector

/-- `register_route` with `reserve_route_slot_locked`. -/
def registerRoute (s : IrqRegistry) (route : IrqRoute) (memory : RouteMemory) :
    Bool × IrqRegistry :=
  if !interruptVectorIsExternal route.vector then (false, s)
  else if (s.findRoute route.vector).isSome then (false, s)
  else
    match s.ensureSnapshotCapacity (s.count + 1) memory.snapshot with
    | (false, s) => (false, s)
    | (true, s) =>
      match s.ensureIrqRouteCache memory.cache with
      | (false, s) => (false, s)
      | (true, s) =>
        if memory.node then
          (true, { s with routes := s.routes ++ [route], count := s.count + 1 })
        else (false, s)

/-- `platform_register_isa_irq_route` -/
def platformRegisterIsaIrqRoute (s : IrqRegistry) (owner : DeviceId) (sourceIrq : BitVec 8)
    (gsi : BitVec 32) (flags : BitVec 16) (vector : BitVec 8) (memory : RouteMemory) :
    Bool × IrqRegistry :=
  s.registerRoute ⟨.legacyIsa, owner, vector, sourceIrq, flags, gsi, 0#16⟩ memory

/-- A route that carries no line number. -/
def registerMessageRoute (kind : IrqRouteKind) (s : IrqRegistry) (owner : DeviceId)
    (sourceId : BitVec 16) (vector : BitVec 8) (memory : RouteMemory) : Bool × IrqRegistry :=
  s.registerRoute ⟨kind, owner, vector, 0#8, 0#16, 0#32, sourceId⟩ memory

/-- `platform_register_local_apic_irq_route` -/
def platformRegisterLocalApicIrqRoute := registerMessageRoute .localApic

/-- `platform_register_msi_irq_route` -/
def platformRegisterMsiIrqRoute := registerMessageRoute .msi

/-- `platform_register_msix_irq_route` -/
def platformRegisterMsixIrqRoute := registerMessageRoute .msix

/-- `platform_allocate_local_apic_irq_route` -/
def platformAllocateLocalApicIrqRoute (s : IrqRegistry) (owner : DeviceId) (sourceId : BitVec 16)
    (memory : RouteMemory) : Option (BitVec 8) × IrqRegistry :=
  match irqAllocateVector s.vectors with
  | none => (none, s)
  | some (vector, vectors) =>
    match { s with vectors := vectors }.platformRegisterLocalApicIrqRoute owner sourceId vector
      memory with
    | (true, s) => (some vector, s)
    | (false, s) => (none, { s with vectors := (irqFreeVector s.vectors vector).2 })

/-- What a release does with the vector of a route. -/
def freeRouteVector (vectors : Bitmap.Words) (route : IrqRoute) : Bitmap.Words :=
  if routeKindUsesDynamicVector route.kind && irqVectorIsAllocated vectors route.vector then
    (irqFreeVector vectors route.vector).2
  else vectors

/-- `platform_release_irq_route` -/
def platformReleaseIrqRoute (s : IrqRegistry) (vector : BitVec 8) : Bool × IrqRegistry :=
  match s.findRoute vector with
  | none => (false, s)
  | some route =>
    (true, { s with
      vectors := freeRouteVector s.vectors route
      routes := s.routes.eraseP fun route => route.vector = vector
      count := s.count - 1 })

/-- The loop of `platform_release_irq_routes_for_owner` over the nodes that are left. -/
def releaseOwned (owner : DeviceId) :
    Bitmap.Words → Nat → List IrqRoute → Bitmap.Words × Nat × List IrqRoute
  | vectors, count, [] => (vectors, count, [])
  | vectors, count, route :: rest =>
    if route.owner = owner then
      releaseOwned owner (freeRouteVector vectors route) (count - 1) rest
    else
      let (vectors, count, rest) := releaseOwned owner vectors count rest
      (vectors, count, route :: rest)

/-- `platform_release_irq_routes_for_owner` -/
def platformReleaseIrqRoutesForOwner (s : IrqRegistry) (owner : DeviceId) : IrqRegistry :=
  let (vectors, count, routes) := releaseOwned owner s.vectors s.count s.routes
  { s with vectors := vectors, count := count, routes := routes }

/-! ## The registry as a lease of vectors -/

/-- The vectors marked allocated, and the routes that hold vectors. -/
def leases (s : IrqRegistry) : Leases (BitVec 8) IrqRoute :=
  ⟨{v | irqVectorIsAllocated s.vectors v}, s.routes⟩

/-- The vectors of the dynamic window. -/
def dynamicVectors : Set (BitVec 8) := {v | irqVectorIsAllocatable v}

/-- The kinds of route whose release frees the vector. -/
def frees (route : IrqRoute) : Bool := routeKindUsesDynamicVector route.kind

/-- Nothing but the registry's own memory has changed. -/
structure Unchanged (s t : IrqRegistry) : Prop where
  vectors : t.vectors = s.vectors
  routes : t.routes = s.routes
  count : t.count = s.count

/-- The route is the new last one, and no earlier route has its vector. -/
structure Added (s t : IrqRegistry) (route : IrqRoute) : Prop where
  vectors : t.vectors = s.vectors
  routes : t.routes = s.routes ++ [route]
  count : t.count = s.count + 1
  fresh : ∀ q ∈ s.routes, q.vector ≠ route.vector

/-- A registration for a vector adds a route of the owner or leaves the routes as they are. -/
def Registers (owner : DeviceId) (vector : BitVec 8) (s : IrqRegistry)
    (result : Bool × IrqRegistry) : Prop :=
  (result.1 = true ∧ ∃ route, route.owner = owner ∧ route.vector = vector ∧
      Added s result.2 route) ∨
    (result.1 = false ∧ Unchanged s result.2)

/-- The same vectors are allocated, for the same routes. -/
structure Same (s t : IrqRegistry) : Prop where
  leases : t.leases = s.leases
  count : t.count = s.count

/-- A free vector of the window has been taken for a new route. -/
structure Took (s t : IrqRegistry) (route : IrqRoute) : Prop where
  leases : t.leases = s.leases.take IrqRoute.vector route
  count : t.count = s.count + 1
  dynamic : route.vector ∈ dynamicVectors
  free : route.vector ∉ s.leases.taken

/-- The routes that `gone` selects have left, with the vectors of those that free them. -/
structure Dropped (s t : IrqRegistry) (gone : IrqRoute → Bool) : Prop where
  leases : t.leases = s.leases.drop IrqRoute.vector gone frees
  count : s.count = s.routes.length → t.count = t.routes.length

variable {s t : IrqRegistry} {route : IrqRoute} {memory : RouteMemory} {vector : BitVec 8}

theorem mem_taken {v : BitVec 8} : v ∈ s.leases.taken ↔ irqVectorIsAllocated s.vectors v := Iff.rfl

theorem Unchanged.refl (s : IrqRegistry) : Unchanged s s := ⟨rfl, rfl, rfl⟩

theorem Unchanged.trans {u : IrqRegistry} (h : Unchanged s t) (h' : Unchanged t u) :
    Unchanged s u :=
  ⟨h'.vectors.trans h.vectors, h'.routes.trans h.routes, h'.count.trans h.count⟩

theorem Unchanged.same (h : Unchanged s t) : Same s t :=
  ⟨by rw [leases, leases, h.vectors, h.routes], h.count⟩

theorem ensureSnapshotCapacity_spec (s : IrqRegistry) (required : Nat) (allocated : Bool) :
    Unchanged s (s.ensureSnapshotCapacity required allocated).2 := by
  unfold ensureSnapshotCapacity
  split
  · exact .refl s
  · split <;> exact ⟨rfl, rfl, rfl⟩

theorem ensureIrqRouteCache_spec (s : IrqRegistry) (created : Bool) :
    Unchanged s (s.ensureIrqRouteCache created).2 := by
  unfold ensureIrqRouteCache
  split <;> exact ⟨rfl, rfl, rfl⟩

theorem findRoute_isNone : (s.findRoute vector).isSome = false ↔
    ∀ q ∈ s.routes, q.vector ≠ vector := by
  simp [findRoute]

theorem registerRoute_registers (s : IrqRegistry) (route : IrqRoute) (memory : RouteMemory) :
    Registers route.owner route.vector s (s.registerRoute route memory) := by
  unfold registerRoute
  split
  · exact .inr ⟨rfl, .refl s⟩
  split
  · exact .inr ⟨rfl, .refl s⟩
  next hfind =>
  have hfresh := findRoute_isNone.mp (Bool.eq_false_of_not_eq_true hfind)
  have hgrown := s.ensureSnapshotCapacity_spec (s.count + 1) memory.snapshot
  split
  · next hfail =>
    rw [hfail] at hgrown
    exact .inr ⟨rfl, hgrown⟩
  next grown hgrow =>
  rw [hgrow] at hgrown
  have hcached := hgrown.trans (grown.ensureIrqRouteCache_spec memory.cache)
  split
  · next hfail =>
    rw [hfail] at hcached
    exact .inr ⟨rfl, hcached⟩
  next cached hcache =>
  rw [hcache] at hcached
  split
  · exact .inl ⟨rfl, route, rfl, rfl, hcached.vectors, congrArg (· ++ [route]) hcached.routes,
      congrArg (· + 1) hcached.count, hfresh⟩
  · exact .inr ⟨rfl, hcached⟩

/-! ## A vector taken for a route -/

/-- A route added on a vector just handed out. -/
theorem took_of_added {vectors : Bitmap.Words}
    (halloc : irqAllocateVector s.vectors = some (vector, vectors))
    (h : Added { s with vectors := vectors } t route) (hroute : route.vector = vector) :
    Took s t route := by
  obtain ⟨hdynamic, hfree, hmarks⟩ := irqAllocateVector_spec halloc
  subst hroute
  refine ⟨?_, h.count, hdynamic, by simp [mem_taken, hfree]⟩
  rw [leases, h.vectors, h.routes]
  exact congrArg (fun taken => Leases.mk taken (s.routes ++ [route])) (Set.ext hmarks)

/-- A vector handed out and freed again without a route. -/
theorem same_of_freed {vectors : Bitmap.Words}
    (halloc : irqAllocateVector s.vectors = some (vector, vectors))
    (h : Unchanged { s with vectors := vectors } t) :
    Same s { t with vectors := (irqFreeVector t.vectors vector).2 } := by
  obtain ⟨-, hfree, hmarks⟩ := irqAllocateVector_spec halloc
  refine ⟨?_, h.count⟩
  rw [leases, leases, h.vectors, h.routes]
  refine congrArg (fun taken => Leases.mk taken s.routes) (Set.ext fun w => ?_)
  simp only [Set.mem_setOf_eq, irqFreeVector_spec, hmarks]
  constructor
  · rintro ⟨rfl | hw, hne⟩
    · exact absurd rfl hne
    · exact hw
  · intro hw
    refine ⟨.inr hw, ?_⟩
    rintro rfl
    simp [hfree] at hw

theorem platformAllocateLocalApicIrqRoute_spec (s : IrqRegistry) (owner : DeviceId)
    (sourceId : BitVec 16) (memory : RouteMemory) :
    Same s (s.platformAllocateLocalApicIrqRoute owner sourceId memory).2 ∨
      ∃ route, Took s (s.platformAllocateLocalApicIrqRoute owner sourceId memory).2 route := by
  unfold platformAllocateLocalApicIrqRoute
  split
  · exact .inl (Unchanged.refl s).same
  next vector vectors halloc =>
  have hspec := registerRoute_registers { s with vectors := vectors }
    ⟨.localApic, owner, vector, 0#8, 0#16, 0#32, sourceId⟩ memory
  simp only [platformRegisterLocalApicIrqRoute, registerMessageRoute]
  split
  · next hreg =>
    rw [hreg] at hspec
    obtain ⟨-, route, -, hvector, hadded⟩ | ⟨hfalse, -⟩ := hspec
    · exact .inr ⟨route, took_of_added halloc hadded hvector⟩
    · cases hfalse
  · next hreg =>
    rw [hreg] at hspec
    obtain ⟨htrue, -⟩ | ⟨-, hsame⟩ := hspec
    · cases htrue
    · exact .inl (same_of_freed halloc hsame)

/-! ## Release -/

theorem freeRouteVector_spec (vectors : Bitmap.Words) (route : IrqRoute) (w : BitVec 8) :
    irqVectorIsAllocated (freeRouteVector vectors route) w ↔
      irqVectorIsAllocated vectors w ∧ ¬ (frees route ∧ route.vector = w) := by
  unfold freeRouteVector frees
  split
  · next h =>
    rw [irqFreeVector_spec]
    simp only [Bool.and_eq_true] at h
    refine and_congr_right fun _ => ?_
    simp [h.1, eq_comm]
  · next h =>
    simp only [Bool.and_eq_true, not_and] at h
    refine ⟨fun hw => ⟨hw, ?_⟩, And.left⟩
    rintro ⟨hkind, rfl⟩
    exact h hkind hw

/-- With distinct vectors the released route is the only one of its vector. -/
theorem platformReleaseIrqRoute_spec (hdistinct : (s.routes.map IrqRoute.vector).Nodup)
    (vector : BitVec 8) :
    Dropped s (s.platformReleaseIrqRoute vector).2 fun route => route.vector = vector := by
  unfold platformReleaseIrqRoute
  split
  · next hnone =>
    have hstay : ∀ q ∈ s.leases.entries, ¬ decide (q.vector = vector) = true := by
      intro q hq
      simpa using List.find?_eq_none.mp hnone q hq
    exact ⟨(Leases.drop_of_stay hstay).symm, id⟩
  · next route hfound =>
    have hmem := List.mem_of_find?_eq_some hfound
    have hvector : route.vector = vector := by simpa using List.find?_some hfound
    refine ⟨?_, fun hcount => ?_⟩
    · refine congrArg₂ Leases.mk (Set.ext fun w => ?_) (Leases.eraseP_token hdistinct vector)
      refine (freeRouteVector_spec s.vectors route w).trans (and_congr_right fun _ => not_congr ?_)
      constructor
      · exact fun h => ⟨route, hmem, by simpa using hvector, h⟩
      · rintro ⟨q, hq, hgone, h⟩
        have heq : q.vector = vector := by simpa using hgone
        have : q = route :=
          List.inj_on_of_nodup_map hdistinct hq hmem (heq.trans hvector.symm)
        exact this ▸ h
    · rw [hcount]
      exact (List.length_eraseP_of_mem hmem (by simpa using hvector)).symm

/-- The loop frees the vectors of the owner's routes and keeps the other routes in order. -/
theorem releaseOwned_spec (owner : DeviceId) (vectors : Bitmap.Words) (count : Nat)
    (routes : List IrqRoute) :
    (releaseOwned owner vectors count routes).2.2 =
        routes.filter (fun route => !decide (route.owner = owner)) ∧
      (∀ others, count = others + routes.length →
        (releaseOwned owner vectors count routes).2.1 =
          others + (releaseOwned owner vectors count routes).2.2.length) ∧
      ∀ w, irqVectorIsAllocated (releaseOwned owner vectors count routes).1 w ↔
        irqVectorIsAllocated vectors w ∧
          ¬ ∃ route ∈ routes, route.owner = owner ∧ frees route ∧ route.vector = w := by
  induction routes generalizing vectors count with
  | nil => simp [releaseOwned]
  | cons route rest ih =>
    rw [releaseOwned]
    split
    · next howner =>
      obtain ⟨hroutes, hcount, hmarks⟩ := ih (freeRouteVector vectors route) (count - 1)
      refine ⟨by rw [hroutes]; simp [howner], fun others hlen => ?_, fun w => ?_⟩
      · rw [List.length_cons] at hlen
        exact hcount others (by omega)
      · rw [hmarks, freeRouteVector_spec]
        simp only [List.mem_cons, exists_eq_or_imp, howner, true_and, not_or, and_assoc]
    · next howner =>
      obtain ⟨hroutes, hcount, hmarks⟩ := ih vectors count
      refine ⟨by simp [hroutes, howner], fun others hlen => ?_, fun w => ?_⟩
      · rw [List.length_cons] at hlen
        have hrest := hcount (others + 1) (by omega)
        rw [List.length_cons, ← Nat.add_assoc, Nat.add_right_comm]
        exact hrest
      · simp only [hmarks, List.mem_cons, exists_eq_or_imp, howner, false_and, false_or]

theorem platformReleaseIrqRoutesForOwner_spec (s : IrqRegistry) (owner : DeviceId) :
    Dropped s (s.platformReleaseIrqRoutesForOwner owner) fun route => route.owner = owner := by
  obtain ⟨hroutes, hcount, hmarks⟩ := releaseOwned_spec owner s.vectors s.count s.routes
  refine ⟨congrArg₂ Leases.mk (Set.ext fun w => ?_) hroutes, fun h => ?_⟩
  · refine (hmarks w).trans (and_congr_right fun _ => not_congr ?_)
    simp [leases]
  · simpa [platformReleaseIrqRoutesForOwner] using hcount 0 (by omega)

end IrqRegistry
end Os1.Irq
