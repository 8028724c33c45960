import Os1.Mm.LargePages

/-!
# The direct map

`map_direct_range` maps physical memory at a fixed offset with the largest pages that fit, and
skips what it takes to be mapped already.
-/

namespace Os1

def pageIsAlreadyMapped (vm : VirtualMemory) (virtualAddress physicalAddress : BitVec 64) : Bool :=
  match vm.translate virtualAddress with
  | some (translatedPhysical, _) => translatedPhysical = physicalAddress
  | none => false

/-- Only the first and the last 4 KiB page of the large page are looked at. -/
def largePageIsAlreadyMapped (vm : VirtualMemory) (virtualAddress physicalAddress : BitVec 64) :
    Bool :=
  pageIsAlreadyMapped vm virtualAddress physicalAddress &&
    pageIsAlreadyMapped vm
      (virtualAddress + BitVec.ofNat 64 kLargePageSize2MiB - BitVec.ofNat 64 kPageSize)
      (physicalAddress + BitVec.ofNat 64 kLargePageSize2MiB - BitVec.ofNat 64 kPageSize)

/-- The flags of the direct map. -/
def directFlags : PageFlags := { present := true, write := true, noExecute := true }

def useLargePage (current stop : Nat) : Bool :=
  current % kLargePageSize2MiB = 0 &&
    (physToVirt (BitVec.ofNat 64 current)).toNat % kLargePageSize2MiB = 0 &&
    stop - current ≥ kLargePageSize2MiB

/-- One turn at `current` that maps a large page, unless it takes it to be mapped. -/
def mapDirectLarge (vm : VirtualMemory) (current : Nat) : Bool × VirtualMemory :=
  let physical := BitVec.ofNat 64 current
  if largePageIsAlreadyMapped vm (physToVirt physical) physical then (true, vm)
  else vm.mapPhysical2m (physToVirt physical) physical 1#64 directFlags

/-- One turn at `current` that maps a 4 KiB page, unless it is mapped. -/
def mapDirectSmall (vm : VirtualMemory) (current : Nat) : Bool × VirtualMemory :=
  let physical := BitVec.ofNat 64 current
  if pageIsAlreadyMapped vm (physToVirt physical) physical then (true, vm)
  else vm.mapPhysical (physToVirt physical) physical 1#64 directFlags

/-- The loop of `map_direct_range`. A turn moves `current` by a page or more, so the number of
pages up to `stop` bounds the turns. -/
def mapDirectLoop (stop : Nat) : (turns current : Nat) → VirtualMemory → Bool × VirtualMemory
  | 0, _, vm => (true, vm)
  | turns + 1, current, vm =>
    if current < stop then
      if useLargePage current stop then
        match mapDirectLarge vm current with
        | (false, vm) => (false, vm)
        | (true, vm) => mapDirectLoop stop turns (current + kLargePageSize2MiB) vm
      else
        match mapDirectSmall vm current with
        | (false, vm) => (false, vm)
        | (true, vm) => mapDirectLoop stop turns (current + kPageSize) vm
    else (true, vm)

def mapDirectRange (vm : VirtualMemory) (physicalStart length : Nat) : Bool × VirtualMemory :=
  if length = 0 then (true, vm)
  else
    let current := alignDown physicalStart kPageSize
    let stop := alignUp (u64 (physicalStart + length)) kPageSize
    mapDirectLoop stop ((stop - current) / kPageSize) current vm

def mapMmioRange (vm : VirtualMemory) (physicalStart length : Nat) : Bool × VirtualMemory :=
  mapDirectRange vm physicalStart length

end Os1
