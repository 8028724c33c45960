import Os1.Lib.ByteMemory
import Os1.Mm.PageFrame

/-!
# Long-mode page tables

Physical memory is byte-addressed and reached through the direct map, so a table pointer is
the physical address of its frame. TLB shootdowns have no effect on memory or frames.
-/

namespace Os1

/-- The mapping rights a caller can ask for. -/
structure PageFlags where
  present : Bool := false
  write : Bool := false
  user : Bool := false
  noExecute : Bool := false
  deriving DecidableEq, Repr

namespace PageFlags

def presentBit : BitVec 64 := 1#64 <<< 0
def writeBit : BitVec 64 := 1#64 <<< 1
def userBit : BitVec 64 := 1#64 <<< 2
def noExecuteBit : BitVec 64 := 1#64 <<< 63

def toWord (f : PageFlags) : BitVec 64 :=
  (if f.present then presentBit else 0#64) ||| (if f.write then writeBit else 0#64) |||
    (if f.user then userBit else 0#64) ||| (if f.noExecute then noExecuteBit else 0#64)

/-- `flags | PageFlags::Present` -/
def withPresent (f : PageFlags) : PageFlags := { f with present := true }

end PageFlags

def kLargePageSize2MiB : Nat := 0x200000
def kLargePageOffsetMask2MiB : BitVec 64 := 0x1FFFFF#64
def kEntryLargePage : BitVec 64 := 1#64 <<< 7
def kEntryAddressMask : BitVec 64 := 0x000FFFFFFFFFF000#64
def kLargePageAddressMask2MiB : BitVec 64 := 0x000FFFFFFFE00000#64
def kPageOffsetMask : BitVec 64 := 0xFFF#64

def pageIndex (virtualAddress : BitVec 64) (shift : Nat) : Nat :=
  ((virtualAddress >>> shift) &&& 0x1FF#64).toNat

/-- The address of the `i`-th page of a range, with 64-bit wrap. -/
def pageAt (address : BitVec 64) (i : Nat) : BitVec 64 :=
  address + BitVec.ofNat 64 (i * kPageSize)

/-- The address of the `i`-th large page of a range, with 64-bit wrap. -/
def largePageAt (address : BitVec 64) (i : Nat) : BitVec 64 :=
  address + BitVec.ofNat 64 (i * kLargePageSize2MiB)

/-- The frame address held by an entry. -/
def entryAddress (entry : BitVec 64) : Nat := (entry &&& kEntryAddressMask).toNat

/-- One address space together with the memory and the frame allocator it uses. -/
structure VirtualMemory where
  mem : Memory
  frames : PageFrameContainer
  initialized : Bool := false
  root : BitVec 64 := ~~~0#64

namespace VirtualMemory

def attach (vm : VirtualMemory) (root : BitVec 64) : VirtualMemory :=
  { vm with root := root, initialized := root ≠ ~~~0#64 }

def ensureRoot (vm : VirtualMemory) : Bool × VirtualMemory :=
  if vm.initialized then (true, vm)
  else
    match vm.frames.allocate with
    | none => (false, vm)
    | some (page, frames) =>
      (true, { mem := vm.mem.fill page kPageSize 0#8, frames := frames, initialized := true
               root := BitVec.ofNat 64 page })

def flagsToEntry (flags : PageFlags) : BitVec 64 := flags.toWord

def tableEntryFlags (userVisible : Bool) : BitVec 64 :=
  let entry := PageFlags.toWord { present := true, write := true }
  if userVisible then entry ||| PageFlags.userBit else entry

def ensureTableEntry (vm : VirtualMemory) (entry : Nat) (userVisible : Bool) :
    Bool × VirtualMemory :=
  if vm.mem.load64 entry = 0#64 then
    match vm.frames.allocate with
    | none => (false, vm)
    | some (newPage, frames) =>
      let mem := vm.mem.fill newPage kPageSize 0#8
      (true, { vm with
        frames := frames
        mem := mem.store64 entry
          ((BitVec.ofNat 64 newPage &&& kEntryAddressMask) ||| tableEntryFlags userVisible) })
  else if userVisible then
    (true, { vm with mem := vm.mem.store64 entry (vm.mem.load64 entry ||| PageFlags.userBit) })
  else (true, vm)

/-- One level of a walk: the table below entry `index` of `table`. -/
def stepDown (vm : VirtualMemory) (table index : Nat) (create userVisible : Bool) :
    VirtualMemory × Option Nat :=
  let entry := table + 8 * index
  if create then
    match vm.ensureTableEntry entry userVisible with
    | (false, vm) => (vm, none)
    | (true, vm) => (vm, some (entryAddress (vm.mem.load64 entry)))
  else if vm.mem.load64 entry = 0#64 then (vm, none)
  else (vm, some (entryAddress (vm.mem.load64 entry)))

/-- The levels that `walk_to_leaf` and `map_physical_2m` share: the table of third-level
entries above an address. -/
def walkToPml2 (vm : VirtualMemory) (virtualAddress : BitVec 64) (create userVisible : Bool) :
    VirtualMemory × Option Nat :=
  match vm.ensureRoot with
  | (false, vm) => (vm, none)
  | (true, vm) =>
    match vm.stepDown vm.root.toNat (pageIndex virtualAddress 39) create userVisible with
    | (vm, none) => (vm, none)
    | (vm, some pml3) => vm.stepDown pml3 (pageIndex virtualAddress 30) create userVisible

/-- The address of the leaf entry of a page. No level looks at the large-page bit. -/
def walkToLeaf (vm : VirtualMemory) (virtualAddress : BitVec 64) (create userVisible : Bool) :
    VirtualMemory × Option Nat :=
  match vm.walkToPml2 virtualAddress create userVisible with
  | (vm, none) => (vm, none)
  | (vm, some pml2) =>
    match vm.stepDown pml2 (pageIndex virtualAddress 21) create userVisible with
    | (vm, none) => (vm, none)
    | (vm, some pml1) => (vm, some (pml1 + 8 * pageIndex virtualAddress 12))

def mapPhysicalPages (virtualAddress physicalAddress : BitVec 64) (flags : PageFlags) :
    (remaining i : Nat) → VirtualMemory → Bool × VirtualMemory
  | 0, _, vm => (true, vm)
  | remaining + 1, i, vm =>
    match vm.walkToLeaf (pageAt virtualAddress i) true flags.user with
    | (vm, none) => (false, vm)
    | (vm, some leafEntry) =>
      mapPhysicalPages virtualAddress physicalAddress flags remaining (i + 1)
        { vm with
          mem := vm.mem.store64 leafEntry
            ((pageAt physicalAddress i &&& kEntryAddressMask) |||
              flagsToEntry flags.withPresent) }

def mapPhysical (vm : VirtualMemory) (virtualAddress physicalAddress numPages : BitVec 64)
    (flags : PageFlags) : Bool × VirtualMemory :=
  if numPages = 0#64 ∨ virtualAddress &&& kPageOffsetMask ≠ 0#64 ∨
      physicalAddress &&& kPageOffsetMask ≠ 0#64 then (false, vm)
  else mapPhysicalPages virtualAddress physicalAddress flags numPages.toNat 0 vm

/-- One turn of `map_physical_2m`, which stops at the third level. -/
def mapLargePage (vm : VirtualMemory) (currentVirtual currentPhysical : BitVec 64)
    (flags : PageFlags) : Bool × VirtualMemory :=
  match vm.walkToPml2 currentVirtual true flags.user with
  | (vm, none) => (false, vm)
  | (vm, some pml2) =>
    (true, { vm with
      mem := vm.mem.store64 (pml2 + 8 * pageIndex currentVirtual 21)
        ((currentPhysical &&& kLargePageAddressMask2MiB) |||
          flagsToEntry flags.withPresent ||| kEntryLargePage) })

def mapLargePages (virtualAddress physicalAddress : BitVec 64) (flags : PageFlags) :
    (remaining i : Nat) → VirtualMemory → Bool × VirtualMemory
  | 0, _, vm => (true, vm)
  | remaining + 1, i, vm =>
    match vm.mapLargePage (largePageAt virtualAddress i) (largePageAt physicalAddress i) flags with
    | (false, vm) => (false, vm)
    | (true, vm) => mapLargePages virtualAddress physicalAddress flags remaining (i + 1) vm

def mapPhysical2m (vm : VirtualMemory) (virtualAddress physicalAddress numPages : BitVec 64)
    (flags : PageFlags) : Bool × VirtualMemory :=
  if numPages = 0#64 ∨ virtualAddress &&& kLargePageOffsetMask2MiB ≠ 0#64 ∨
      physicalAddress &&& kLargePageOffsetMask2MiB ≠ 0#64 then (false, vm)
  else mapLargePages virtualAddress physicalAddress flags numPages.toNat 0 vm

/-- `firstPage` is the page of the first turn; it is reported only on success. -/
def allocatePages (virtualAddress : BitVec 64) (flags : PageFlags) :
    (remaining i firstPage : Nat) → VirtualMemory → Option Nat × VirtualMemory
  | 0, _, firstPage, vm => (some firstPage, vm)
  | remaining + 1, i, firstPage, vm =>
    match vm.frames.allocate with
    | none => (none, vm)
    | some (physicalPage, frames) =>
      let firstPage := if i = 0 then physicalPage else firstPage
      let vm := { vm with frames := frames, mem := vm.mem.fill physicalPage kPageSize 0#8 }
      match vm.mapPhysical (pageAt virtualAddress i) (BitVec.ofNat 64 physicalPage) 1#64
          flags.withPresent with
      | (false, vm) => (none, vm)
      | (true, vm) => allocatePages virtualAddress flags remaining (i + 1) firstPage vm

/-- The first physical page, or `none` when the call returns false. -/
def allocateAndMap (vm : VirtualMemory) (virtualAddress numPages : BitVec 64)
    (flags : PageFlags) : Option Nat × VirtualMemory :=
  if numPages = 0#64 ∨ virtualAddress &&& kPageOffsetMask ≠ 0#64 then (none, vm)
  else allocatePages virtualAddress flags numPages.toNat 0 0 vm

def protectPages (virtualAddress : BitVec 64) (flags : PageFlags) :
    (remaining i : Nat) → VirtualMemory → Bool × VirtualMemory
  | 0, _, vm => (true, vm)
  | remaining + 1, i, vm =>
    match vm.walkToLeaf (pageAt virtualAddress i) false false with
    | (vm, none) => (false, vm)
    | (vm, some leafEntry) =>
      if vm.mem.load64 leafEntry = 0#64 then (false, vm)
      else
        let physicalPage := vm.mem.load64 leafEntry &&& kEntryAddressMask
        protectPages virtualAddress flags remaining (i + 1)
          { vm with
            mem := vm.mem.store64 leafEntry
              (physicalPage ||| flagsToEntry flags.withPresent) }

def protect (vm : VirtualMemory) (virtualAddress numPages : BitVec 64) (flags : PageFlags) :
    Bool × VirtualMemory :=
  if numPages = 0#64 ∨ virtualAddress &&& kPageOffsetMask ≠ 0#64 then (false, vm)
  else protectPages virtualAddress flags numPages.toNat 0 vm

/-- The physical address and the leaf flags of a virtual address. -/
def translate (vm : VirtualMemory) (virtualAddress : BitVec 64) :
    Option (BitVec 64 × BitVec 64) :=
  if !vm.initialized then none
  else
    let pml4e := vm.mem.load64 (vm.root.toNat + 8 * pageIndex virtualAddress 39)
    if pml4e = 0#64 then none
    else
      let pml3e := vm.mem.load64 (entryAddress pml4e + 8 * pageIndex virtualAddress 30)
      if pml3e = 0#64 then none
      else
        let pml2e := vm.mem.load64 (entryAddress pml3e + 8 * pageIndex virtualAddress 21)
        if pml2e = 0#64 then none
        else if pml2e &&& kEntryLargePage ≠ 0#64 then
          some ((pml2e &&& kLargePageAddressMask2MiB) |||
            (virtualAddress &&& kLargePageOffsetMask2MiB), pml2e &&& ~~~kLargePageAddressMask2MiB)
        else
          let pml1e := vm.mem.load64 (entryAddress pml2e + 8 * pageIndex virtualAddress 12)
          if pml1e = 0#64 then none
          else some ((pml1e &&& kEntryAddressMask) ||| (virtualAddress &&& kPageOffsetMask),
            pml1e &&& ~~~kEntryAddressMask)

def kKernelPml4Index : Nat := pageIndex (BitVec.ofNat 64 kKernelVirtualOffset) 39
def kDirectMapPml4Index : Nat := pageIndex (BitVec.ofNat 64 kDirectMapBase) 39

def cloneKernelMappings (vm : VirtualMemory) (sourceRoot : BitVec 64) : Bool × VirtualMemory :=
  match vm.ensureRoot with
  | (false, vm) => (false, vm)
  | (true, vm) =>
    let target := vm.root.toNat
    let source := sourceRoot.toNat
    let mem := vm.mem.store64 (target + 8 * kKernelPml4Index)
      (vm.mem.load64 (source + 8 * kKernelPml4Index))
    let mem := mem.store64 (target + 8 * kDirectMapPml4Index)
      (mem.load64 (source + 8 * kDirectMapPml4Index))
    (true, { vm with mem := mem })

/-- The leaf loop of `destroy_table`: free the frame named by a word and clear the word. -/
def releaseWord (vm : VirtualMemory) (word : Nat) : VirtualMemory :=
  if vm.mem.load64 word = 0#64 then vm
  else
    { vm with
      frames := (vm.frames.free (entryAddress (vm.mem.load64 word))).2
      mem := vm.mem.store64 word 0#64 }

/-- Destroy what lies below the entry at address `entry`. -/
def destroyTable : (level : Nat) → (freeLeafPages : Bool) → (entry : Nat) → VirtualMemory →
    VirtualMemory
  | level, freeLeafPages, entry, vm =>
    if vm.mem.load64 entry = 0#64 then vm
    else
      let table := entryAddress (vm.mem.load64 entry)
      let vm := match level with
        | level + 2 =>
          (List.range 512).foldl (fun (vm : VirtualMemory) i =>
            if vm.mem.load64 (table + 8 * i) = 0#64 then vm
            else destroyTable (level + 1) freeLeafPages (table + 8 * i) vm) vm
        | _ =>
          if freeLeafPages then
            (List.range 512).foldl (fun vm i => vm.releaseWord (table + 8 * i)) vm
          else vm
      { vm with
        frames := (vm.frames.free (entryAddress (vm.mem.load64 entry))).2
        mem := vm.mem.store64 entry 0#64 }

def destroyUserSlot (vm : VirtualMemory) (slot : Nat) : Bool × VirtualMemory :=
  if !vm.initialized || slot ≥ 512 then (false, vm)
  else (true, destroyTable 4 true (vm.root.toNat + 8 * slot) vm)

def freePages (startAddress : BitVec 64) :
    (remaining i : Nat) → VirtualMemory → Bool × VirtualMemory
  | 0, _, vm => (true, vm)
  | remaining + 1, i, vm =>
    match vm.walkToLeaf (pageAt startAddress i) false false with
    | (vm, none) => (false, vm)
    | (vm, some leafEntry) =>
      if vm.mem.load64 leafEntry = 0#64 then (false, vm)
      else
        freePages startAddress remaining (i + 1)
          { vm with
            frames := (vm.frames.free (entryAddress (vm.mem.load64 leafEntry))).2
            mem := vm.mem.store64 leafEntry 0#64 }

/-- `free(start_address, num_pages)` -/
def freeRange (vm : VirtualMemory) (startAddress numPages : BitVec 64) : Bool × VirtualMemory :=
  if numPages = 0#64 ∨ startAddress &&& kPageOffsetMask ≠ 0#64 then (false, vm)
  else freePages startAddress numPages.toNat 0 vm

end VirtualMemory
end Os1
