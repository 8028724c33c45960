import Os1.Lib.Word64

/-! Fixed physical and virtual layout constants of the kernel. -/
namespace Os1

def kPageSize : Nat := 0x1000

/-- Early low-memory scratch ends here. -/
def kEarlyReservedPhysicalEnd : Nat := 0x20000

/- The generated `kernel_layout.hpp` takes these four from the top-level build file. -/
def kKernelReservedPhysicalStart : Nat := 0x100000
def kKernelReservedPhysicalEnd : Nat := 0x192000
def kKernelVirtualOffset : Nat := 0xFFFFFFFF80000000
def kDirectMapBase : Nat := 0xFFFF800000000000

def kUserPml4Index : Nat := 1
def kUserSpaceBase : Nat := 0x8000000000
def kUserStackTop : Nat := 0x8040000000
def kUserStackPages : Nat := 16
def kKernelThreadStackPages : Nat := 4

/-- The direct-map address of a physical address. -/
def physToVirt (physicalAddress : BitVec 64) : BitVec 64 :=
  physicalAddress + BitVec.ofNat 64 kDirectMapBase

end Os1
