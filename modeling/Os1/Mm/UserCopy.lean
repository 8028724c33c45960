import Os1.Mm.VirtualMemory

/-! Copies between kernel buffers and user memory, one page at a time. -/
namespace Os1

namespace UserAddress

def isCanonicalVirtualAddress (address : BitVec 64) : Bool :=
  let upperBits := address >>> 48
  upperBits = 0#64 || upperBits = 0xFFFF#64

def isUserAddressRange (address length : BitVec 64) : Bool :=
  if length = 0#64 then true
  else if address = 0#64 || !isCanonicalVirtualAddress address then false
  else
    let lastByteOffset := length - 1#64
    if address > ~~~0#64 - lastByteOffset then false
    else
      let endAddress := address + lastByteOffset
      if !isCanonicalVirtualAddress endAddress then false
      else
        BitVec.ofNat 64 kUserSpaceBase ≤ address && endAddress < BitVec.ofNat 64 kUserStackTop

def hasRequiredUserFlags (flags : BitVec 64) (requireWrite : Bool) : Bool :=
  if flags &&& PageFlags.userBit ≠ PageFlags.userBit then false
  else !(requireWrite && flags &&& PageFlags.writeBit ≠ PageFlags.writeBit)

end UserAddress

open UserAddress

/-- Why a copy returns false: the reason and the offset of the event it records. -/
inductive CopyFailure where
  | nullContext
  | badRange
  | translate (offset : Nat)
  | permission (offset : Nat)
  | stringTooLong
  deriving DecidableEq, Repr

namespace VirtualMemory

/-- The address of a byte of a range, with 64-bit wrap. -/
def byteAt (address : BitVec 64) (offset : Nat) : BitVec 64 := address + BitVec.ofNat 64 offset

/-- The bytes of one turn: up to the end of the page or of the range. -/
def chunkAt (address : BitVec 64) (length copied : Nat) : Nat :=
  let pageOffset := (byteAt address copied &&& kPageOffsetMask).toNat
  if length - copied < kPageSize - pageOffset then length - copied else kPageSize - pageOffset

/-- The loop of `copy_to_user` and `copy_into_address_space`, which checks no flags. Every turn
copies a byte at least, so `length` turns are enough. -/
def copyOut (permitted : BitVec 64 → Bool) (address : BitVec 64) (source : Nat → BitVec 8)
    (length : Nat) : (fuel copied : Nat) → VirtualMemory → Except CopyFailure Unit × VirtualMemory
  | 0, _, vm => (.ok (), vm)
  | fuel + 1, copied, vm =>
    if copied < length then
      match vm.translate (byteAt address copied) with
      | none => (.error (.translate copied), vm)
      | some (physical, flags) =>
        if permitted flags then
          let chunk := chunkAt address length copied
          copyOut permitted address source length fuel (copied + chunk)
            { vm with mem := vm.mem.write physical.toNat chunk fun i => source (copied + i) }
        else (.error (.permission copied), vm)
    else (.ok (), vm)

def copyIntoAddressSpace (vm : VirtualMemory) (virtualAddress : BitVec 64)
    (source : Nat → BitVec 8) (length : BitVec 64) : Bool × VirtualMemory :=
  let (result, vm) :=
    copyOut (fun _ => true) virtualAddress source length.toNat length.toNat 0 vm
  (result.isOk, vm)

/-- The loop of `copy_from_user`, which leaves the bytes of `buffer` in the kernel's buffer. -/
def copyIn (permitted : BitVec 64 → Bool) (address : BitVec 64) (vm : VirtualMemory)
    (length : Nat) : (fuel copied : Nat) → (buffer : List (BitVec 8)) →
    Except CopyFailure Unit × List (BitVec 8)
  | 0, _, buffer => (.ok (), buffer)
  | fuel + 1, copied, buffer =>
    if copied < length then
      match vm.translate (byteAt address copied) with
      | none => (.error (.translate copied), buffer)
      | some (physical, flags) =>
        if permitted flags then
          let chunk := chunkAt address length copied
          copyIn permitted address vm length fuel (copied + chunk)
            (buffer ++ (List.range chunk).map fun i => vm.mem (physical.toNat + i))
        else (.error (.permission copied), buffer)
    else (.ok (), buffer)

/-- `thread` is the root of the thread's address space; a null thread or source is `none`. -/
def copyToUser (vm : VirtualMemory) (thread : Option (BitVec 64)) (userPointer : BitVec 64)
    (source : Option (Nat → BitVec 8)) (length : BitVec 64) :
    Except CopyFailure Unit × VirtualMemory :=
  match thread, source with
  | some cr3, some source =>
    if !isUserAddressRange userPointer length then (.error .badRange, vm)
    else
      let (result, space) := copyOut (hasRequiredUserFlags · true) userPointer source length.toNat
        length.toNat 0 (vm.attach cr3)
      (result, { vm with mem := space.mem })
  | _, _ => (.error .nullContext, vm)

/-- The result and the bytes that were stored in the buffer; `destination` tells whether there is
a buffer. -/
def copyFromUser (vm : VirtualMemory) (thread : Option (BitVec 64)) (userPointer : BitVec 64)
    (destination : Bool) (length : BitVec 64) : Except CopyFailure Unit × List (BitVec 8) :=
  match thread, destination with
  | some cr3, true =>
    if !isUserAddressRange userPointer length then (.error .badRange, [])
    else
      copyIn (hasRequiredUserFlags · false) userPointer (vm.attach cr3) length.toNat length.toNat
        0 []
  | _, _ => (.error .nullContext, [])

/-- The loop of `copy_user_string`: the characters before the terminating zero. -/
def copyStringFrom (vm : VirtualMemory) (thread : Option (BitVec 64)) (userPointer : BitVec 64) :
    (remaining index : Nat) → Except CopyFailure (List (BitVec 8))
  | 0, _ => .error .stringTooLong
  | remaining + 1, index =>
    match vm.copyFromUser thread (byteAt userPointer index) true 1#64 with
    | (.ok (), bytes) =>
      let ch := bytes.headD 0#8
      if ch = 0#8 then .ok []
      else (copyStringFrom vm thread userPointer remaining (index + 1)).map (ch :: ·)
    | (.error failure, _) => .error failure

def copyUserString (vm : VirtualMemory) (thread : Option (BitVec 64)) (userPointer : BitVec 64)
    (destination : Bool) (destinationSize : Nat) : Except CopyFailure (List (BitVec 8)) :=
  if thread = none || !destination || destinationSize = 0 || userPointer = 0#64 then
    .error .nullContext
  else copyStringFrom vm thread userPointer destinationSize 0

end VirtualMemory
end Os1
