import Os1.Fs.Initrd
import Os1.Proc.LoadExact
import Os1.Proc.LoadFrames
import Os1.Proc.WaitPid

/-! Replacing the image of the current process, and what a failure leaves behind. -/
namespace Os1

open Elf UserProgram Initrd Proc

/-- The registers of an interrupted thread. -/
structure TrapFrame where
  r15 : BitVec 64 := 0#64
  r14 : BitVec 64 := 0#64
  r13 : BitVec 64 := 0#64
  r12 : BitVec 64 := 0#64
  r11 : BitVec 64 := 0#64
  r10 : BitVec 64 := 0#64
  r9 : BitVec 64 := 0#64
  r8 : BitVec 64 := 0#64
  rbp : BitVec 64 := 0#64
  rdi : BitVec 64 := 0#64
  rsi : BitVec 64 := 0#64
  rdx : BitVec 64 := 0#64
  rcx : BitVec 64 := 0#64
  rbx : BitVec 64 := 0#64
  rax : BitVec 64 := 0#64
  vector : BitVec 64 := 0#64
  errorCode : BitVec 64 := 0#64
  rip : BitVec 64 := 0#64
  cs : BitVec 64 := 0#64
  rflags : BitVec 64 := 0#64
  rsp : BitVec 64 := 0#64
  ss : BitVec 64 := 0#64
  deriving DecidableEq, Repr

namespace Exec

def kUserDataSegment : BitVec 64 := 0x1B#64
def kUserCodeSegment : BitVec 64 := 0x23#64

/-- `OS1_OBSERVE_INITRD_PATH_BYTES` -/
def pathBytes : Nat := 64

/-- The size of `Process::name`. -/
def nameBytes : Nat := 32

inductive ThreadWaitState where
  | none
  | consoleRead (userBuffer length : BitVec 64)
  | childExit (userStatusPointer pid : BitVec 64)
  | blockIo (completion : Nat)
  deriving DecidableEq, Repr

/-- The fields of `Process` that `sys_exec` writes. -/
structure ExecProcess where
  state : ProcessState
  cr3 : BitVec 64
  exitStatus : Int
  name : Image
  deriving DecidableEq, Repr

/-- The fields of `Thread` that `sys_exec` reads or writes. -/
structure ExecThread where
  process : Option ExecProcess
  userMode : Bool
  addressSpaceCr3 : BitVec 64
  exitStatus : Int
  frame : TrapFrame
  wait : ThreadWaitState
  deriving DecidableEq, Repr

/-- The pointers of the context are set or null. -/
structure ProcessSyscallContext where
  frames : Bool
  writeCr3 : Bool
  kernelRootCr3 : BitVec 64
  deriving DecidableEq, Repr

/-- The destination after `copy_fixed_string` of a string. -/
def copyFixedString (destinationSize : Nat) (source : Image) : Image :=
  let copied := source.take (destinationSize - 1)
  copied ++ List.replicate (destinationSize - copied.length) 0#8

/-- The bytes of a file of the archive. -/
def initrdBytes (gBootInfo : Option BootInfo) (found : Nat × Nat) : Image :=
  match gBootInfo with
  | some ⟨archive :: _⟩ => Initrd.fileBytes archive found
  | _ => []

def loadUserProgramImage (machine : Machine) (kernelRootCr3 : BitVec 64)
    (gBootInfo : Option BootInfo) (path : Image) : Except ReadFault LoadOutcome :=
  (findInitrdFile gBootInfo path).bind fun
    | none => .ok { loaded := none, machine }
    | some found => loadUserElf machine kernelRootCr3 (initrdBytes gBootInfo found)

def prepareUserThreadEntry (thread : ExecThread) (entry userRsp : BitVec 64) : ExecThread :=
  { thread with
    exitStatus := 0
    wait := .none
    frame :=
      { rip := entry, cs := kUserCodeSegment, rflags := 0x202#64, rsp := userRsp,
        ss := kUserDataSegment }
    process := thread.process.map fun p => { p with exitStatus := 0 } }

/-- The result, the machine, the current thread, and the root written to CR3. -/
structure ExecOutcome where
  result : Int
  machine : Machine
  thread : Option ExecThread
  cr3 : Option (BitVec 64) := none

/-- Switch the thread to a loaded image and give back its old address space. -/
def replaceImage (machine : Machine) (thread : ExecThread) (process : ExecProcess) (path : Image)
    (e : UserEntry) : ExecOutcome :=
  let oldCr3 := thread.addressSpaceCr3
  let process := { process with
    cr3 := e.cr3, state := .running, name := copyFixedString nameBytes path }
  let thread := prepareUserThreadEntry
    { thread with addressSpaceCr3 := e.cr3, process := some process } e.entry e.userRsp
  { result := 0
    machine := if oldCr3 ≠ 0#64 ∧ oldCr3 ≠ e.cr3 then (destroyUserAddressSpace machine oldCr3).2
      else machine
    thread := some thread
    cr3 := some e.cr3 }

def sysExec (machine : Machine) (context : ProcessSyscallContext) (gBootInfo : Option BootInfo)
    (currentThread : Option ExecThread) (userPath : BitVec 64) : Except ReadFault ExecOutcome :=
  let failed (machine : Machine) : ExecOutcome := { result := -1, machine, thread := currentThread }
  if !context.frames || !context.writeCr3 then .ok (failed machine)
  else
    match currentThread with
    | none => .ok (failed machine)
    | some thread =>
      match thread.process with
      | none => .ok (failed machine)
      | some process =>
        if !thread.userMode then .ok (failed machine)
        else
          match machine.newSpace.copyUserString (some thread.addressSpaceCr3) userPath true
              pathBytes with
          | .error _ => .ok (failed machine)
          | .ok path =>
            (loadUserProgramImage machine context.kernelRootCr3 gBootInfo (path ++ [0#8])).map
              fun outcome =>
                match outcome.loaded with
                | none => failed outcome.machine
                | some e => replaceImage outcome.machine thread process path e

theorem sysExec_failed {machine : Machine} {context : ProcessSyscallContext}
    {gBootInfo : Option BootInfo} {currentThread : Option ExecThread} {userPath : BitVec 64}
    {outcome : ExecOutcome}
    (h : sysExec machine context gBootInfo currentThread userPath = .ok outcome)
    (hfailed : outcome.result = -1) : outcome.thread = currentThread ∧ outcome.cr3 = none := by
  unfold sysExec at h
  dsimp only at h
  split at h
  · obtain rfl := Except.ok.inj h
    exact ⟨rfl, rfl⟩
  split at h
  · obtain rfl := Except.ok.inj h
    exact ⟨rfl, rfl⟩
  split at h
  · obtain rfl := Except.ok.inj h
    exact ⟨rfl, rfl⟩
  split at h
  · obtain rfl := Except.ok.inj h
    exact ⟨rfl, rfl⟩
  split at h
  · obtain rfl := Except.ok.inj h
    exact ⟨rfl, rfl⟩
  rename_i path _
  cases hload : loadUserProgramImage machine context.kernelRootCr3 gBootInfo (path ++ [0#8]) with
  | error fault =>
    rw [hload] at h
    cases h
  | ok loaded =>
    rw [hload] at h
    obtain rfl := Except.ok.inj h
    dsimp only at hfailed ⊢
    split
    · exact ⟨rfl, rfl⟩
    · rename_i e he
      rw [he] at hfailed
      exact absurd (show (0 : Int) = -1 from hfailed) (by decide)

/-- A load that fails, or whose address space is destroyed before the program runs, leaves the
free frames as they were exactly when every frame it lost is named by a word of its pages and no
frame that was taken before is. A failed `sys_exec` leaves the thread and its process alone. -/
theorem load_undone_iff {machine : Machine} {kernelRootCr3 : BitVec 64} {image : Image}
    {outcome : LoadOutcome} (hsize : image.length < 2 ^ 64) (hframes : machine.frames.Tracked)
    (hready : machine.frames.initialized = true) (hzero : machine.frames.isFree 0 = false)
    (hkernel : KernelRoot machine kernelRootCr3)
    (h : loadUserElf machine kernelRootCr3 image = .ok outcome) :
    ((∀ n, outcome.reclaimed.frames.isFree n = machine.frames.isFree n) ↔
      (Draft.load image machine.frames.freeFrames).Reclaims machine.frames) ∧
    ∀ (m : Machine) (context : ProcessSyscallContext) (gBootInfo : Option BootInfo)
      (currentThread : Option ExecThread) (userPath : BitVec 64) (replaced : ExecOutcome),
      sysExec m context gBootInfo currentThread userPath = .ok replaced →
        replaced.result = -1 → replaced.thread = currentThread :=
  ⟨load_reclaims_iff hsize hframes hready hzero hkernel h,
    fun _ _ _ _ _ _ hexec hfailed => (sysExec_failed hexec hfailed).1⟩

/-- A container whose only usable region has `n` pages at 2 MiB. -/
def scarceFrames (n : Nat) : PageFrameContainer :=
  (((⟨0, 0, 0, 0, fun _ => 0#64, 0, 0, 0, false⟩ : PageFrameContainer).initializeFrames
    [⟨0x200000, n * 0x1000, .usable⟩] 0x300000 64).map (·.2)).getD
      ⟨0, 0, 0, 0, fun _ => 0#64, 0, 0, 0, false⟩

def scarceMachine (n : Nat) : Machine := { mem := fun _ => 0#8, frames := scarceFrames n }

theorem scarceFrames_five :
    (⟨0, 0, 0, 0, fun _ => 0#64, 0, 0, 0, false⟩ : PageFrameContainer).initializeFrames
      [⟨0x200000, 5 * 0x1000, .usable⟩] 0x300000 64 = some (true, scarceFrames 5) := rfl

/-- Five frames are enough for the root, one page and its tables, but not for the stack. -/
theorem smallImage_reclaims :
    (Draft.load smallImage (scarceFrames 5).freeFrames).Reclaims (scarceFrames 5) := by
  have hlost : (Draft.load smallImage (scarceFrames 5).freeFrames).lost = [] := by decide +kernel
  have hwords : ∀ p ∈ (Draft.load smallImage (scarceFrames 5).freeFrames).pages, ∀ k < 512,
      (Draft.load smallImage (scarceFrames 5).freeFrames).word p.1 k = 0#64 ∨
        (scarceFrames 5).pageCount * kPageSize ≤
          entryAddress ((Draft.load smallImage (scarceFrames 5).freeFrames).word p.1 k) := by
    decide +kernel
  refine ⟨fun n hn => ?_, ?_⟩
  · rw [hlost] at hn
    cases hn
  · rintro n hn ⟨p, hp, k, hk, hne, heq⟩
    rcases hwords p hp k hk with hz | hle
    · exact absurd hz hne
    · rw [heq] at hle
      exact absurd (Nat.le_of_mul_le_mul_right hle (by decide)) (by omega)

/-- The load fails for lack of a stack page and gives all five frames back. -/
theorem load_undone_iff_five : ∃ outcome,
    loadUserElf (scarceMachine 5) 0x1000#64 smallImage = .ok outcome ∧
      ∀ n, outcome.reclaimed.frames.isFree n = (scarceFrames 5).isFree n := by
  have hsize : smallImage.length < 2 ^ 64 := by decide +kernel
  have hframes : (scarceMachine 5).frames.Tracked :=
    (PageFrameContainer.initializeFrames_spec (by simp) scarceFrames_five).1
  have hkernel : KernelRoot (scarceMachine 5) 0x1000#64 :=
    ⟨⟨1, by decide +kernel, rfl, by decide +kernel⟩, by decide +kernel, by decide +kernel⟩
  obtain ⟨outcome, hload, -⟩ := load_follows hsize hframes rfl hkernel
  exact ⟨outcome, hload, (load_undone_iff hsize hframes rfl (by decide +kernel) hkernel
    hload).1.mpr smallImage_reclaims⟩

/-- Eight bytes that read as a present page-table entry for the frame at 4 KiB. -/
def namingImage : Image :=
  encodeImage (BitVec.ofNat 64 kUserSpaceBase)
    [{ smallProgram with filesz := 8#64, memsz := 8#64 }]
    [0x03#8, 0x10#8, 0#8, 0#8, 0#8, 0#8, 0#8, 0#8]

/-- Whether a load succeeds, and whether a frame is free after it. -/
def loadFate (machine : Machine) (image : Image) (frame : Nat) : Option (Bool × Bool) :=
  (loadUserElf machine 0x1000#64 image).toOption.map fun outcome =>
    (outcome.loaded.isSome, outcome.machine.frames.isFree frame)

theorem namingImage_not_reclaims :
    ¬ (Draft.load namingImage roomyFrames.freeFrames).Reclaims roomyFrames := by
  intro h
  have hnames : (Draft.load namingImage roomyFrames.freeFrames).Names 1 :=
    ⟨(0x8000000#36, 0x201), by decide +kernel, 0, by decide, by decide +kernel, by decide +kernel⟩
  exact absurd (h.named 1 (by decide +kernel) hnames) (by decide +kernel)

/-- With two free frames the load fails and loses the frame of its first page. With enough frames
it succeeds, and destroying the space frees the kernel's own root, which a word of the image
names. -/
theorem undone_load_changes_frames :
    ((scarceFrames 2).isFree 0x201 = true ∧
      loadFate (scarceMachine 2) smallImage 0x201 = some (false, false)) ∧
    ∃ outcome e, loadUserElf roomyMachine 0x1000#64 namingImage = .ok outcome ∧
      outcome.loaded = some e ∧
      ¬ ∀ n, (destroyUserAddressSpace outcome.machine e.cr3).2.frames.isFree n =
        roomyFrames.isFree n := by
  refine ⟨⟨by decide +kernel, by decide +kernel⟩, ?_⟩
  obtain ⟨outcome, e, hload, he, -⟩ := loadedView_eq_some roomyMachine 0x1000#64 namingImage
    0x8000000000#64 (some (⟨false, true⟩, 0x03#8)) (by decide +kernel)
  have hsize : namingImage.length < 2 ^ 64 := by decide +kernel
  have hzero : roomyMachine.frames.isFree 0 = false := by decide +kernel
  have hframes : roomyMachine.frames.Tracked := roomyFrames_tracked
  have hready : roomyMachine.frames.initialized = true := rfl
  have hiff := load_reclaims_iff hsize hframes hready hzero roomyMachine_kernelRoot hload
  refine ⟨outcome, e, hload, he, fun hsame => namingImage_not_reclaims (hiff.mp fun n => ?_)⟩
  rw [LoadOutcome.reclaimed, he]
  exact hsame n

end Exec
end Os1
