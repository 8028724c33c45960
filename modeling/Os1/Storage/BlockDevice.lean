import Mathlib.Tactic.Ring
import Os1.Virtio.VirtioBlk

/-! Synchronous block I/O in chunks, over a disk that may be busy and may fail. -/
namespace Os1.Storage

open Virtio (BlockOperation BlockRequestStatus)

structure BlockDevice where
  sectorCount : Nat
  sectorSize : BitVec 32
  maxSectorsPerRequest : BitVec 32
  sectorCount_lt : sectorCount < 2 ^ 64

/-- The fields of a request that the caller sets. -/
structure Chunk where
  operation : BlockOperation
  sector : Nat
  buffer : BitVec 64
  sectorCount : Nat
  deriving DecidableEq, Repr

/-- The bytes of the disk and of the machine's memory. -/
structure Contents where
  disk : Nat → BitVec 8
  memory : BitVec 64 → BitVec 8

/-- What the device does with a request: `submit` returns false and sets a status, or it takes the
request and completes it with a status. -/
inductive Answer where
  | refuse (status : BlockRequestStatus)
  | complete (status : BlockRequestStatus)
  deriving DecidableEq, Repr

/-- The contents, the number of calls of `submit`, and as history the requests that were not refused
as busy, each with whether the disk has served it. -/
structure DiskSystem where
  contents : Contents
  submissions : Nat := 0
  log : List (Chunk × Bool) := []

variable (device : BlockDevice) (answers : Nat → Answer)

/-- The effect of a request that the disk serves. -/
def transfer (request : Chunk) (contents : Contents) : Contents :=
  let size := device.sectorSize.toNat
  let first := request.sector * size
  let bytes := request.sectorCount * size
  match request.operation with
  | .read =>
    { contents with
      memory := fun address =>
        let offset := (address - request.buffer).toNat
        if offset < bytes then contents.disk (first + offset) else contents.memory address }
  | .write =>
    { contents with
      disk := fun place =>
        if first ≤ place ∧ place < first + bytes then
          contents.memory (request.buffer + BitVec.ofNat 64 (place - first))
        else contents.disk place }
  | .flush => contents

/-- A disk takes a request, or rejects it where it is beyond the capacity. -/
def submit (system : DiskSystem) (request : Chunk) : DiskSystem × Bool × BlockRequestStatus :=
  let answer := answers system.submissions
  let system := { system with submissions := system.submissions + 1 }
  let failed := { system with log := system.log ++ [(request, false)] }
  match answer with
  | .refuse .busy => (system, false, .busy)
  | .refuse status => (failed, false, status)
  | .complete status =>
    if device.sectorCount < request.sector + request.sectorCount then (failed, false, .invalid)
    else if status = .success then
      ({ system with
          contents := transfer device request system.contents
          log := system.log ++ [(request, true)] }, true, .success)
    else (failed, true, status)

/-- `submit_sync_request`: a busy device is asked again, `none` when the fuel ends before that. -/
def submitSyncRequest : Nat → DiskSystem → Chunk → Option (DiskSystem × Bool)
  | 0, _, _ => none
  | fuel + 1, system, request =>
    match submit device answers system request with
    | (system, true, status) => some (system, status = .success)
    | (system, false, status) =>
      if status ≠ .busy then some (system, false)
      else submitSyncRequest fuel system request

/-- `chunk_sector_count` -/
def chunkSectorCount (remaining : Nat) : Nat :=
  let cap := if device.maxSectorsPerRequest ≠ 0 then device.maxSectorsPerRequest.toNat else 1
  if remaining < cap then remaining else cap

/-- The loop of the two transfers. -/
def transferLoop (operation : BlockOperation) :
    Nat → DiskSystem → BitVec 64 → BitVec 64 → Nat → Option (DiskSystem × Bool)
  | 0, _, _, _, _ => none
  | fuel + 1, system, cursor, address, remaining =>
    if remaining = 0 then some (system, true)
    else
      let batch := chunkSectorCount device remaining
      match submitSyncRequest device answers fuel system
          ⟨operation, cursor.toNat, address, batch⟩ with
      | none => none
      | some (system, false) => some (system, false)
      | some (system, true) =>
        transferLoop operation fuel system (cursor + BitVec.ofNat 64 batch)
          (address + BitVec.ofNat 64 (batch * device.sectorSize.toNat)) (remaining - batch)

def blockTransferSync (operation : BlockOperation) (fuel : Nat) (system : DiskSystem)
    (sector buffer : BitVec 64) (sectorCount : BitVec 32) : Option (DiskSystem × Bool) :=
  if buffer = 0 ∨ sectorCount = 0 then some (system, false)
  else transferLoop device answers operation fuel system sector buffer sectorCount.toNat

/-- `block_read_sync` -/
def blockReadSync := blockTransferSync device answers .read

/-- `block_write_sync` -/
def blockWriteSync := blockTransferSync device answers .write

variable {device : BlockDevice} {answers : Nat → Answer} {operation : BlockOperation}

/-! ## Transfers compose -/

theorem transfer_zero {sector : Nat} {buffer : BitVec 64} (contents : Contents) :
    transfer device ⟨operation, sector, buffer, 0⟩ contents = contents := by
  cases operation with
  | flush => rfl
  | read => simp [transfer]
  | write =>
    have hempty : ∀ first place : Nat, ¬ (first ≤ place ∧ place < first) := by
      intro first place
      omega
    simp [transfer, hempty]

/-- The second of two adjoining windows of the address space. -/
theorem offset_lt_iff {x : BitVec 64} {n m : Nat} (h : n + m ≤ 2 ^ 64) :
    (x - BitVec.ofNat 64 n).toNat < m ↔ n ≤ x.toNat ∧ x.toNat < n + m := by
  have hx := x.isLt
  rw [BitVec.toNat_sub, BitVec.toNat_ofNat]
  omega

theorem offset_eq {x : BitVec 64} {n : Nat} (h : n ≤ x.toNat) :
    (x - BitVec.ofNat 64 n).toNat = x.toNat - n := by
  have hx := x.isLt
  rw [BitVec.toNat_sub, BitVec.toNat_ofNat]
  omega

/-- A transfer of `n + m` sectors is one of `n` sectors and then one of `m`. -/
theorem transfer_append {sector n m : Nat} {buffer : BitVec 64} (contents : Contents)
    (hroom : (n + m) * device.sectorSize.toNat ≤ 2 ^ 64) :
    transfer device ⟨operation, sector + n,
        buffer + BitVec.ofNat 64 (n * device.sectorSize.toNat), m⟩
        (transfer device ⟨operation, sector, buffer, n⟩ contents) =
      transfer device ⟨operation, sector, buffer, n + m⟩ contents := by
  cases operation with
  | flush => rfl
  | read =>
    simp only [transfer, Contents.mk.injEq, true_and]
    funext address
    rw [Nat.add_mul] at hroom
    have hsub : address - (buffer + BitVec.ofNat 64 (n * device.sectorSize.toNat)) =
        address - buffer - BitVec.ofNat 64 (n * device.sectorSize.toNat) :=
      (BitVec.sub_sub ..).symm
    simp only [hsub, offset_lt_iff hroom, Nat.add_mul]
    generalize (n * device.sectorSize.toNat) = bytes
    by_cases hfirst : (address - buffer).toNat < bytes
    · rw [if_neg (by omega), if_pos hfirst, if_pos (by omega)]
    · by_cases hsecond : (address - buffer).toNat < bytes + m * device.sectorSize.toNat
      · rw [if_pos ⟨by omega, hsecond⟩, if_pos hsecond, offset_eq (by omega)]
        congr 1
        omega
      · rw [if_neg (by omega), if_neg hfirst, if_neg hsecond]
  | write =>
    simp only [transfer, Contents.mk.injEq, and_true]
    funext place
    simp only [Nat.add_mul]
    generalize (n * device.sectorSize.toNat) = bytes
    generalize (sector * device.sectorSize.toNat) = first
    by_cases hsecond : first + bytes ≤ place ∧ place < first + bytes + m * device.sectorSize.toNat
    · rw [if_pos hsecond, if_pos ⟨by omega, by omega⟩, BitVec.add_assoc, ← BitVec.ofNat_add]
      congr 3
      omega
    · rw [if_neg hsecond]
      by_cases hfirst : first ≤ place ∧ place < first + bytes
      · rw [if_pos hfirst, if_pos ⟨by omega, by omega⟩]
      · rw [if_neg hfirst, if_neg (by omega)]

/-! ## A request -/

/-- The function returns once its fuel is enough. -/
def Returns {α : Type} (f : Nat → Option α) (result : α) : Prop :=
  ∃ bound, ∀ fuel, bound ≤ fuel → f fuel = some result

theorem Returns.of_succ {α : Type} {f : Nat → Option α} {result : α}
    (h : ∀ fuel, f (fuel + 1) = some result) : Returns f result := by
  refine ⟨1, fun fuel hfuel => ?_⟩
  rw [← Nat.sub_add_cancel hfuel]
  exact h _

/-- The device is not busy for ever. -/
def Responsive (answers : Nat → Answer) : Prop :=
  ∀ n, ∃ k, answers (n + k) ≠ .refuse .busy

/-- The request has been served as a whole, or nothing of it. -/
structure Answered (device : BlockDevice) (request : Chunk) (before after : DiskSystem)
    (served : Bool) : Prop where
  log : after.log = before.log ++ [(request, served)]
  contents : after.contents =
    if served then transfer device request before.contents else before.contents
  within : served = true → request.sector + request.sectorCount ≤ device.sectorCount

variable {request : Chunk} {system : DiskSystem}

theorem submitSyncRequest_busy (h : answers system.submissions = .refuse .busy) (fuel : Nat) :
    submitSyncRequest device answers (fuel + 1) system request =
      submitSyncRequest device answers fuel
        { system with submissions := system.submissions + 1 } request := by
  simp [submitSyncRequest, submit, h]

theorem submitSyncRequest_answered (h : answers system.submissions ≠ .refuse .busy) :
    ∃ after served, Answered device request system after served ∧
      ∀ fuel, submitSyncRequest device answers (fuel + 1) system request =
        some (after, served) := by
  cases hanswer : answers system.submissions with
  | refuse status =>
    have hbusy : status ≠ .busy := by
      rintro rfl
      exact h hanswer
    refine ⟨{ system with
      submissions := system.submissions + 1
      log := system.log ++ [(request, false)] }, false, ⟨rfl, rfl, by simp⟩, fun fuel => ?_⟩
    cases status <;> simp_all [submitSyncRequest, submit]
  | complete status =>
    by_cases hroom : device.sectorCount < request.sector + request.sectorCount
    · refine ⟨{ system with
        submissions := system.submissions + 1
        log := system.log ++ [(request, false)] }, false, ⟨rfl, rfl, by simp⟩, fun fuel => ?_⟩
      simp [submitSyncRequest, submit, hanswer, hroom]
    · by_cases hstatus : status = .success
      · refine ⟨{ system with
          contents := transfer device request system.contents
          submissions := system.submissions + 1
          log := system.log ++ [(request, true)] }, true,
          ⟨rfl, rfl, fun _ => Nat.le_of_not_lt hroom⟩, fun fuel => ?_⟩
        simp [submitSyncRequest, submit, hanswer, hroom, hstatus]
      · refine ⟨{ system with
          submissions := system.submissions + 1
          log := system.log ++ [(request, false)] }, false, ⟨rfl, rfl, by simp⟩, fun fuel => ?_⟩
        simp [submitSyncRequest, submit, hanswer, hroom, hstatus]

theorem submitSyncRequest_returns (device : BlockDevice) (h : Responsive answers)
    (system : DiskSystem) (request : Chunk) :
    ∃ after served, Answered device request system after served ∧
      Returns (fun fuel => submitSyncRequest device answers fuel system request)
        (after, served) := by
  -- induction on the number of refusals that are still to come
  obtain ⟨k, hk⟩ := h system.submissions
  induction k generalizing system with
  | zero =>
    obtain ⟨after, served, hanswered, hrun⟩ := submitSyncRequest_answered hk
    exact ⟨after, served, hanswered, .of_succ hrun⟩
  | succ k ih =>
    by_cases hnow : answers system.submissions = .refuse .busy
    · obtain ⟨after, served, hanswered, bound, hrun⟩ :=
        ih { system with submissions := system.submissions + 1 } (by
          rwa [Nat.add_assoc, Nat.add_comm 1])
      refine ⟨after, served, ⟨hanswered.log, hanswered.contents, hanswered.within⟩, bound + 1,
        fun fuel hfuel => ?_⟩
      obtain ⟨fuel, rfl⟩ := Nat.exists_eq_add_of_le' (Nat.le_trans (Nat.le_add_left 1 bound) hfuel)
      simp only [submitSyncRequest_busy hnow]
      exact hrun fuel (by omega)
    · obtain ⟨after, served, hanswered, hrun⟩ := submitSyncRequest_answered hnow
      exact ⟨after, served, hanswered, .of_succ hrun⟩

/-! ## The whole range -/

def Chunk.sectors (chunk : Chunk) : List Nat := List.range' chunk.sector chunk.sectorCount

def servedSectors (chunks : List (Chunk × Bool)) : Nat :=
  ((chunks.filter Prod.snd).map (·.1.sectorCount)).sum

/-- A call whose requests were `chunks`. Only the last request can have failed. -/
structure Outcome (device : BlockDevice) (operation : BlockOperation) (sector : Nat)
    (buffer : BitVec 64) (count : Nat) (before after : Contents) (chunks : List (Chunk × Bool))
    (result : Bool) : Prop where
  capped : ∀ chunk ∈ chunks, 0 < chunk.1.sectorCount ∧
    chunk.1.sectorCount ≤ max 1 device.maxSectorsPerRequest.toNat
  placed : ∀ chunk ∈ chunks, chunk.1.operation = operation ∧ sector ≤ chunk.1.sector ∧
    chunk.1.buffer =
      buffer + BitVec.ofNat 64 ((chunk.1.sector - sector) * device.sectorSize.toNat)
  inOrder : chunks.flatMap (·.1.sectors) <+: List.range' sector count
  returned : result = chunks.all Prod.snd
  stopped : ∀ chunk ∈ chunks.dropLast, chunk.2 = true
  partly : after = transfer device ⟨operation, sector, buffer, servedSectors chunks⟩ before
  whole : result = true → chunks.flatMap (·.1.sectors) = List.range' sector count ∧
    after = transfer device ⟨operation, sector, buffer, count⟩ before

variable {sector count batch : Nat} {buffer : BitVec 64} {before between after : Contents}
  {chunks : List (Chunk × Bool)} {result : Bool}

theorem chunkSectorCount_spec (device : BlockDevice) (h : 0 < count) :
    0 < chunkSectorCount device count ∧ chunkSectorCount device count ≤ count ∧
      chunkSectorCount device count ≤ max 1 device.maxSectorsPerRequest.toNat := by
  unfold chunkSectorCount
  by_cases hmax : device.maxSectorsPerRequest = 0
  · simp only [hmax, ne_eq, not_true_eq_false, if_false]
    split <;> omega
  · have hpos : device.maxSectorsPerRequest.toNat ≠ 0 := fun h => hmax (BitVec.eq_of_toNat_eq h)
    simp only [hmax, ne_eq, not_false_eq_true, if_true]
    split <;> omega

theorem range_split (sector : Nat) (h : batch ≤ count) :
    List.range' sector batch ++ List.range' (sector + batch) (count - batch) =
      List.range' sector count := by
  rw [List.range'_append_1, Nat.add_sub_cancel' h]

theorem Outcome.nil : Outcome device operation sector buffer 0 before before [] true where
  capped := by simp
  placed := by simp
  inOrder := by simp
  returned := rfl
  stopped := by simp
  partly := (transfer_zero before).symm
  whole _ := ⟨rfl, (transfer_zero before).symm⟩

theorem Outcome.fail (hpos : 0 < batch) (hle : batch ≤ count)
    (hcap : batch ≤ max 1 device.maxSectorsPerRequest.toNat) :
    Outcome device operation sector buffer count before before
      [(⟨operation, sector, buffer, batch⟩, false)] false where
  capped := List.forall_mem_singleton.mpr ⟨hpos, hcap⟩
  placed := by simp
  inOrder := by
    simp only [List.flatMap_cons, List.flatMap_nil, List.append_nil, Chunk.sectors]
    exact ⟨_, range_split sector hle⟩
  returned := rfl
  stopped := by simp
  partly := (transfer_zero before).symm
  whole := by simp

theorem servedSectors_le : servedSectors chunks ≤ (chunks.flatMap (·.1.sectors)).length := by
  induction chunks with
  | nil => simp [servedSectors]
  | cons chunk chunks ih =>
    obtain ⟨chunk, served⟩ := chunk
    cases served <;> simp_all [servedSectors, Chunk.sectors]
    omega

theorem Outcome.servedSectors_le
    (h : Outcome device operation sector buffer count before after chunks result) :
    servedSectors chunks ≤ count := by
  have hlength := h.inOrder.length_le
  rw [List.length_range'] at hlength
  exact Nat.le_trans Storage.servedSectors_le hlength

theorem Outcome.cons (hpos : 0 < batch) (hle : batch ≤ count)
    (hcap : batch ≤ max 1 device.maxSectorsPerRequest.toNat)
    (hroom : count * device.sectorSize.toNat ≤ 2 ^ 64)
    (h : Outcome device operation (sector + batch)
      (buffer + BitVec.ofNat 64 (batch * device.sectorSize.toNat)) (count - batch)
      (transfer device ⟨operation, sector, buffer, batch⟩ before) after chunks result) :
    Outcome device operation sector buffer count before after
      ((⟨operation, sector, buffer, batch⟩, true) :: chunks) result where
  capped := List.forall_mem_cons.mpr ⟨⟨hpos, hcap⟩, h.capped⟩
  placed := by
    refine List.forall_mem_cons.mpr ⟨by simp, fun chunk hmem => ?_⟩
    obtain ⟨hoperation, hsector, hbuffer⟩ := h.placed chunk hmem
    refine ⟨hoperation, by omega, ?_⟩
    rw [hbuffer, BitVec.add_assoc, ← BitVec.ofNat_add, ← Nat.add_mul]
    congr 3
    omega
  inOrder := by
    rw [List.flatMap_cons, ← range_split sector hle]
    exact (List.prefix_append_right_inj _).mpr h.inOrder
  returned := by simpa using h.returned
  stopped := by
    cases chunks with
    | nil => simp
    | cons chunk chunks =>
      rw [List.dropLast_cons_cons]
      exact List.forall_mem_cons.mpr ⟨rfl, h.stopped⟩
  partly := by
    have hserved := h.servedSectors_le
    rw [h.partly, transfer_append]
    · simp [servedSectors]
    · exact Nat.le_trans (Nat.mul_le_mul_right _ (by omega)) hroom
  whole hresult := by
    obtain ⟨hsectors, hafter⟩ := h.whole hresult
    refine ⟨?_, ?_⟩
    · rw [List.flatMap_cons, hsectors]
      exact range_split sector hle
    · rw [hafter, transfer_append]
      · rw [Nat.add_sub_cancel' hle]
      · rwa [Nat.add_sub_cancel' hle]

theorem transferLoop_returns (h : Responsive answers) (operation : BlockOperation)
    (system : DiskSystem) (cursor address : BitVec 64)
    (hroom : count * device.sectorSize.toNat ≤ 2 ^ 64) :
    ∃ after result chunks,
      Returns (fun fuel => transferLoop device answers operation fuel system cursor address count)
        (after, result) ∧ after.log = system.log ++ chunks ∧
      Outcome device operation cursor.toNat address count system.contents after.contents chunks
        result := by
  induction count using Nat.strongRecOn generalizing system cursor address with
  | ind count ih =>
  rcases Nat.eq_zero_or_pos count with rfl | hcount
  · exact ⟨system, true, [], .of_succ fun _ => rfl, by simp, .nil⟩
  obtain ⟨hpos, hle, hcap⟩ := chunkSectorCount_spec device hcount
  generalize hbatch : chunkSectorCount device count = batch at hpos hle hcap
  obtain ⟨between, served, hanswered, bound, hrun⟩ := submitSyncRequest_returns device h
    system ⟨operation, cursor.toNat, address, batch⟩
  have hcontents := hanswered.contents
  cases served with
  | false =>
    refine ⟨between, false, [(⟨operation, cursor.toNat, address, batch⟩, false)],
      ⟨bound + 1, fun fuel hfuel => ?_⟩, hanswered.log, ?_⟩
    · obtain ⟨fuel, rfl⟩ := Nat.exists_eq_add_of_le' (Nat.le_trans (Nat.le_add_left 1 bound) hfuel)
      simp only [transferLoop, if_neg hcount.ne', hbatch, hrun fuel (by omega)]
    · rw [hcontents]
      exact .fail hpos hle hcap
  | true =>
    -- a served request lies within the capacity, so the cursor does not wrap
    have hcursor : (cursor + BitVec.ofNat 64 batch).toNat = cursor.toNat + batch := by
      have hwithin := hanswered.within rfl
      have hlt := device.sectorCount_lt
      rw [BitVec.toNat_add, BitVec.toNat_ofNat, Nat.add_mod_mod]
      exact Nat.mod_eq_of_lt (by dsimp only at hwithin; omega)
    obtain ⟨after, result, chunks, ⟨bound', hrun'⟩, hlog, houtcome⟩ :=
      ih (count - batch) (by omega) between (cursor + BitVec.ofNat 64 batch)
        (address + BitVec.ofNat 64 (batch * device.sectorSize.toNat))
        (Nat.le_trans (Nat.mul_le_mul_right _ (Nat.sub_le ..)) hroom)
    refine ⟨after, result, (⟨operation, cursor.toNat, address, batch⟩, true) :: chunks,
      ⟨max bound bound' + 1, fun fuel hfuel => ?_⟩, ?_, ?_⟩
    · obtain ⟨fuel, rfl⟩ := Nat.exists_eq_add_of_le' (Nat.le_trans (Nat.le_add_left 1 _) hfuel)
      simp only [transferLoop, if_neg hcount.ne', hbatch, hrun fuel (by omega)]
      exact hrun' fuel (by omega)
    · rw [hlog, hanswered.log, List.append_assoc, List.singleton_append]
    · rw [hcursor, hcontents] at houtcome
      exact .cons hpos hle hcap hroom houtcome

/-- The call returns. A null buffer or a count of zero is refused, and any other range is
transferred in chunks. -/
def TransfersRange (device : BlockDevice) (call : Nat → Option (DiskSystem × Bool))
    (operation : BlockOperation) (system : DiskSystem) (sector buffer : BitVec 64)
    (sectorCount : BitVec 32) : Prop :=
  ∃ after result, Returns call (after, result) ∧
    if buffer = 0 ∨ sectorCount = 0 then after = system ∧ result = false
    else ∃ chunks, after.log = system.log ++ chunks ∧
      Outcome device operation sector.toNat buffer sectorCount.toNat system.contents
        after.contents chunks result

theorem blockTransferSync_transfersRange (h : Responsive answers) (operation : BlockOperation)
    (system : DiskSystem) (sector buffer : BitVec 64) (sectorCount : BitVec 32) :
    TransfersRange device (fun fuel =>
      blockTransferSync device answers operation fuel system sector buffer sectorCount)
      operation system sector buffer sectorCount := by
  simp only [TransfersRange, blockTransferSync]
  split_ifs with hrefused
  · exact ⟨system, false, ⟨0, fun _ _ => rfl⟩, rfl, rfl⟩
  · have hroom : sectorCount.toNat * device.sectorSize.toNat ≤ 2 ^ 64 := by
      have hsectors := sectorCount.isLt
      have hsize := device.sectorSize.isLt
      calc sectorCount.toNat * device.sectorSize.toNat
          ≤ 2 ^ 32 * 2 ^ 32 := Nat.mul_le_mul hsectors.le hsize.le
        _ = 2 ^ 64 := by rfl
    obtain ⟨after, result, chunks, hrun, hlog, houtcome⟩ :=
      transferLoop_returns h operation system sector buffer hroom
    exact ⟨after, result, hrun, chunks, hlog, houtcome⟩

theorem block_sync_transfers_range (h : Responsive answers) (system : DiskSystem)
    (sector buffer : BitVec 64) (sectorCount : BitVec 32) :
    TransfersRange device
        (fun fuel => blockReadSync device answers fuel system sector buffer sectorCount)
        .read system sector buffer sectorCount ∧
      TransfersRange device
        (fun fuel => blockWriteSync device answers fuel system sector buffer sectorCount)
        .write system sector buffer sectorCount := by
  exact ⟨blockTransferSync_transfersRange h .read system sector buffer sectorCount,
    blockTransferSync_transfersRange h .write system sector buffer sectorCount⟩

theorem smallDisk_capacity : 16 < 2 ^ 64 := by decide

/-- A small disk without a cap, which is busy first, then serves one request and fails the next. -/
def smallDisk : BlockDevice := ⟨16, 1, 0, smallDisk_capacity⟩

def smallDiskAnswers (n : Nat) : Answer :=
  if n = 0 then .refuse .busy else if n = 2 then .complete .deviceError else .complete .success

def smallDiskStart : DiskSystem := ⟨⟨fun place => BitVec.ofNat 8 place, fun _ => 255⟩, 0, []⟩

theorem smallDisk_read_transfers :
    Responsive smallDiskAnswers ∧
      TransfersRange smallDisk
        (fun fuel => blockReadSync smallDisk smallDiskAnswers fuel smallDiskStart 3 4096 2)
        .read smallDiskStart 3 4096 2 := by
  have h : Responsive smallDiskAnswers := by
    intro n
    refine ⟨1, ?_⟩
    simp only [smallDiskAnswers, Nat.add_eq_zero_iff, Nat.one_ne_zero, and_false, if_false]
    split <;> simp
  exact ⟨h, (block_sync_transfers_range h smallDiskStart 3 4096 2).1⟩

/-- A read of no sectors returns false though no request has failed. -/
theorem empty_read_refused :
    ∃ after, blockReadSync smallDisk smallDiskAnswers 1 smallDiskStart 3 4096 0 =
        some (after, false) ∧ after.log.all Prod.snd = true := by
  exact ⟨smallDiskStart, rfl, rfl⟩

end Os1.Storage
