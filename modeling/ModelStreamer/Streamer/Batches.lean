import ModelStreamer.Common.Device
import ModelStreamer.Common.StorageUri
import ModelStreamer.Streamer.ChunkSplitter
import ModelStreamer.Streamer.Coalesce
import ModelStreamer.Streamer.Config

/-!
# From a transfer to batches

{lit}`Batches` walks the ranges of a transfer and the worker slices of the transfer at the
same time.  Every range becomes one {lit}`Request`, and its bytes are cut into tasks at the
chunk windows and at the ends of the slices; each task goes to the batch of its slice.
-/

namespace ModelStreamer
namespace Streamer

open Common Lib

/-! ## The slice iterator -/

/-- {lit}`Batches::BatchItr`: the slice being consumed and what is left of it. -/
structure BatchItr where
  fileReadTasks : List FileReadTask
  currentTaskIndex : Nat
  currentWorkloadIndex : Nat
  currentWorkerBytesize : Nat
deriving DecidableEq, Repr

/-- The constructor of {lit}`BatchItr`, which refuses an empty list of slices. -/
def BatchItr.make (fileReadTasks : List FileReadTask) : Except Failure BatchItr :=
  match fileReadTasks with
  | [] => .error .assertion
  | task :: _ => .ok
      { fileReadTasks
        currentTaskIndex := 0
        currentWorkloadIndex := task.workloadIndex
        currentWorkerBytesize := task.size }

/-- {lit}`BatchItr::read_task`, which asserts its index. -/
def BatchItr.readTask (itr : BatchItr) (index : Nat) : Except Failure FileReadTask :=
  match itr.fileReadTasks[index]? with
  | some task => .ok task
  | none => .error .assertion

/-- Move on to the next slice when this one is used up and bytes are wanted. -/
def BatchItr.advance (itr : BatchItr) (bytesize : Nat) : Except Failure BatchItr :=
  if itr.currentWorkerBytesize = 0 ∧ bytesize ≠ 0 then do
    let task ← itr.readTask (itr.currentTaskIndex + 1)
    return {
      itr with
      currentTaskIndex := itr.currentTaskIndex + 1
      currentWorkloadIndex := task.workloadIndex
      currentWorkerBytesize := task.size }
  else
    .ok itr

/-- {lit}`BatchItr::consume`: take bytes from the current slice, at most what it has. -/
def BatchItr.consume (itr : BatchItr) (bytesize : Nat) : Except Failure (Nat × BatchItr) := do
  let itr ← itr.advance bytesize
  let toRead := min itr.currentWorkerBytesize bytesize
  return (toRead, { itr with currentWorkerBytesize := itr.currentWorkerBytesize - toRead })

/-! ## One range -/

/--
The loop of {lit}`Batches::handle_request`: the task infos of one range, each with the index
of its batch.  The first argument bounds the number of turns.
-/
def cutRange (c : Nat) :
    Nat → BatchItr → Nat → Nat → Nat → Except Failure (List (Nat × TaskInfo) × BatchItr)
  | 0, _, _, _, _ => .error .assertion
  | fuel + 1, itr, taskOffset, bytesToRequest, destinationOffset => do
      let toChunkBoundary := c - taskOffset % c
      let want := min bytesToRequest toChunkBoundary
      let (toRead, itr) ← itr.consume want
      let info := (itr.currentTaskIndex, TaskInfo.make taskOffset toRead destinationOffset)
      if bytesToRequest - toRead > 0 then do
        let (infos, itr) ←
          cutRange c fuel itr (wordAdd 64 taskOffset toRead) (bytesToRequest - toRead)
            (wordAdd 64 destinationOffset toRead)
        return (info :: infos, itr)
      else
        return ([info], itr)

/-- What the loops of {lit}`Batches` carry: the heap, the tasks per batch, the iterator. -/
structure BuildState where
  heap : List Request
  tasks : List (List Task)
  itr : BatchItr
deriving DecidableEq, Repr

/-- The tasks of one request join the batches of their slices. -/
def addTasks (request : Nat) :
    List (Nat × TaskInfo) → List (List Task) → Except Failure (List (List Task))
  | [], tasks => .ok tasks
  | (batch, info) :: infos, tasks => do
      assertThat (batch < tasks.length)
      addTasks request infos (tasks.modify batch (· ++ [Task.make request info]))

/-- {lit}`Batches::handle_request`. -/
def handleRequest (fileIndex rangeIndex fileOffset requestSize : Nat) (destination : Addr)
    (c : Nat) (s : BuildState) : Except Failure BuildState := do
  let (infos, itr) ← cutRange c (requestSize + 1) s.itr fileOffset requestSize 0
  let tasks ← addTasks s.heap.length infos s.tasks
  let request :=
    Request.make fileOffset fileIndex rangeIndex infos.length requestSize destination
  return { heap := s.heap ++ [request], tasks, itr }

/--
The loop of {lit}`Batches::build_tasks` over the sizes of the transfer's ranges.  A submission
has fewer than {lit}`2 ^ 32` ranges, so the loop counts them.
-/
def buildRequests (fileIndex c : Nat) :
    Nat → Nat → Addr → List Nat → BuildState → Except Failure BuildState
  | _, _, _, [], s => .ok s
  | rangeIndex, fileOffset, destination, size :: sizes, s => do
      let s ← handleRequest fileIndex (toWord 32 rangeIndex) fileOffset size destination c s
      buildRequests fileIndex c (rangeIndex + 1) (wordAdd 64 fileOffset size)
        (ptrAdd destination size) sizes s

/-! ## Batches -/

/-- {lit}`Batch`: consecutive tasks of one file for one workload. -/
structure Batch where
  submissionId : Nat
  workloadIndex : Nat
  fileIndex : Nat
  path : Path
  isObjectStorage : Bool
  device : Device
  tasks : List Task
  chunks : List Chunk
  start : Nat
  stop : Nat
  unfinished : Nat
deriving DecidableEq, Repr

/-- What all batches of a transfer have in common. -/
structure BatchOrigin where
  submissionId : Nat
  fileIndex : Nat
  path : Path
  isObjectStorage : Bool
  device : Device
deriving DecidableEq, Repr

/-- The constructor of {lit}`Batch`: chunks, then the range, which may not run backwards. -/
def Batch.make (origin : BatchOrigin) (heap : List Request) (workloadIndex : Nat)
    (tasks : List Task) (c : Nat) : Except Failure Batch := do
  let chunks ← splitIntoChunks heap tasks c
  let start := (tasks.head?.map fun task => task.info.offset).getD 0
  let stop := (tasks.getLast?.map fun task => task.info.stop).getD 0
  if stop < start then
    .error (.exception .invalidParameterError)
  else
    return {
      submissionId := origin.submissionId
      workloadIndex
      fileIndex := origin.fileIndex
      path := origin.path
      isObjectStorage := origin.isObjectStorage
      device := origin.device
      tasks
      chunks
      start
      stop
      unfinished := 0 }

/-- The closing loop of {lit}`Batches::build_tasks`: one batch per slice with tasks. -/
def collectBatches (origin : BatchOrigin) (heap : List Request) (c : Nat) :
    List FileReadTask → List (List Task) → Except Failure (List Batch)
  | slice :: slices, tasks :: rest => do
      if tasks = [] then
        collectBatches origin heap c slices rest
      else do
        let batch ← Batch.make origin heap slice.workloadIndex tasks c
        let batches ← collectBatches origin heap c slices rest
        return batch :: batches
  | _, _ => .ok []

/-- The chunk size that the tasks of a backend are cut with. -/
def Config.chunkBytesize (config : Config) (isObjectStorage : Bool) : Nat :=
  if isObjectStorage then config.s3BlockBytesize else config.fsAsyncChunkBytesize

/-- The part of {lit}`Batches::build_tasks` that cuts the ranges of a transfer. -/
def cutTransfer (c fileIndex : Nat) (t : ContiguousTransfer) (heap : List Request) :
    Except Failure BuildState := do
  let itr ← BatchItr.make t.tasks
  let first ← itr.readTask 0
  buildRequests fileIndex c t.firstRangeIndex first.offsetInFile first.destination t.rangeSizes
    { heap, tasks := List.replicate t.tasks.length [], itr }

/-- The constructor of {lit}`Batches` for one transfer; new requests join the heap. -/
def makeBatches (config : Config) (origin : BatchOrigin) (t : ContiguousTransfer)
    (heap : List Request) : Except Failure (List Request × List Batch) := do
  let c := config.chunkBytesize origin.isObjectStorage
  let s ← cutTransfer c origin.fileIndex t heap
  let batches ← collectBatches origin s.heap c t.tasks s.tasks
  return (s.heap, batches)

end Streamer
end ModelStreamer
