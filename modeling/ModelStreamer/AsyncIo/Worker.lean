import ModelStreamer.AsyncIo.FsAsyncRouter
import ModelStreamer.AsyncIo.InflightChunks
import ModelStreamer.AsyncIo.DirectPass
import ModelStreamer.Lib.IssueQueue
import ModelStreamer.ObjectStorage.Worker
import ModelStreamer.PosixIo.CompletionMapper

/-!
# The asynchronous worker

A worker owns one engine and reads the chunks of several workloads through it.  A chunk is in
the queue, waits for a staging buffer, is staged in the engine or with the kernel, or its bytes
are copied to a device.  It keeps its slot of the window from the queue on until its read has
landed.

The worker runs on one thread.  What its calls get from outside, the answers of the engine, of
the file system, of the staging pool and of the copy path, are arguments of the functions; an
answer that the outside would not give is {lit}`refused`.
-/

namespace ModelStreamer
namespace AsyncIo

open Common Lib Streamer PosixIo
open ObjectStorage (Answer CapacityQueue)

/-! ## What a worker keeps -/

/-- {lit}`AsyncIoWorker::BatchFd`; a negative descriptor stands for none. -/
structure BatchFd where
  fd : Int := -1
  direct : Bool := false
  error : ResponseCode := .success
deriving DecidableEq, Repr

/-- {lit}`AsyncIoWorker::Inflight`. -/
structure Inflight where
  batches : List Batch
  fds : List BatchFd
  remainingChunks : Nat := 0
  /-- The first error of each file. -/
  errorByFileIndex : Table ResponseCode := []
deriving DecidableEq, Repr

/-- {lit}`AsyncIoWorker::CopyDone`. -/
structure CopyDone where
  id : Nat
  ret : ResponseCode
deriving DecidableEq, Repr

/-- A read that the engine holds. -/
structure EngineRead where
  id : Nat
  file : FileRef
  pass : DirectPass
deriving DecidableEq, Repr

/-- A copy that the waiter of the copy path holds. -/
structure IssuedCopy where
  id : Nat
  staging : StagingBuffer
deriving DecidableEq, Repr

/-- {lit}`AsyncIoWorker`, from the moment its window is up. -/
structure Worker where
  strategy : Strategy
  /-- {lit}`_engine->depth()`. -/
  depth : Nat
  block : Nat
  blockMeasured : Bool
  directRefused : Bool := false
  scratch : Option ScratchPool
  engineDead : Bool := false
  engineError : ResponseCode := .unknownError
  /-- {lit}`_queue`: the ids of the chunks. -/
  queue : CapacityQueue Nat
  chunks : InflightChunks := .empty
  /-- {lit}`_inflight`. -/
  workloads : Table Inflight := []
  /-- A word, while fewer than {lit}`2 ^ 64 - 1` workloads have come. -/
  nextWorkloadId : Nat := 1
  issued : Nat := 0
  stalledFlushes : Nat := 0
  waiting : List Nat := []
  copiesIssued : Nat := 0
  /-- {lit}`_copies`: the copies that have landed. -/
  copies : List CopyDone := []
  /-- Outside the worker: the reads that are staged in the engine. -/
  staged : List EngineRead := []
  /-- Outside the worker: the reads that a completion will arrive for. -/
  kernel : List EngineRead := []
  /-- Outside the worker: the copies that the waiter holds. -/
  copying : List IssuedCopy := []
  /-- Outside the worker: the buffers that the staging pool has lent. -/
  lent : List StagingBuffer := []
  /-- Outside the worker: the descriptors that are open for it. -/
  opened : List Int := []
  /-- Outside the worker: the pool has set its stop flag. -/
  stopping : Bool := false
  /-- History: the batches of the workloads. -/
  enqueued : List Batch := []
  /-- History: what the batches were told. -/
  answers : List Answer := []
  /-- History: the calls on the engine, with the reads that they concern.  A stage that the engine
  refuses is none. -/
  calls : List (QueueOp Nat) := []
  /-- History: the buffers that the staging pool has lent, each time that it has. -/
  borrowed : List StagingBuffer := []
  /-- History: the buffers that the staging pool has got back, each time that it has. -/
  returned : List StagingBuffer := []
  /-- History: a read was staged when the engine had no room for it. -/
  crowded : Bool := false
  /-- History: a pass found no scratch buffer. -/
  dry : Bool := false
  /-- History: the workloads that were reported under a read or a copy of theirs. -/
  early : List Nat := []

/-- The assertions of a worker. -/
inductive WorkerAssert where
  /-- {lit}`staging request id with no in-flight record`. -/
  | noRecord (id : Nat)
  /-- {lit}`already has a pass recorded`. -/
  | passRecorded (id : Nat)
  | completingTwice (id : Nat)
  | accountingTwice (id : Nat)
  | noneOutstanding
  | duplicateWorkload (id : Nat)
  /-- {lit}`more completions than were issued`. -/
  | moreThanIssued
deriving DecidableEq, Repr

/-- Why a call does not return. -/
inductive Stop where
  | assertion (which : WorkerAssert)
  /-- An access outside a vector. -/
  | undefined
  /-- The outside does not answer so. -/
  | refused
deriving DecidableEq, Repr

/-- What {lit}`stage_pending` learns from the staging pool, the file system and the engine. -/
structure StageAnswer where
  /-- {lit}`DeviceWriterClient::take`, with no buffer when none is free. -/
  acquired : ResponseCode
  buffer : Option StagingBuffer
  openedDirect : Int
  openedBuffered : Int
  staged : ResponseCode
deriving DecidableEq, Repr

/-! ## Reporting -/

/-- {lit}`error_by_file_index.emplace`: the first error of a file stays. -/
def Inflight.emplaceError (wl : Inflight) (fileIndex : Nat) (code : ResponseCode) : Inflight :=
  if (wl.errorByFileIndex.lookup fileIndex).isSome then wl
  else { wl with errorByFileIndex := wl.errorByFileIndex ++ [(fileIndex, code)] }

/-- {lit}`report_workload`. -/
def Inflight.report (wl : Inflight) (code : ResponseCode) : List Answer :=
  wl.batches.map fun batch =>
    .error batch
      (if code = .success then (wl.errorByFileIndex.lookup batch.fileIndex).getD .success else code)

/-- The tasks of a chunk's span that have bytes. -/
def Batch.spanTasks (batch : Batch) (chunk : Chunk) : List Task :=
  ((batch.tasks.drop chunk.firstTask).take chunk.taskCount).filter fun task =>
    !decide (task.info.bytesize = 0)

namespace Worker

/-- A read or a copy of the workload is not over. -/
def writes (w : Worker) (workloadId : Nat) : Bool :=
  (w.kernel.map EngineRead.id ++ w.copying.map IssuedCopy.id).any fun id =>
    (w.chunks.find id).any fun entry => entry.workloadId = workloadId

/-- {lit}`finalize`, which closes the descriptors of the workload. -/
def finalize (w : Worker) (workloadId : Nat) (code : ResponseCode) : Worker :=
  match w.workloads.lookup workloadId with
  | none => w
  | some wl =>
      { w with
        answers := w.answers ++ wl.report code
        workloads := w.workloads.remove workloadId
        opened := w.opened.filter fun fd => fd ∉ wl.fds.map BatchFd.fd
        early := if w.writes workloadId then w.early ++ [workloadId] else w.early }

/-! ## Completing a chunk -/

/-- A buffer is the staging pool's again. -/
def giveBack (w : Worker) (staging : Option StagingBuffer) : Worker :=
  { w with
    lent := w.lent.filter fun buffer => staging ≠ some buffer
    returned := w.returned ++ staging.toList }

/-- {lit}`account_chunk`. -/
def accountChunk (w : Worker) (id : Nat) (ret : ResponseCode) (freeSlot : Bool) :
    Except Stop Worker :=
  match w.chunks.find id with
  | none => .error (.assertion (.accountingTwice id))
  | some entry =>
      let w :=
        { w.giveBack entry.staging with
          chunks := w.chunks.release id
          queue := if freeSlot then w.queue.complete 1 else w.queue }
      match w.workloads.lookup entry.workloadId with
      | none => .ok w
      | some wl =>
          match wl.batches[entry.batchIndex]? with
          | none => .error .undefined
          | some batch =>
              if batch.tasks.length < entry.chunk.firstTask + entry.chunk.taskCount then
                .error .undefined
              else
                let tasks := Batch.spanTasks batch entry.chunk
                let answers := if ret = .success then tasks.map (.response batch) else []
                let wl :=
                  if ret = .success ∨ tasks = [] then wl else wl.emplaceError batch.fileIndex ret
                if wl.remainingChunks = 0 then .error (.assertion .noneOutstanding)
                else
                  let w :=
                    { w with
                      answers := w.answers ++ answers
                      workloads := w.workloads.update entry.workloadId fun _ =>
                        { wl with remainingChunks := wl.remainingChunks - 1 } }
                  if wl.remainingChunks - 1 = 0 then .ok (w.finalize entry.workloadId .success)
                  else .ok w

/-- {lit}`complete_chunk`, with what {lit}`DeviceWriterClient::write` answers. -/
def completeChunk (w : Worker) (id : Nat) (ret written : ResponseCode) : Except Stop Worker :=
  match w.chunks.find id with
  | none => .error (.assertion (.completingTwice id))
  | some entry =>
      match if ret = .success then entry.staging else none, w.workloads.lookup entry.workloadId with
      | some buffer, some _ =>
          let w := { w with chunks := w.chunks.set id { entry with staging := none } }
          if written = .success then
            .ok
              { w with
                copying := w.copying ++ [{ id, staging := buffer }]
                copiesIssued := w.copiesIssued + 1
                queue := w.queue.complete 1 }
          else
            -- A write that fails has disposed of the buffer itself.
            (w.giveBack buffer).accountChunk id .deviceTransferError true
      | _, _ => w.accountChunk id ret true

/-! ## Staging a read -/

/-- {lit}`wants_direct`. -/
def wantsDirect (w : Worker) (fileOffset : Nat) (buffer : Addr) (staged : Bool) : Bool :=
  w.strategy.isDirect && !w.directRefused && (staged || isCongruent fileOffset buffer w.block)

/-- The opens of {lit}`fd_for`: a direct open that fails is followed by a buffered one. -/
def openFile (file : BatchFd) (direct : Bool) (answer : StageAnswer) : BatchFd :=
  if direct ∧ 0 ≤ answer.openedDirect then { file with fd := answer.openedDirect, direct := true }
  else if answer.openedBuffered < 0 then
    { file with fd := answer.openedBuffered, error := .fileAccessError }
  else { file with fd := answer.openedBuffered, direct := false }

/-- Change the descriptor of a batch. -/
def setFile (w : Worker) (workloadId batchIndex : Nat) (file : BatchFd) : Worker :=
  { w with
    workloads := w.workloads.update workloadId fun wl =>
      { wl with fds := wl.fds.set batchIndex file } }

/-- {lit}`fd_for`. -/
def fdFor (w : Worker) (workloadId batchIndex : Nat) (direct : Bool) (answer : StageAnswer) :
    Except Stop (BatchFd × Worker) :=
  match (w.workloads.lookup workloadId).bind fun wl => wl.fds[batchIndex]? with
  | none => .error .undefined
  | some file =>
      if file.error ≠ .success ∨ 0 ≤ file.fd then .ok (file, w)
      else
        let file := openFile file direct answer
        if file.fd < 0 then .ok (file, w.setFile workloadId batchIndex file)
        else if file.fd ∈ w.opened then .error .refused
        else
          .ok (file, { w.setFile workloadId batchIndex file with opened := w.opened ++ [file.fd] })

/-- {lit}`clear_bounce`, and the scratch buffer goes back to its pool. -/
def clearBounce (w : Worker) (id : Nat) (entry : InflightChunk) : Worker :=
  { w with
    scratch :=
      match entry.scratch with
      | none => w.scratch
      | some buffer => w.scratch.map fun pool => pool.give buffer
    chunks := w.chunks.set id entry.clearBounce }

/-- {lit}`stage_pending` from the point where the file is open. -/
def stagePass (w : Worker) (id : Nat) (entry : InflightChunk) (file : BatchFd)
    (answer : StageAnswer) : Except Stop Worker :=
  let entry := entry.placeInStaging w.block file.direct
  let w := { w with chunks := w.chunks.set id entry }
  match planPass w.scratch entry.pending w.block file.direct entry.staging.isSome with
  | none => ({ w with dry := true } : Worker).completeChunk id .unknownError .success
  | some (pass, scratch) =>
      if (pass.scratch.isSome ∨ pass.wanted ≠ 0) ∧
          (entry.scratch.isSome ∨ entry.scratchWanted ≠ 0) then
        .error (.assertion (.passRecorded id))
      else
        let entry := entry.withPass pass
        let w :=
          { w with
            scratch
            chunks := w.chunks.set id entry
            crowded := w.crowded || decide (w.depth ≤ w.staged.length + w.kernel.length) }
        if answer.staged = .success then
          .ok
            { w with
              staged := w.staged ++ [{ id, file := ⟨file.fd, file.direct⟩, pass }]
              calls := w.calls ++ [.stage id] }
        else
          (w.clearBounce id entry).completeChunk id answer.staged .success

/-- {lit}`stage_pending` from the point where the chunk has a place to be read to. -/
def stageRead (w : Worker) (id : Nat) (entry : InflightChunk) (answer : StageAnswer) :
    Except Stop Worker := do
  let pending := entry.pending
  let direct := w.wantsDirect pending.offset pending.buffer entry.staging.isSome
  let (file, w) ← w.fdFor entry.workloadId entry.batchIndex direct answer
  if file.error ≠ .success then w.completeChunk id file.error .success
  else w.stagePass id entry file answer

/-- {lit}`stage_pending`. -/
def stagePending (w : Worker) (id : Nat) (answer : StageAnswer) : Except Stop Worker :=
  match w.chunks.find id with
  | none => .error (.assertion (.noRecord id))
  | some entry =>
      match w.workloads.lookup entry.workloadId with
      | none => .ok { w with queue := w.queue.complete 1, chunks := w.chunks.release id }
      | some wl =>
          match wl.batches[entry.batchIndex]? with
          | none => .error .undefined
          | some batch =>
              if entry.staging.isNone ∧ readsThroughStaging batch.device then
                if answer.acquired ≠ .success then w.completeChunk id answer.acquired .success
                else
                  match answer.buffer with
                  | none => .ok { w with waiting := w.waiting ++ [id] }
                  | some buffer =>
                      if buffer ∈ w.lent then .error .refused
                      else
                        let entry := { entry with staging := some buffer }
                        { w with
                          lent := w.lent ++ [buffer]
                          borrowed := w.borrowed ++ [buffer]
                          chunks := w.chunks.set id entry }.stageRead id entry answer
              else w.stageRead id entry answer

end Worker

end AsyncIo
end ModelStreamer
