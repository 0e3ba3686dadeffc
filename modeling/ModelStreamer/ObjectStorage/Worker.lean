import ModelStreamer.DeviceIo.StagingPool
import ModelStreamer.Lib.IdBlocks
import ModelStreamer.Lib.OrderedMap
import ModelStreamer.ObjectStorage.CapacityQueue
import ModelStreamer.ObjectStorage.Retry
import ModelStreamer.Streamer.Batches

/-!
# The object storage worker

A worker reads the chunks of several workloads at once, through a plugin that reports the reads
in any order.  A completion is routed to its workload by its handle: every workload has a block
of handles, and the blocks are kept by their bases.

The worker runs on one thread.  What its calls get from outside, the answers of the plugin, of
the staging pool and of the clock, are arguments of the functions; an answer that the outside
would not give is {lit}`refused`.  An assertion throws, and leaves the worker as it is then.
-/

namespace ModelStreamer
namespace ObjectStorage

open Common DeviceIo.Staging Lib Streamer

/-! ## What a worker keeps -/

/-- {lit}`ObjectChunk`: one ranged read. -/
structure ObjectChunk where
  handle : Nat
  offset : Nat
  bytesize : Nat
  buffer : Addr
deriving DecidableEq, Repr

/-- {lit}`ObjectStorageWorker::TaskState`, with the objects behind its pointers. -/
structure TaskState where
  batch : Batch
  task : Task
  error : ResponseCode := .success
deriving DecidableEq, Repr

/-- {lit}`ObjectStorageWorker::ChunkState`. -/
structure ChunkState where
  chunk : ObjectChunk
  first : Nat
  count : Nat
  retry : RetryState := {}
  staging : StagingBuffer := {}
deriving DecidableEq, Repr

/-- {lit}`ObjectStorageWorker::Inflight`. -/
structure Inflight where
  batches : List Batch := []
  chunks : List ChunkState := []
  tasks : List TaskState := []
  errorByFileIndex : OrderedMap Nat ResponseCode := .empty
  remainingChunks : Nat := 0

/-- A call of a batch that answers ranges: {lit}`handle_response` or {lit}`handle_error`. -/
inductive Answer where
  | response (batch : Batch) (task : Task)
  | error (batch : Batch) (code : ResponseCode)
deriving DecidableEq, Repr

/-- {lit}`ObjectStorageWorker::CopyDone`. -/
structure CopyDone where
  handle : Nat
  ret : ResponseCode
deriving DecidableEq, Repr

/-- A read that the plugin holds, and the staging buffer that it writes into. -/
structure PluginRead where
  chunk : ObjectChunk
  staging : StagingBuffer
deriving DecidableEq, Repr

/-- A copy that the issuer holds. -/
structure IssuedCopy where
  handle : Nat
  staging : StagingBuffer
deriving DecidableEq, Repr

/-- A buffer that went back to its staging pool, from the worker or from the issuer. -/
structure GivenBack where
  buffer : StagingBuffer
  /-- {lit}`retire`, not {lit}`release`. -/
  retired : Bool
  /-- The plugin still held a read into it. -/
  underRead : Bool
deriving DecidableEq, Repr

/-- {lit}`ObjectStorageWorker`, from the moment its window is up. -/
structure Worker where
  /-- {lit}`_chunk_bytesize`. -/
  chunkBytesize : Nat
  /-- {lit}`_inflight`. -/
  workloads : OrderedMap Nat Inflight := .empty
  /-- {lit}`_async_handle_counter`. -/
  handleCounter : Nat := 1
  queue : CapacityQueue ObjectChunk
  retry : Retry
  waitingRetries : List Nat := []
  waiting : List Nat := []
  copiesIssued : Nat := 0
  /-- {lit}`_copies`: the copies that have landed. -/
  copies : List CopyDone := []
  /-- Outside the worker: the reads that the plugin holds. -/
  reads : List PluginRead := []
  /-- Outside the worker: the copies that the issuer holds. -/
  copying : List IssuedCopy := []
  /-- Outside the worker: the buffers that the staging pool has lent. -/
  lent : List StagingBuffer := []
  /-- History: the blocks of handles. -/
  blocks : List IdBlock := []
  /-- History: the chunks that were made. -/
  made : List ObjectChunk := []
  /-- History: the chunks of the reads that the plugin took. -/
  submitted : List ObjectChunk := []
  /-- History: the handles that were reported, with the chunks they were applied to. -/
  applied : List (Nat × ObjectChunk) := []
  /-- History: what the batches were told. -/
  answers : List Answer := []
  /-- History: the buffers that went back to the pool. -/
  givenBack : List GivenBack := []

/-- The assertions of a worker. -/
inductive WorkerAssert where
  /-- {lit}`submitting a chunk with unknown handle`. -/
  | submitHandle (handle : Nat)
  /-- {lit}`retrying a chunk with unknown handle`. -/
  | retryHandle (handle : Nat)
  | coversNoTasks (handle : Nat)
  | taskFailed
  | noneOutstanding
deriving DecidableEq, Repr

/-- Why a call does not return. -/
inductive Stop where
  /-- An assertion throws.  The thread catches the exception outside the call, and the worker
  goes on as the call has left it. -/
  | assertion (which : WorkerAssert) (left : Worker)
  /-- An access outside a vector. -/
  | undefined
  /-- The outside does not answer so. -/
  | refused

/-! ## Answers of the outside -/

/-- What {lit}`submit` learns from the copy path, the staging pool, the clock and the plugin. -/
structure SubmitAnswer where
  /-- {lit}`staging_pool_for`. -/
  ready : ResponseCode
  /-- {lit}`try_acquire`, with a buffer that is not valid when none is free. -/
  acquired : ResponseCode
  buffer : StagingBuffer
  now : Int
  /-- {lit}`async_read`: success, or the code that it throws. -/
  read : ResponseCode
deriving DecidableEq, Repr

/-- A completion, with the clock and the delay for the case that the chunk is read again. -/
structure Event where
  handle : Nat
  ret : ResponseCode
  now : Int
  delay : Int
deriving DecidableEq, Repr

/-- What {lit}`async_response` gives. -/
structure Round where
  code : ResponseCode
  events : List Event
deriving DecidableEq, Repr

/-- The completions of a round; a marker says that there are no more. -/
def Round.completions (round : Round) : List Event :=
  round.events.takeWhile fun event => event.ret ≠ .finishedError

/-- The round has no completions, or it has a marker. -/
def Round.drained (round : Round) : Bool :=
  round.events.isEmpty || round.events.any fun event => event.ret = .finishedError

/-! ## Chunks by their handles -/

namespace Worker

/-- {lit}`locate`: the base of the workload that has a handle, and the chunk. -/
def locate (w : Worker) (handle : Nat) : Option (Nat × Nat) :=
  match w.workloads.floor handle with
  | none => none
  | some (base, wl) =>
      if wl.chunks.length ≤ handle - base then none else some (base, handle - base)

/-- The chunk that {lit}`locate` points at. -/
def chunkAt (w : Worker) (base index : Nat) : Option (Inflight × ChunkState) :=
  (w.workloads.find? base).bind fun wl => (wl.chunks[index]?).map fun cs => (wl, cs)

/-- Change a chunk. -/
def setChunk (w : Worker) (base index : Nat) (f : ChunkState → ChunkState) : Worker :=
  { w with
    workloads := w.workloads.modify base fun wl => { wl with chunks := wl.chunks.modify index f } }

/-- {lit}`StagingPool::release` or {lit}`StagingPool::retire`; a retired buffer stays lent. -/
def giveBack (w : Worker) (buffer : StagingBuffer) (retired : Bool) : Worker :=
  { w with
    lent := if retired then w.lent else w.lent.erase buffer
    givenBack := w.givenBack ++
      [{ buffer, retired, underRead := w.reads.any fun read => read.staging = buffer }] }

/-- {lit}`_pool->release(cs.staging)`, if the chunk has a buffer. -/
def releaseStaging (w : Worker) (base index : Nat) (cs : ChunkState) : Worker :=
  if cs.staging.valid then
    (w.giveBack cs.staging false).setChunk base index fun cs => { cs with staging := {} }
  else
    w

/-! ## Completing a chunk -/

/-- {lit}`report_workload`. -/
def report (wl : Inflight) (code : ResponseCode) : List Answer :=
  wl.batches.map fun batch =>
    .error batch
      (if code = .success then (wl.errorByFileIndex.find? batch.fileIndex).getD .success else code)

/-- {lit}`finalize`. -/
def finalize (w : Worker) (base : Nat) (code : ResponseCode) : Worker :=
  match w.workloads.find? base with
  | none => w
  | some wl =>
      { w with
        answers := w.answers ++ report wl code
        workloads := w.workloads.erase base }

/-- One read carried these tasks, so they share its outcome. -/
def answerTasks (ret : ResponseCode) :
    List Nat → Inflight × List Answer → Inflight × List Answer
  | [], s => s
  | i :: rest, (wl, answers) =>
      match wl.tasks[i]? with
      | none => answerTasks ret rest (wl, answers)
      | some ts =>
          if ts.task.info.bytesize = 0 then answerTasks ret rest (wl, answers)
          else if ret = .success then
            answerTasks ret rest ({ wl with tasks := wl.tasks.set i { ts with error := ret } },
              answers ++ [.response ts.batch ts.task])
          else
            answerTasks ret rest ({ wl with
              tasks := wl.tasks.set i { ts with error := ret }
              errorByFileIndex := wl.errorByFileIndex.update ts.batch.fileIndex ret id }, answers)

/-- {lit}`issue_copy`. -/
def issueCopy (w : Worker) (base index : Nat) (cs : ChunkState) : Worker :=
  let w := { w with queue := w.queue.complete 1 }
  let w := w.setChunk base index fun cs => { cs with staging := {} }
  { w with
    copying := w.copying ++ [{ handle := cs.chunk.handle, staging := cs.staging }]
    copiesIssued := w.copiesIssued + 1 }

/-- The part of {lit}`complete_chunk` that accounts a chunk. -/
def accountChunk (w : Worker) (base : Nat) (cs : ChunkState) (ret : ResponseCode) :
    Except Stop Worker :=
  match w.workloads.find? base with
  | none => .error .undefined
  | some wl =>
      let (wl, answers) := answerTasks ret (List.range' cs.first cs.count) (wl, [])
      let w := { w with answers := w.answers ++ answers }
      if wl.remainingChunks = 0 then
        .error (.assertion .noneOutstanding
          { w with workloads := w.workloads.modify base fun _ => wl })
      else
        let w :=
          { w with
            workloads := w.workloads.modify base fun _ =>
              { wl with remainingChunks := wl.remainingChunks - 1 } }
        if wl.remainingChunks - 1 = 0 then .ok (w.finalize base .success) else .ok w

/-- {lit}`complete_chunk`. -/
def completeChunk (w : Worker) (base index : Nat) (ret : ResponseCode) (freeSlot : Bool) :
    Except Stop Worker :=
  match w.chunkAt base index with
  | none => .error .undefined
  | some (_, cs) =>
      if ret = .success ∧ cs.staging.valid ∧ freeSlot then
        .ok (w.issueCopy base index cs)
      else
        let w := w.releaseStaging base index cs
        let w := if freeSlot then { w with queue := w.queue.complete 1 } else w
        w.accountChunk base cs ret

/-! ## Submitting a chunk -/

/-- The part of {lit}`submit` from the attempt on. -/
def attempt (w : Worker) (base index : Nat) (chunk : ObjectChunk) (cs : ChunkState)
    (answer : SubmitAnswer) : Except Stop Worker :=
  let (started, retry) :=
    if w.retry.enabled then w.retry.beginAttempt cs.retry answer.now else (true, cs.retry)
  let w := w.setChunk base index fun cs => { cs with retry }
  if !started then w.completeChunk base index .fileAccessError true
  else if answer.read = .success then
    .ok
      { w with
        reads := w.reads ++ [{ chunk, staging := cs.staging }]
        submitted := w.submitted ++ [chunk] }
  else
    w.completeChunk base index answer.read true

/-- A chunk that gets no buffer waits; one that has attempted waits with the retries. -/
def park (w : Worker) (cs : ChunkState) (handle : Nat) : Worker :=
  if 0 < cs.retry.retryCount then { w with waitingRetries := w.waitingRetries ++ [handle] }
  else { w with waiting := w.waiting ++ [handle] }

/-- {lit}`submit`. -/
def submit (w : Worker) (chunk : ObjectChunk) (answer : SubmitAnswer) : Except Stop Worker :=
  match w.locate chunk.handle with
  | none => .error (.assertion (.submitHandle chunk.handle) w)
  | some (base, index) =>
      match w.chunkAt base index with
      | none => .error .undefined
      | some (wl, cs) =>
          if cs.count = 0 then .error (.assertion (.coversNoTasks chunk.handle) w)
          else
            match wl.tasks[cs.first]? with
            | none => .error .undefined
            | some first =>
                if first.error ≠ .success then .error (.assertion .taskFailed w)
                else if first.batch.device.isHost then w.attempt base index chunk cs answer
                else if answer.ready ≠ .success then
                  w.completeChunk base index answer.ready true
                else if answer.acquired ≠ .success then
                  w.completeChunk base index answer.acquired true
                else if !answer.buffer.valid then .ok (w.park cs chunk.handle)
                else if answer.buffer ∈ w.lent then .error .refused
                else
                  let w := { w with lent := w.lent ++ [answer.buffer] }
                  let w := w.setChunk base index fun cs => { cs with staging := answer.buffer }
                  w.attempt base index chunk { cs with staging := answer.buffer } answer

end Worker

end ObjectStorage
end ModelStreamer
