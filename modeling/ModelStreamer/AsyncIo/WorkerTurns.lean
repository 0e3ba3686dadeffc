import ModelStreamer.AsyncIo.Worker
import ModelStreamer.Lib.Run

/-!
# The turns of the asynchronous worker

What the base class of the worker calls: a workload is enqueued, the queue is submitted as far as
the window allows, and one turn drains the copies that have landed, issues what is staged and
harvests completions.  A run is any sequence of these calls, with the landing of copies in between.

The base class drains a worker only when it has something to drain, and the pool hands it no
workload once it is stopping.
-/

namespace ModelStreamer
namespace AsyncIo

open Common Lib Streamer PosixIo
open ObjectStorage (Answer CapacityQueue)

namespace Worker

/-! ## Enqueueing a workload -/

/-- The part of {lit}`enqueue` that adopts a measured block, if the scratch buffers allow it. -/
def adoptBlock (w : Worker) (directBlock : Nat) : Worker :=
  if w.blockMeasured = false ∧ directBlock ≠ 0 then
    if w.scratch.any fun pool => pool.block < directBlock then w
    else { w with block := directBlock, blockMeasured := true }
  else w

/-- The zero-sized tasks of a batch are answered, if its file can be opened. -/
def answerZeroSized (w : Worker) (workloadId : Nat) (batch : Batch) (opens : Bool) : Worker :=
  let tasks := batch.tasks.filter fun task => task.info.bytesize = 0
  if tasks = [] then w
  else if opens then { w with answers := w.answers ++ tasks.map (.response batch) }
  else
    { w with
      workloads := w.workloads.update workloadId fun wl =>
        wl.emplaceError batch.fileIndex .fileAccessError }

/-- A chunk is queued under the next id. -/
def queueChunk (workloadId batchIndex : Nat) (w : Worker) (chunk : Chunk) : Worker :=
  { w with
    chunks := w.chunks.add (.make chunk workloadId batchIndex)
    queue := w.queue.enqueue w.chunks.nextId 1 }

/-- The loop of {lit}`enqueue` over the batches, with the files that {lit}`probe_open` opens. -/
def enqueueBatches (workloadId : Nat) (opens : Nat → Bool) : Nat → List Batch → Worker → Worker
  | _, [], w => w
  | batchIndex, batch :: batches, w =>
      let w := w.answerZeroSized workloadId batch (opens batchIndex)
      let w := batch.chunks.foldl (queueChunk workloadId batchIndex) w
      enqueueBatches workloadId opens (batchIndex + 1) batches w

/-- {lit}`enqueue`. -/
def enqueue (w : Worker) (batches : List Batch) (directBlock : Nat) (opens : Nat → Bool) :
    Except Stop Worker :=
  let w := { w with enqueued := w.enqueued ++ batches }
  if w.engineDead then
    .ok { w with answers := w.answers ++ { batches, fds := [] : Inflight }.report w.engineError }
  else
    let w := w.adoptBlock directBlock
    let workloadId := w.nextWorkloadId
    if (w.workloads.lookup workloadId).isSome then
      .error (.assertion (.duplicateWorkload workloadId))
    else
      let wl : Inflight := { batches, fds := batches.map fun _ => {} }
      let w :=
        { w with
          nextWorkloadId := workloadId + 1
          workloads := w.workloads ++ [(workloadId, wl)] }
      let w := enqueueBatches workloadId opens 0 batches w
      let queued : Nat := (batches.map fun batch => batch.chunks.length).sum
      let w :=
        { w with
          workloads := w.workloads.update workloadId fun wl =>
            { wl with remainingChunks := queued } }
      if queued = 0 then .ok (w.finalize workloadId .success) else .ok w

/-! ## Submitting what is queued -/

/-- {lit}`CapacityWorker::pump`, with an answer for each chunk that is submitted. -/
def pump : List StageAnswer → Worker → Except Stop Worker
  | answers, w =>
      match w.queue.tryTake with
      | none => .ok w
      | some (id, queue) =>
          match answers with
          | [] => .error .refused
          | answer :: answers => do
              let w ← { w with queue }.stagePending id answer
              pump answers w

/-! ## Copies and parked chunks -/

/-- The waiter reports a copy; its buffer is back in the pool before. -/
def copyLands (w : Worker) (done : CopyDone) : Except Stop Worker :=
  match w.copying.find? fun copy => copy.id = done.id with
  | none => .error .refused
  | some copy =>
      .ok
        { w.giveBack copy.staging with
          copying := w.copying.eraseP fun copy => copy.id = done.id
          copies := w.copies ++ [done] }

/-- Copies land one after the other. -/
def copiesLand : List CopyDone → Worker → Except Stop Worker
  | [], w => .ok w
  | done :: landing, w => do
      let w ← w.copyLands done
      copiesLand landing w

/-- {lit}`complete_copy` for every copy that has landed. -/
def popCopies : Nat → Worker → Except Stop Worker
  | 0, w => .ok w
  | turns + 1, w =>
      match w.copies with
      | [] => .ok w
      | done :: copies => do
          let w := { w with copies, copiesIssued := w.copiesIssued - 1 }
          let w ← w.accountChunk done.id done.ret false
          popCopies turns w

/-- {lit}`drain_copies`, with the copies that land while it runs. -/
def drainCopies (w : Worker) (wait : Bool) (landing : List CopyDone) : Except Stop Worker := do
  let w ← copiesLand landing w
  let w ← popCopies w.copiesIssued w
  if wait ∧ w.copiesIssued ≠ 0 then .error .refused else return w

/-- The loop of {lit}`resume_waiting`, for as many turns as there were parked chunks. -/
def resumeParked : Nat → List StageAnswer → Worker → Except Stop Worker
  | 0, _, w => .ok w
  | turns + 1, answers, w =>
      match w.waiting, answers with
      | [], _ => .ok w
      | _ :: _, [] => .error .refused
      | id :: waiting, answer :: answers => do
          let w ← { w with waiting }.stagePending id answer
          resumeParked turns answers w

/-- {lit}`resume_waiting`. -/
def resumeWaiting (w : Worker) (answers : List StageAnswer) : Except Stop Worker :=
  resumeParked w.waiting.length answers w

/-! ## Aborting -/

/-- {lit}`engine_is_dead`: the first reason stays. -/
def engineIsDead (w : Worker) (code : ResponseCode) : Worker :=
  if w.engineDead then w else { w with engineDead := true, engineError := code }

/-- The engine hands out completions, each of a read that it holds. -/
def handOut : List Nat → Worker → Except Stop Worker
  | [], w => .ok w
  | id :: ids, w =>
      if w.kernel.any fun read => read.id = id then
        handOut ids { w with kernel := w.kernel.eraseP fun read => read.id = id }
      else .error .refused

/-- {lit}`wait_for_completions`, with the completions that it hands out. -/
def collect (w : Worker) (ids : List Nat) : Except Stop Worker :=
  handOut ids { w with calls := w.calls ++ [.collect ids] }

/-- {lit}`wait_for_completions`, if it fails. -/
def collectNone (w : Worker) : Worker :=
  { w with calls := w.calls ++ [.collect []] }

/-- What {lit}`wait_for_completions` gives {lit}`quiesce`. -/
structure Round where
  code : ResponseCode
  ids : List Nat
deriving DecidableEq, Repr

/-- The loop of {lit}`quiesce` over the reads. -/
def quiesceReads : List Round → Worker → Except Stop Worker
  | rounds, w =>
      if w.issued = 0 then .ok w
      else
        match rounds with
        | [] => .error .refused
        | round :: rounds =>
            if round.code ≠ .success then .ok w.collectNone
            else do
              let w ← w.collect round.ids
              if w.issued < round.ids.length then .error (.assertion .moreThanIssued)
              else quiesceReads rounds { w with issued := w.issued - round.ids.length }

/-- What {lit}`abort_all` gets from outside. -/
structure AbortAnswer where
  landing : List CopyDone
  rounds : List Round
deriving DecidableEq, Repr

/-- {lit}`finalize` for every workload. -/
def finalizeAll (w : Worker) (code : ResponseCode) : Worker :=
  w.workloads.keys.foldl (fun w workloadId => w.finalize workloadId code) w

/-- The chunks that are given up give back their scratch and staging buffers. -/
def giveBackAll (w : Worker) : Worker :=
  { w with
    scratch := w.scratch.map fun pool =>
      (w.chunks.entries.filterMap fun e => e.2.scratch).foldl ScratchPool.give pool
    lent := w.lent.filter fun buffer => w.chunks.entries.all fun e => e.2.staging ≠ some buffer
    returned := w.returned ++ w.chunks.entries.filterMap fun e => e.2.staging }

/-- {lit}`abort_all`. -/
def abortAll (w : Worker) (code : ResponseCode) (answer : AbortAnswer) : Except Stop Worker := do
  let w := if code = .finishedError then w else w.engineIsDead code
  let w := { w with queue := w.queue.clear }
  let w ← w.drainCopies true answer.landing
  let w ← quiesceReads answer.rounds w
  let w := (w.finalizeAll code).giveBackAll
  return { w with chunks := w.chunks.clear, waiting := [], issued := 0 }

/-! ## Harvesting completions -/

/-- A completion, with the answers for what its chunk does next. -/
structure Harvest where
  id : Nat
  res : Int
  restaged : StageAnswer
  /-- For {lit}`demote_to_buffered`: the open, and {lit}`dup2`. -/
  reopened : Int
  replaced : Int
  written : ResponseCode
deriving DecidableEq, Repr

/-- {lit}`file_of`. -/
def fileOf (w : Worker) (entry : InflightChunk) : FileRef :=
  match (w.workloads.lookup entry.workloadId).bind fun wl => wl.fds[entry.batchIndex]? with
  | none => ⟨-1, false⟩
  | some file => ⟨file.fd, file.direct⟩

/-- {lit}`demote_to_buffered`. -/
def demoteToBuffered (w : Worker) (entry : InflightChunk) (harvest : Harvest) :
    Except Stop (ResponseCode × Worker) :=
  match (w.workloads.lookup entry.workloadId).bind fun wl => wl.fds[entry.batchIndex]? with
  | none => .ok (.unknownError, w)
  | some file =>
      if harvest.reopened < 0 then .ok (.fileAccessError, w)
      else if harvest.reopened ∈ w.opened then .error .refused
      else if 0 ≤ file.fd then
        if harvest.replaced < 0 then .ok (.fileAccessError, w)
        else
          let w := w.setFile entry.workloadId entry.batchIndex { file with direct := false }
          .ok (.success, { w with directRefused := true })
      else
        let file := { file with fd := harvest.reopened, direct := false }
        let w := w.setFile entry.workloadId entry.batchIndex file
        .ok (.success, { w with directRefused := true, opened := w.opened ++ [harvest.reopened] })

/-- A read that failed, and whose scratch buffer was given back. -/
def failedRead (w : Worker) (entry : InflightChunk) (harvest : Harvest) : Except Stop Worker :=
  match if isTransient harvest.res then entry.mayRetryTransient else none with
  | some entry =>
      { w with chunks := w.chunks.set harvest.id entry }.stagePending harvest.id harvest.restaged
  | none =>
      let file := w.fileOf entry
      if file.direct ∧ harvest.res = -eINVAL then do
        let (code, w) ← w.demoteToBuffered entry harvest
        if code = .success then w.stagePending harvest.id harvest.restaged
        else w.completeChunk harvest.id code .success
      else w.completeChunk harvest.id (mapCompletion harvest.res file) .success

/-- A read that has landed, with what of it belongs to its chunk. -/
def landedRead (w : Worker) (entry : InflightChunk) (useful : Nat) (harvest : Harvest) :
    Except Stop Worker :=
  let (progress, entry) := entry.record useful
  let w := { w with chunks := w.chunks.set harvest.id entry }
  match progress with
  | .complete => w.completeChunk harvest.id .success harvest.written
  | .eof => w.completeChunk harvest.id .eofError .success
  | .partialRead => w.stagePending harvest.id harvest.restaged

/-- One turn of the loop of {lit}`drain_batch` over the completions. -/
def harvestOne (w : Worker) (harvest : Harvest) : Except Stop Worker :=
  if w.issued = 0 then .error (.assertion .moreThanIssued)
  else
    let w := { w with issued := w.issued - 1 }
    match w.chunks.find harvest.id with
    | none => .ok w
    | some entry =>
        let w := w.clearBounce harvest.id entry
        if harvest.res < 0 then w.failedRead entry.clearBounce harvest
        else w.landedRead entry.clearBounce (entry.useful harvest.res.toNat) harvest

/-- The loop of {lit}`drain_batch` over the completions. -/
def harvestEach : List Harvest → Worker → Except Stop Worker
  | [], w => .ok w
  | harvest :: harvests, w => do
      let w ← w.harvestOne harvest
      harvestEach harvests w

/-! ## Draining -/

/-- What {lit}`IoEngine::flush` answers: it issues the first of the staged reads. -/
structure FlushAnswer where
  code : ResponseCode
  issued : Nat
  deferred : Bool
deriving DecidableEq, Repr

/-- The reads that a flush issues. -/
def flush (w : Worker) (answer : FlushAnswer) : Except Stop Worker :=
  if w.staged.length < answer.issued then .error .refused
  else
    .ok
      { w with
        kernel := w.kernel ++ w.staged.take answer.issued
        staged := w.staged.drop answer.issued
        calls := w.calls ++ [.flush answer.issued] }

/-- {lit}`MaxStalledFlushes`. -/
def maxStalledFlushes : Nat := 1024

/-- What {lit}`drain_batch` gets from outside. -/
structure DrainAnswer where
  stopped : Bool
  landing : List CopyDone
  resumed : List StageAnswer
  flushed : FlushAnswer
  /-- What {lit}`wait_for_completions` returns. -/
  waited : ResponseCode
  harvests : List Harvest
  aborting : AbortAnswer
deriving DecidableEq, Repr

/-- The part of {lit}`drain_batch` after the flush has succeeded. -/
def harvest (w : Worker) (answer : DrainAnswer) : Except Stop Worker :=
  if answer.waited ≠ .success then w.collectNone.abortAll answer.waited answer.aborting
  else if w.depth < answer.harvests.length then .error .refused
  else do
    let w ← w.collect (answer.harvests.map Harvest.id)
    harvestEach answer.harvests w

/-- {lit}`drain_batch`. -/
def drainBatch (w : Worker) (answer : DrainAnswer) : Except Stop Worker :=
  if answer.stopped then
    ({ w with stopping := true } : Worker).abortAll .finishedError answer.aborting
  else do
    let w ← w.drainCopies (w.issued = 0) answer.landing
    let w ← w.resumeWaiting answer.resumed
    let before := w.issued
    let w ← w.flush answer.flushed
    let w := { w with issued := before + answer.flushed.issued }
    if answer.flushed.code ≠ .success then w.abortAll answer.flushed.code answer.aborting
    else if answer.flushed.deferred ∧ answer.flushed.issued = 0 ∧ before = 0 then
      if maxStalledFlushes < w.stalledFlushes + 1 then
        ({ w with stalledFlushes := 0 } : Worker).abortAll .fsAsyncEngineError answer.aborting
      else ({ w with stalledFlushes := w.stalledFlushes + 1 } : Worker).harvest answer
    else ({ w with stalledFlushes := 0 } : Worker).harvest answer

/-- {lit}`has_deferred_work`. -/
def hasDeferredWork (w : Worker) : Bool :=
  0 < w.copiesIssued || !w.waiting.isEmpty

/-- {lit}`CapacityWorker::idle`. -/
def idle (w : Worker) : Bool :=
  w.queue.idle && !w.hasDeferredWork

/-- {lit}`CapacityWorker` drains: chunks are queued, the window is full, or it is not idle. -/
def mayDrain (w : Worker) : Bool :=
  !w.queue.pending.isEmpty || decide (w.queue.capacity ≤ w.queue.inflight) || !w.idle

/-! ## Runs -/

/-- The calls of a worker, and what happens around them. -/
inductive Action where
  | enqueue (batches : List Batch) (directBlock : Nat) (opens : Nat → Bool)
  | pump (answers : List StageAnswer)
  | drainBatch (answer : DrainAnswer)
  | copyLands (done : CopyDone)

/-- One call. -/
def step (w : Worker) : Action → Except Stop Worker
  | .enqueue batches directBlock opens =>
      if w.stopping then .error .refused else w.enqueue batches directBlock opens
  | .pump answers => w.pump answers
  | .drainBatch answer =>
      if w.mayDrain = false ∨ (w.stopping ∧ answer.stopped = false) then .error .refused
      else w.drainBatch answer
  | .copyLands done => w.copyLands done

/-- The worker after a call that returns. -/
def next (w : Worker) (action : Action) : Option Worker :=
  (w.step action).toOption

/-- A worker whose engine has just come up. -/
def start (strategy : Strategy) (depth block : Nat) (measured : Bool) (scratch : List Addr) :
    Worker :=
  { strategy
    depth
    block
    blockMeasured := measured
    scratch := if strategy.isDirect then some { block, free := scratch } else none
    queue := .make depth }

end Worker

end AsyncIo
end ModelStreamer
