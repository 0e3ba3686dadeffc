import ModelStreamer.Lib.Run
import ModelStreamer.Lib.Word
import ModelStreamer.ObjectStorage.Worker

/-!
# The turns of an object storage worker

What the base class of the worker calls: a workload is enqueued, the pending chunks are
submitted as far as the window allows, and the completions of a turn are drained.  A run is any
sequence of these calls, with the landing of copies in between.
-/

namespace ModelStreamer
namespace ObjectStorage

open Common DeviceIo.Staging Lib Streamer

namespace Worker

/-! ## Aborting -/

/-- The plugin hands out completions.  It reports a read that it holds, and each only once; a
handle that was never given out may come from anywhere. -/
def handOut : List Event → Worker → Except Stop Worker
  | [], w => .ok w
  | event :: events, w =>
      if w.reads.any fun read => read.chunk.handle = event.handle then
        handOut events
          { w with reads := w.reads.eraseP fun read => read.chunk.handle = event.handle }
      else if w.blocks.any fun block => block.Has event.handle then .error .refused
      else handOut events w

/-- {lit}`quiesce_reads`: whether the plugin holds none of the reads any more. -/
def quiesceReads : List Round → Worker → Except Stop (Bool × Worker)
  | rounds, w =>
      if w.queue.inflight = 0 then .ok (true, w)
      else
        match rounds with
        | [] => .error .refused
        | round :: rounds =>
            if round.code ≠ .success then .ok (false, w)
            else do
              let w ← handOut round.completions w
              let w := { w with queue := w.queue.complete round.completions.length }
              if round.completions.length = 0 ∧ round.drained then return (false, w)
              else quiesceReads rounds w

/-- Staging buffers go back to the pool, one after the other. -/
def giveBackEach (w : Worker) (buffers : List StagingBuffer) (retired : Bool) : Worker :=
  buffers.foldl (fun w buffer => w.giveBack buffer retired) w

/-- {lit}`quiesce_copies`: every copy that the issuer holds lands, and its buffer is free. -/
def quiesceCopies (w : Worker) : Worker :=
  { w with copiesIssued := 0, copies := [], copying := [] }.giveBackEach
    (w.copying.map IssuedCopy.staging) false

/-- The buffers that the chunks of the workloads still have. -/
def heldBuffers (w : Worker) : List StagingBuffer :=
  (w.workloads.entries.flatMap fun e => e.2.chunks.map ChunkState.staging).filter
    StagingBuffer.valid

/-- Every staging buffer that a chunk still has goes back to the pool. -/
def giveBackAll (w : Worker) (retired : Bool) : Worker :=
  w.giveBackEach w.heldBuffers retired

/-- {lit}`finalize` for every workload. -/
def finalizeAll (w : Worker) (code : ResponseCode) : Worker :=
  { w with
    answers := w.answers ++ w.workloads.entries.flatMap fun e => report e.2 code
    workloads := .empty }

/-- The part of {lit}`abort_all` before it waits: what never reached the plugin is dropped. -/
def dropPending (w : Worker) : Worker :=
  let parked := w.waiting.length + w.waitingRetries.length
  { w with
    retry := w.retry.clear
    queue :=
      if 0 < parked then w.queue.abortPending.complete parked else w.queue.abortPending
    waiting := []
    waitingRetries := [] }

/-- {lit}`abort_all`, with the rounds that {lit}`quiesce_reads` gets. -/
def abortAll (w : Worker) (code : ResponseCode) (workerContinues : Bool) (rounds : List Round) :
    Except Stop Worker := do
  let (drained, w) ← w.dropPending.quiesceReads rounds
  let w := w.quiesceCopies
  let w := w.giveBackAll (!(drained || !workerContinues))
  let w := w.finalizeAll code
  return { w with queue := w.queue.clear }

/-! ## Enqueueing a workload -/

/-- What the loops of {lit}`enqueue` go over. -/
inductive EnqueueItem where
  | task (batch : Batch) (task : Task)
  | chunk (taskBase : Nat) (chunk : Chunk)

/-- The tasks and the chunks of the batches, with the number of tasks before each batch. -/
def enqueueItems : Nat → List Batch → List EnqueueItem
  | _, [] => []
  | taskBase, batch :: batches =>
      batch.tasks.map (.task batch) ++ batch.chunks.map (.chunk taskBase) ++
        enqueueItems (taskBase + batch.tasks.length) batches

/-- What {lit}`enqueue` builds: the entry of the workload, the queue, and the answers. -/
structure Enqueued where
  workload : Inflight
  queue : CapacityQueue ObjectChunk
  answers : List Answer

/-- One turn of the loops of {lit}`enqueue`. -/
def enqueueItem (handleBase : Nat) (s : Enqueued) : EnqueueItem → Enqueued
  | .task batch task =>
      { s with
        workload := { s.workload with tasks := s.workload.tasks ++ [{ batch, task }] }
        answers :=
          if task.info.bytesize = 0 then s.answers ++ [.response batch task] else s.answers }
  | .chunk taskBase chunk =>
      let objectChunk : ObjectChunk :=
        { handle := wordAdd 64 handleBase s.workload.chunks.length
          offset := chunk.offset
          bytesize := chunk.bytesize
          buffer := chunk.buffer }
      { s with
        workload :=
          { s.workload with
            chunks := s.workload.chunks ++
              [{ chunk := objectChunk, first := taskBase + chunk.firstTask
                 count := chunk.taskCount }] }
        queue := s.queue.enqueue objectChunk 1 }

/-- The chunk is longer than the cut allows, which throws. -/
def EnqueueItem.tooLong (chunkBytesize : Nat) : EnqueueItem → Bool
  | .task _ _ => false
  | .chunk _ cut => chunkBytesize < cut.bytesize

/-- Where {lit}`enqueue` runs out of memory, if it does. -/
inductive OutOfMemory where
  /-- Before the workload is in its entry. -/
  | early
  /-- After some turns of the loops. -/
  | after (items : Nat)
deriving DecidableEq

/-- The turns of the loops that are made, up to an exception. -/
def enqueueTurns (chunkBytesize : Nat) (batches : List Batch) (oom : Option OutOfMemory) :
    List EnqueueItem :=
  let items :=
    match oom with
    | some (.after items) => (enqueueItems 0 batches).take items
    | _ => enqueueItems 0 batches
  items.takeWhile fun item => !item.tooLong chunkBytesize

/-- A workload without chunks is answered at once. -/
def answerEmpty (w : Worker) (batches : List Batch) : Worker :=
  { w with
    answers := w.answers ++
      (batches.flatMap fun batch => batch.tasks.map (.response batch)) ++
      report ({ batches } : Inflight) .success }

/-- {lit}`enqueue`. -/
def enqueue (w : Worker) (batches : List Batch) (oom : Option OutOfMemory)
    (rounds : List Round) : Except Stop Worker :=
  let totalChunks := (batches.map fun batch => batch.chunks.length).sum
  if totalChunks = 0 then .ok (w.answerEmpty batches)
  else
    let handleBase := w.handleCounter
    let w :=
      { w with
        handleCounter := wordAdd 64 w.handleCounter totalChunks
        blocks := w.blocks ++ [IdBlock.mk handleBase totalChunks] }
    if oom = some .early ∨ (w.workloads.find? handleBase).isSome then
      w.abortAll .unknownError true rounds
    else
      let turns := enqueueTurns w.chunkBytesize batches oom
      let s := turns.foldl (enqueueItem handleBase)
        { workload := { batches }, queue := w.queue, answers := [] }
      let w :=
        { w with
          queue := s.queue
          made := w.made ++ s.workload.chunks.map ChunkState.chunk
          answers := w.answers ++ s.answers }
      if oom.isSome ∨ turns.length < (enqueueItems 0 batches).length then
        let w := { w with workloads := w.workloads.update handleBase s.workload id }
        w.abortAll .unknownError true rounds
      else
        let wl := { s.workload with remainingChunks := totalChunks }
        .ok { w with workloads := w.workloads.update handleBase wl id }

/-! ## Submitting what is pending -/

/-- {lit}`promote_due_retries`, for as many turns as there are retries. -/
def promoteDueRetries (now : Int) : Nat → Worker → Except Stop Worker
  | 0, w => .ok w
  | turns + 1, w =>
      match w.retry.popDue now with
      | none => .ok w
      | some (handle, retry) =>
          let w := { w with retry }
          match w.locate handle with
          | none => .error (.assertion (.retryHandle handle) w)
          | some (base, index) =>
              match w.chunkAt base index with
              | none => .error .undefined
              | some (_, cs) =>
                  promoteDueRetries now turns { w with queue := w.queue.enqueueFront cs.chunk 1 }

/-- The loop of {lit}`pump`, with an answer for each chunk that is submitted. -/
def submitPending : List SubmitAnswer → Worker → Except Stop Worker
  | answers, w =>
      match w.queue.tryTake with
      | none => .ok w
      | some (chunk, queue) =>
          match answers with
          | [] => .error .refused
          | answer :: answers => do
              let w ← { w with queue }.submit chunk answer
              submitPending answers w

/-- {lit}`pump`. -/
def pump (w : Worker) (now : Int) (answers : List SubmitAnswer) : Except Stop Worker := do
  let w ← if w.retry.enabled then promoteDueRetries now w.retry.delayed.length w else .ok w
  submitPending answers w

/-! ## Draining -/

/-- History: a completion is applied. -/
def record (w : Worker) (handle : Nat) (chunk : ObjectChunk) : Worker :=
  { w with applied := w.applied ++ [(handle, chunk)] }

/-- {lit}`drain_copies`, for as many turns as it finds copies that have landed. -/
def drainCopies : Nat → Worker → Except Stop Worker
  | 0, w => .ok w
  | turns + 1, w =>
      match w.copies with
      | [] => .ok w
      | done :: copies =>
          if w.copiesIssued = 0 then .ok w
          else
            let w := { w with copies, copiesIssued := w.copiesIssued - 1 }
            match w.locate done.handle with
            | none => drainCopies turns w
            | some (base, index) =>
                match w.chunkAt base index with
                | none => .error .undefined
                | some (_, cs) => do
                    let w ← (w.record done.handle cs.chunk).completeChunk base index done.ret false
                    drainCopies turns w

/-- The two queues of parked chunks. -/
inductive Parked where
  | retries
  | fresh
deriving DecidableEq, Repr

/-- The handles in a queue of parked chunks. -/
def parked (w : Worker) : Parked → List Nat
  | .retries => w.waitingRetries
  | .fresh => w.waiting

/-- Replace a queue of parked chunks. -/
def setParked (w : Worker) (which : Parked) (handles : List Nat) : Worker :=
  match which with
  | .retries => { w with waitingRetries := handles }
  | .fresh => { w with waiting := handles }

/-- {lit}`resume_from`, for as many turns as there were handles; the rest of the answers. -/
def resumeFrom (which : Parked) :
    Nat → List SubmitAnswer → Worker → Except Stop (List SubmitAnswer × Worker)
  | 0, answers, w => .ok (answers, w)
  | turns + 1, answers, w =>
      match w.parked which with
      | [] => .ok (answers, w)
      | handle :: handles =>
          let w := w.setParked which handles
          match w.locate handle with
          | none => resumeFrom which turns answers w
          | some (base, index) =>
              match w.chunkAt base index, answers with
              | none, _ => .error .undefined
              | some _, [] => .error .refused
              | some (_, cs), answer :: answers => do
                  let w ← w.submit cs.chunk answer
                  resumeFrom which turns answers w

/-- {lit}`resume_waiting`: the retries first. -/
def resumeWaiting (w : Worker) (answers : List SubmitAnswer) : Except Stop Worker := do
  let (answers, w) ← resumeFrom .retries w.waitingRetries.length answers w
  let (_, w) ← resumeFrom .fresh w.waiting.length answers w
  return w

/-- {lit}`holding_work`. -/
def holdingWork (w : Worker) : Bool :=
  !w.waiting.isEmpty || !w.waitingRetries.isEmpty || 0 < w.copiesIssued

/-- A completion whose chunk is found. -/
def routeEvent (w : Worker) (base index : Nat) (event : Event) : Except Stop Worker :=
  match w.chunkAt base index with
  | none => .error .undefined
  | some (_, cs) =>
      let w := w.record event.handle cs.chunk
      if event.ret = .retryableFileAccessError then
        if event.delay < 0 ∨ retryDelayUpper (cs.retry.retryCount + 1) < event.delay then
          .error .refused
        else
          match w.retry.schedule cs.retry cs.chunk.handle event.now event.delay with
          | some (retry, state) =>
              let w := { w with retry }
              let w := w.setChunk base index fun cs => { cs with retry := state }
              let w := w.releaseStaging base index cs
              .ok { w with queue := w.queue.complete 1 }
          | none => w.completeChunk base index .fileAccessError true
      else
        w.completeChunk base index event.ret true

/-- The loop of {lit}`drain_batch` over the completions: whether one made progress. -/
def routeEvents : List Event → Bool → Worker → Except Stop (Bool × Worker)
  | [], progressed, w => .ok (progressed, w)
  | event :: events, progressed, w =>
      match w.locate event.handle with
      | none => routeEvents events progressed w
      | some (base, index) => do
          let w ← w.routeEvent base index event
          routeEvents events true w

/-- What {lit}`drain_batch` gets from outside. -/
structure DrainAnswer where
  stopped : Bool
  /-- How many copies have landed when {lit}`drain_copies` looks for them. -/
  landed : Nat
  /-- For the parked chunks that are submitted again. -/
  resumed : List SubmitAnswer
  round : Round
  /-- For {lit}`quiesce_reads`, when everything is aborted. -/
  aborting : List Round

/-- {lit}`drain_batch`. -/
def drainBatch (w : Worker) (answer : DrainAnswer) : Except Stop Worker :=
  if answer.stopped then w.abortAll .finishedError false answer.aborting
  else do
    let w ← drainCopies answer.landed w
    let w ← w.resumeWaiting answer.resumed
    if w.queue.inflight = 0 then return w
    else if answer.round.code ≠ .success then
      if answer.round.code = .finishedError ∧ w.holdingWork then return w
      else w.abortAll answer.round.code true answer.aborting
    else do
      let w ← handOut answer.round.completions w
      let (progressed, w) ← routeEvents answer.round.completions false w
      if !progressed && answer.round.drained && !w.holdingWork && !w.queue.idle then
        w.abortAll .finishedError true answer.aborting
      else
        return w

/-- The issuer reports a copy, and its buffer is free. -/
def copyLands (w : Worker) (done : CopyDone) : Except Stop Worker :=
  match w.copying.find? fun copy => copy.handle = done.handle with
  | none => .error .refused
  | some copy =>
      let w :=
        { w with
          copying := w.copying.eraseP fun copy => copy.handle = done.handle
          copies := w.copies ++ [done] }
      .ok (w.giveBack copy.staging false)

/-! ## Runs -/

/-- The calls of a worker, and what happens around them. -/
inductive Action where
  | enqueue (batches : List Batch) (oom : Option OutOfMemory) (aborting : List Round)
  | pump (now : Int) (answers : List SubmitAnswer)
  | drainBatch (answer : DrainAnswer)
  | copyLands (done : CopyDone)

/-- One call. -/
def step (w : Worker) : Action → Except Stop Worker
  | .enqueue batches oom aborting => w.enqueue batches oom aborting
  | .pump now answers => w.pump now answers
  | .drainBatch answer => w.drainBatch answer
  | .copyLands done => w.copyLands done

/-- The worker after a call, also after one that throws. -/
def next (w : Worker) (action : Action) : Option Worker :=
  match w.step action with
  | .ok w => some w
  | .error (.assertion _ w) => some w
  | .error _ => none

/-- A worker whose window has just come up. -/
def start (chunkBytesize capacity : Nat) (timeout : Int) : Worker :=
  { chunkBytesize, queue := .make capacity, retry := { timeout } }

end Worker

end ObjectStorage
end ModelStreamer
