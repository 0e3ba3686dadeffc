import Mathlib.Data.List.Flatten
import Mathlib.Data.List.Pairwise
import ModelStreamer.AsyncIo.WorkerTurns
import ModelStreamer.Lib.Tally

/-!
# The invariant of the asynchronous worker

Every chunk that a worker knows of is in one place.  The credit of the window counts the places
that hold a slot, the open chunks of a batch are the spans of it that were not answered, and the
scratch buffers, the staging buffers and the descriptors are each with one owner.

While a call runs, chunks are in its hands as well: with a slot of the window, without one, or
as completions that were not processed yet.

Main results:

- Definition {lit}`Core`: what holds at every moment.
- Definition {lit}`Window`: what holds of the window until the worker ends.
- Theorem {lit}`Core.live_unique`: a batch that was not reported is in one place of one workload.
-/

namespace ModelStreamer
namespace AsyncIo

open Common Lib Streamer PosixIo
open ObjectStorage (Answer CapacityQueue)

/-! ## Batches -/

/-- The tasks that a chunk completes. -/
def chunkSpan (chunk : Chunk) : Span :=
  ⟨chunk.firstTask, chunk.taskCount⟩

/-- A task that no chunk is read for. -/
def emptyTask (task : Task) : Bool :=
  decide (task.info.bytesize = 0)

/-- Every task that has bytes is in one chunk of its batch. -/
structure ChunkedBatch (batch : Batch) : Prop where
  inside : ∀ chunk ∈ batch.chunks, chunk.firstTask + chunk.taskCount ≤ batch.tasks.length
  apart : (batch.chunks.map chunkSpan).Pairwise Span.Apart
  covers : SpansCover batch.tasks emptyTask (batch.chunks.map chunkSpan)

/-- The batch that an answer is about. -/
def answeredBatch : Answer → Batch
  | .response batch _ => batch
  | .error batch _ => batch

/-! ## Places -/

/-- The chunks in the hands of a call. -/
structure Hand where
  /-- They hold a slot of the window. -/
  slotted : List Nat := []
  bare : List Nat := []
  /-- Completions that were not processed yet. -/
  reaped : List Nat := []
  /-- Workloads that are reported next. -/
  finishing : List Nat := []

/-- All chunks in the hands of a call. -/
def Hand.ids (hand : Hand) : List Nat :=
  hand.slotted ++ (hand.bare ++ hand.reaped)

/-- Where a chunk belongs. -/
structure Owner where
  workloadId : Nat
  batchIndex : Nat
  chunk : Chunk
deriving DecidableEq, Repr

/-- Where the chunk of an entry belongs. -/
def InflightChunk.owner (entry : InflightChunk) : Owner :=
  ⟨entry.workloadId, entry.batchIndex, entry.chunk⟩

/-- The descriptor of a file, if it is open. -/
def BatchFd.descriptor (file : BatchFd) : List Int :=
  if 0 ≤ file.fd then [file.fd] else []

/-- The descriptors that a workload has open. -/
def Inflight.descriptors (wl : Inflight) : List Int :=
  wl.fds.flatMap BatchFd.descriptor

/-! ## What was told -/

/-- The chunks of a workload that are not accounted. -/
def outstanding (owners : List Owner) (workloadId : Nat) : Nat :=
  owners.countP fun o => o.workloadId = workloadId

/-- The spans of a batch that were not answered. -/
def openSpans (owners : List Owner) (workloadId batchIndex : Nat) : List Span :=
  (owners.filter fun o => o.workloadId = workloadId ∧ o.batchIndex = batchIndex).map
    fun o => chunkSpan o.chunk

/-- What a batch was told. -/
def about (answers : List Answer) (batch : Batch) : List Answer :=
  answers.filter fun answer => answeredBatch answer = batch

/-- A batch has only got responses, and its open spans are not answered yet. -/
def Telling (owners : List Owner) (answers : List Answer) (workloadId batchIndex : Nat)
    (wl : Inflight) (batch : Batch) : Prop :=
  ∃ told : List Task, about answers batch = told.map (Answer.response batch) ∧
    Tally batch.tasks emptyTask (openSpans owners workloadId batchIndex)
      (fun _ => (wl.errorByFileIndex.lookup batch.fileIndex).isSome = true) told

/-- A batch was reported after its responses, and with success if they are all of its tasks. -/
def Settled (answers : List Answer) (batch : Batch) : Prop :=
  ∃ (told : List Task) (code : ResponseCode), told.Subperm batch.tasks ∧
    about answers batch = told.map (Answer.response batch) ++ [.error batch code] ∧
    (code = .success → told.Perm batch.tasks)

/-- What holds of a workload in flight. -/
structure WorkloadOk (strategy : Strategy) (owners : List Owner) (answers : List Answer)
    (workloadId : Nat) (wl : Inflight) : Prop where
  files : wl.fds.length = wl.batches.length
  remaining : wl.remainingChunks = outstanding owners workloadId
  codes : ∀ e ∈ wl.errorByFileIndex, e.2 ≠ .success
  direct : ∀ file ∈ wl.fds, file.direct = true → strategy.isDirect = true
  telling : ∀ batchIndex batch, wl.batches[batchIndex]? = some batch →
    Telling owners answers workloadId batchIndex wl batch

namespace Worker

/-! ## What a worker holds -/

/-- The chunks that are staged or with the kernel. -/
def engineIds (w : Worker) : List Nat :=
  w.staged.map EngineRead.id ++ w.kernel.map EngineRead.id

/-- The chunks whose copies were issued and not accounted. -/
def copyIds (w : Worker) : List Nat :=
  w.copying.map IssuedCopy.id ++ w.copies.map CopyDone.id

/-- The chunks in the places of a worker. -/
def places (w : Worker) : List Nat :=
  w.queue.pending.map Prod.fst ++ (w.waiting ++ (w.engineIds ++ w.copyIds))

/-- Where the chunks that are not accounted belong. -/
def owners (w : Worker) : List Owner :=
  w.chunks.entries.map fun e => e.2.owner

/-- The scratch buffers of passes in flight. -/
def heldScratch (w : Worker) : List Addr :=
  w.chunks.entries.filterMap fun e => e.2.scratch

/-- The staging buffers that chunks hold. -/
def heldStaging (w : Worker) : List StagingBuffer :=
  w.chunks.entries.filterMap fun e => e.2.staging

/-- The descriptor of a batch. -/
def fileAt (w : Worker) (workloadId batchIndex : Nat) : Option BatchFd :=
  (w.workloads.lookup workloadId).bind fun wl => wl.fds[batchIndex]?

/-- The batches of the workloads in flight. -/
def live (w : Worker) : List Batch :=
  w.workloads.flatMap fun e => e.2.batches

/-- The descriptors of the workloads in flight. -/
def descriptors (w : Worker) : List Int :=
  w.workloads.flatMap fun e => e.2.descriptors

/-- The chunk belongs to a batch of a workload in flight. -/
def Routes (w : Worker) (o : Owner) : Prop :=
  ∃ wl batch, w.workloads.lookup o.workloadId = some wl ∧ wl.batches[o.batchIndex]? = some batch ∧
    o.chunk ∈ batch.chunks

/-- A read names the open descriptor of its own batch. -/
def Reads (w : Worker) (read : EngineRead) : Prop :=
  ∃ entry file, w.chunks.find read.id = some entry ∧
    w.fileAt entry.workloadId entry.batchIndex = some file ∧ 0 ≤ file.fd ∧
    read.file.fd = file.fd

end Worker

/-! ## The invariant -/

/-- The scratch buffers that a worker was started with, and the batches that were enqueued. -/
structure Setting where
  scratch : List Addr
  batches : List Batch

/-- What holds of a worker at every moment. -/
structure Core (env : Setting) (hand : Hand) (w : Worker) : Prop where
  keys_nodup : w.chunks.entries.keys.Nodup
  keys_lt : ∀ id ∈ w.chunks.entries.keys, id < w.chunks.nextId
  placed : (hand.ids ++ w.places).Perm w.chunks.entries.keys
  issued : w.issued = hand.reaped.length + w.kernel.length
  copied : w.copiesIssued = w.copying.length + w.copies.length
  quiet : w.early = []
  /-- The workloads. -/
  ids_nodup : w.workloads.keys.Nodup
  ids_lt : ∀ id ∈ w.workloads.keys, id < w.nextWorkloadId
  owned : ∀ o ∈ w.owners, w.Routes o
  workload : ∀ id wl, w.workloads.lookup id = some wl →
    WorkloadOk w.strategy w.owners w.answers id wl
  unfinished : ∀ id wl, w.workloads.lookup id = some wl → id ∉ hand.finishing →
    0 < wl.remainingChunks
  /-- The batches. -/
  enqueued : w.enqueued = env.batches
  distinct : w.enqueued.Nodup
  chunked : ∀ batch ∈ w.enqueued, ChunkedBatch batch
  accounts : ∃ settled, (w.live ++ settled).Perm w.enqueued ∧
    ∀ batch ∈ settled, Settled w.answers batch
  known : ∀ answer ∈ w.answers, answeredBatch answer ∈ w.enqueued
  /-- The scratch buffers. -/
  strategy : w.scratch.isSome = w.strategy.isDirect
  pooled : ∀ p, w.scratch = some p →
    (p.free ++ w.heldScratch).Perm env.scratch ∧ env.scratch.length = w.depth
  stocked : w.dry = false
  bouncing : ∀ id entry, w.chunks.find id = some entry → entry.bounces = true →
    id ∈ hand.reaped ++ w.engineIds
  /-- The staging buffers. -/
  lent_nodup : w.lent.Nodup
  lent : w.lent.Perm (w.heldStaging ++ w.copying.map IssuedCopy.staging)
  returned : w.borrowed.Perm (w.returned ++ w.lent)
  /-- The descriptors. -/
  opened_nodup : w.opened.Nodup
  opened : w.opened.Perm w.descriptors
  reads : ∀ read ∈ w.staged ++ w.kernel, w.Reads read

/-- What the window of a worker counts. -/
structure WindowState where
  depth : Nat
  queue : CapacityQueue Nat
  waiting : List Nat
  staged : List EngineRead
  kernel : List EngineRead
  crowded : Bool
  engineDead : Bool
  engineError : ResponseCode
  stopping : Bool

/-- The window of a worker. -/
def Worker.window (w : Worker) : WindowState :=
  { depth := w.depth
    queue := w.queue
    waiting := w.waiting
    staged := w.staged
    kernel := w.kernel
    crowded := w.crowded
    engineDead := w.engineDead
    engineError := w.engineError
    stopping := w.stopping }

/-- What holds of the window until the worker ends. -/
structure Window (hand : Hand) (s : WindowState) : Prop where
  cost : ∀ e ∈ s.queue.pending, e.2 = 1
  credit : s.queue.inflight = hand.slotted.length + hand.reaped.length + s.waiting.length +
    s.staged.length + s.kernel.length
  bound : s.queue.inflight ≤ s.depth
  capacity : s.queue.capacity = s.depth
  depth_pos : 0 < s.depth
  roomy : s.crowded = false
  alive : s.engineDead = false
  running : s.stopping = false
  /-- The error that workloads get once the engine is dead. -/
  reason : s.engineError ≠ .success

section Facts

variable {env : Setting} {hand hand' : Hand} {w w' : Worker} {id workloadId batchIndex : Nat}
  {entry : InflightChunk} {wl : Inflight} {batch : Batch}

/-- A chunk in the hands of a call has an entry. -/
theorem Core.find_of_hand (h : Core env hand w) (hid : id ∈ hand.ids) :
    ∃ entry, w.chunks.find id = some entry :=
  Table.mem_keys_iff.1 (h.placed.subset (List.mem_append_left _ hid))

/-- The reads of the engine are in a place. -/
theorem engine_places {read : EngineRead} (hread : read ∈ w.staged ++ w.kernel) :
    read.id ∈ w.places := by
  have hids : read.id ∈ w.engineIds := by
    unfold Worker.engineIds
    rw [← List.map_append]
    exact List.mem_map_of_mem hread
  exact List.mem_append_right _ (List.mem_append_right _ (List.mem_append_left _ hids))

/-- The owner of an entry is one of the owners. -/
theorem owner_mem (hfind : w.chunks.find id = some entry) : entry.owner ∈ w.owners :=
  List.mem_map_of_mem (Table.mem_of_lookup hfind)

/-- The chunk of an entry belongs to a batch of a workload in flight. -/
theorem Core.routes (h : Core env hand w) (hfind : w.chunks.find id = some entry) :
    ∃ wl batch, w.workloads.lookup entry.workloadId = some wl ∧
      wl.batches[entry.batchIndex]? = some batch ∧ entry.chunk ∈ batch.chunks :=
  h.owned _ (owner_mem hfind)

/-- A batch of a workload in flight. -/
theorem mem_live (hwl : w.workloads.lookup workloadId = some wl)
    (hbatch : wl.batches[batchIndex]? = some batch) : batch ∈ w.live :=
  List.mem_flatMap.2 ⟨_, Table.mem_of_lookup hwl, List.mem_of_getElem? hbatch⟩

/-- The batches of the workloads in flight were enqueued. -/
theorem Core.live_enqueued (h : Core env hand w) {batch : Batch} (hlive : batch ∈ w.live) :
    batch ∈ w.enqueued := by
  rcases h.accounts with ⟨settled, hperm, -⟩
  exact hperm.subset (List.mem_append_left _ hlive)

/-- The batches of the workloads in flight are distinct. -/
theorem Core.live_nodup (h : Core env hand w) : w.live.Nodup := by
  rcases h.accounts with ⟨settled, hperm, -⟩
  exact (List.nodup_append'.1 (hperm.symm.nodup h.distinct)).1

/-- A batch that was not reported is in one place of one workload. -/
theorem Core.live_unique (h : Core env hand w) {id₁ id₂ i₁ i₂ : Nat} {wl₁ wl₂ : Inflight}
    (hwl₁ : w.workloads.lookup id₁ = some wl₁) (hbatch₁ : wl₁.batches[i₁]? = some batch)
    (hwl₂ : w.workloads.lookup id₂ = some wl₂) (hbatch₂ : wl₂.batches[i₂]? = some batch) :
    id₁ = id₂ ∧ i₁ = i₂ := by
  have hnodup := h.live_nodup
  unfold Worker.live at hnodup
  rw [List.nodup_flatMap] at hnodup
  have hmem₁ := Table.mem_of_lookup hwl₁
  have hmem₂ := Table.mem_of_lookup hwl₂
  have hids : id₁ = id₂ := by
    by_contra hne
    have hflip : Std.Symm (Function.onFun List.Disjoint fun e : Nat × Inflight => e.2.batches) :=
      ⟨fun _ _ hdisjoint _ hfirst hsecond => hdisjoint hsecond hfirst⟩
    have hpair := hnodup.2.forall hmem₁ hmem₂ fun heq => hne (congrArg Prod.fst heq)
    exact hpair (List.mem_of_getElem? hbatch₁) (List.mem_of_getElem? hbatch₂)
  subst hids
  rw [hwl₁] at hwl₂
  obtain rfl := Option.some.inj hwl₂
  have hbatches : wl₁.batches.Nodup := hnodup.1 _ hmem₁
  have hbound := (List.getElem?_eq_some_iff.1 hbatch₁).1
  exact ⟨rfl, (List.getElem?_inj hbound hbatches).1 (hbatch₁.trans hbatch₂.symm)⟩

end Facts

end AsyncIo
end ModelStreamer
