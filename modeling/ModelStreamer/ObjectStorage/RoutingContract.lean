import ModelStreamer.ObjectStorage.WorkerRuns

/-!
# Routing completions

What a worker promises about its handles after any sequence of calls: the blocks of the
workloads are apart, {lit}`locate` finds the chunk of a handle in them and nothing else, and a
completion is applied to the chunk that was submitted under its handle.

Main results:

- Definition {lit}`RoutingContract`: the promise.
- Theorem {lit}`routing_contract`: every run keeps it.
-/

namespace ModelStreamer
namespace ObjectStorage

open Common DeviceIo.Staging Lib Streamer

/-- The block of handles of a workload. -/
def blockOf (e : Nat × Inflight) : IdBlock :=
  { base := e.1, size := e.2.chunks.length }

/-- What a worker promises about its handles. -/
structure RoutingContract (w : Worker) : Prop where
  /-- Every block that was ever reserved lies above the ones before it. -/
  reserved : w.blocks.Pairwise fun a b => a.base + a.size ≤ b.base
  /-- The block of a live workload was reserved. -/
  live : ∀ e ∈ w.workloads.entries, blockOf e ∈ w.blocks
  /-- Live blocks are disjoint. -/
  disjoint : w.workloads.entries.Pairwise fun a b =>
    ∀ handle, (blockOf a).Has handle → ¬ (blockOf b).Has handle
  /-- A block that is not live has no handle of a live one. -/
  erased : ∀ block ∈ w.blocks, (∀ e ∈ w.workloads.entries, blockOf e ≠ block) →
    ∀ e ∈ w.workloads.entries, ∀ handle, block.Has handle → ¬ (blockOf e).Has handle
  /-- {lit}`locate` finds the workload and the chunk of a handle. -/
  found : ∀ handle base index, w.locate handle = some (base, index) ↔
    ∃ wl cs, (base, wl) ∈ w.workloads.entries ∧ wl.chunks[index]? = some cs ∧
      cs.chunk.handle = handle
  /-- {lit}`locate` ends where no live block has the handle. -/
  ended : ∀ handle, w.locate handle = none ↔
    ∀ e ∈ w.workloads.entries, ¬ (blockOf e).Has handle
  /-- A completion was applied to the chunk that was submitted under its handle. -/
  routed : ∀ handle chunk, (handle, chunk) ∈ w.applied → chunk.handle = handle ∧
    ∀ other ∈ w.submitted, other.handle = handle → other = chunk
  /-- The plugin only holds reads that were submitted. -/
  submitted : ∀ read ∈ w.reads, read.chunk ∈ w.submitted
  /-- The assertions about unknown handles do not fire, while there are handles left. -/
  asserts : ∀ action handle, (w.blocks.map IdBlock.size).sum + action.handles < 2 ^ 64 →
    ∀ left, w.step action ≠ .error (.assertion (.submitHandle handle) left) ∧
      w.step action ≠ .error (.assertion (.retryHandle handle) left)

variable {w : Worker}

/-- The block of a workload, as the books have it. -/
theorem owner_block (e : Nat × Inflight) : (shapeOf e).owner.block = blockOf e := by
  unfold WorkloadShape.owner shapeOf blockOf
  dsimp only
  rw [List.length_map]

/-- The block of a live workload was reserved. -/
theorem BooksInv.blockOf_mem (h : BooksInv [] [] w.books) {e : Nat × Inflight}
    (he : e ∈ w.workloads.entries) : blockOf e ∈ w.blocks := by
  have howned := h.ledger.owned _ (List.mem_map_of_mem (List.mem_map_of_mem he))
  rw [owner_block] at howned
  exact howned

/-- A handle is owned if it is in the block of a live workload. -/
theorem isOwned_books {handle : Nat} : isOwned w.books.owners handle = true ↔
    ∃ e ∈ w.workloads.entries, (blockOf e).Has handle := by
  rw [isOwned_iff]
  constructor
  · rintro ⟨o, ho, hhas⟩
    rcases List.mem_map.1 ho with ⟨shape, hshape, rfl⟩
    rcases List.mem_map.1 hshape with ⟨e, he, rfl⟩
    rw [owner_block] at hhas
    exact ⟨e, he, hhas⟩
  · rintro ⟨e, he, hhas⟩
    refine ⟨(shapeOf e).owner, List.mem_map_of_mem (List.mem_map_of_mem he), ?_⟩
    rw [owner_block]
    exact hhas

/-- A chunk at its place, in the workloads and in the books. -/
theorem located_books {base index : Nat} {chunk : ObjectChunk} :
    w.books.Located base index chunk ↔
      ∃ wl cs, (base, wl) ∈ w.workloads.entries ∧ wl.chunks[index]? = some cs ∧
        cs.chunk = chunk := by
  constructor
  · rintro ⟨shape, hshape, rfl, hchunk⟩
    rcases List.mem_map.1 hshape with ⟨⟨key, wl⟩, hentry, rfl⟩
    change (wl.chunks.map ChunkState.chunk)[index]? = some chunk at hchunk
    rw [List.getElem?_map, Option.map_eq_some_iff] at hchunk
    rcases hchunk with ⟨cs, hcs, heq⟩
    exact ⟨wl, cs, hentry, hcs, heq⟩
  · rintro ⟨wl, cs, hentry, hcs, rfl⟩
    refine ⟨shapeOf (base, wl), List.mem_map_of_mem hentry, rfl, ?_⟩
    change (wl.chunks.map ChunkState.chunk)[index]? = _
    rw [List.getElem?_map, hcs]
    rfl

/-- The books say where every completion goes. -/
theorem BooksInv.routing (h : BooksInv [] [] w.books) : RoutingContract w := by
  constructor
  case reserved => exact h.ledger.apart
  case live => exact fun e he => h.blockOf_mem he
  case disjoint =>
    apply w.workloads.sorted.imp_of_mem
    intro a b ha hb hlt handle hhas hhas'
    have heq := block_eq_of_has h.ledger.apart (h.blockOf_mem ha) (h.blockOf_mem hb) hhas hhas'
    have hbase : a.1 = b.1 := congrArg IdBlock.base heq
    omega
  case erased =>
    intro block hblock hdead e he handle hhas hhas'
    exact hdead e he (block_eq_of_has h.ledger.apart (h.blockOf_mem he) hblock hhas' hhas)
  case found =>
    intro handle base index
    rw [h.locate_eq_some]
    constructor
    · rintro ⟨chunk, hlocated, rfl⟩
      rcases located_books.1 hlocated with ⟨wl, cs, hentry, hcs, rfl⟩
      exact ⟨wl, cs, hentry, hcs, rfl⟩
    · rintro ⟨wl, cs, hentry, hcs, rfl⟩
      exact ⟨cs.chunk, located_books.2 ⟨wl, cs, hentry, hcs, rfl⟩, rfl⟩
  case ended =>
    intro handle
    rw [h.locate_eq_none, Bool.eq_false_iff, Ne, isOwned_books]
    simp only [not_exists, not_and]
  case routed =>
    intro handle chunk happlied
    rcases h.core.made_applied _ happlied with ⟨hmade, hhandle⟩
    refine ⟨hhandle, fun other hother heq => ?_⟩
    exact h.chunk_eq hmade (h.core.made_submitted other hother) (heq.trans hhandle.symm)
  case submitted =>
    intro read hread
    exact h.core.submitted_reads _ (List.mem_map_of_mem hread)
  case asserts =>
    intro action handle hroom left
    have hreserved : Reserved False w.books.total w := ⟨h, rfl, False.elim⟩
    have hstep := hreserved.step_ends action hroom False.elim
    constructor
    · intro herror
      cases (hstep.of_error herror).1
    · intro herror
      cases (hstep.of_error herror).1

/-- After any sequence of calls with fewer than {lit}`2 ^ 64` handles, a completion goes to the
chunk that was submitted under its handle, or nowhere. -/
theorem routing_contract {chunkBytesize capacity : Nat} {timeout : Int}
    {actions : List Worker.Action}
    (hroom : (actions.map Worker.Action.handles).sum < 2 ^ 64)
    (hrun : run Worker.next (Worker.start chunkBytesize capacity timeout) actions = some w) :
    RoutingContract w := by
  have hstart : Reserved False 0 _ := reserved_start chunkBytesize capacity timeout
  exact (reserved_run hstart (by omega) False.elim hrun).books.routing

/-- A batch of two chunks for the host. -/
def pairOfChunks : Batch :=
  { submissionId := 1, workloadIndex := 0, fileIndex := 0, path := ['a']
    isObjectStorage := true, device := ⟨.cpu, 0⟩
    tasks := [Task.make 0 (TaskInfo.make 0 4 0), Task.make 1 (TaskInfo.make 4 4 0)]
    chunks := [⟨0, 4, 100, 0, 1⟩, ⟨4, 4, 104, 1, 1⟩], start := 0, stop := 8, unfinished := 0 }

/-- The plugin takes the read. -/
def readTaken : SubmitAnswer :=
  { ready := .success, acquired := .success, buffer := {}, now := 0, read := .success }

/-- The first workload is aborted under its reads, and one of them is reported while the second
workload is read. -/
def lateActions : List Worker.Action :=
  [.enqueue [pairOfChunks] none [], .pump 0 [readTaken, readTaken],
   .drainBatch
     { stopped := false, landed := 0, resumed := []
       round := { code := .fileAccessError, events := [] }
       aborting := [{ code := .finishedError, events := [] }] },
   .enqueue [pairOfChunks] none [], .pump 0 [readTaken, readTaken],
   .drainBatch
     { stopped := false, landed := 0, resumed := []
       round := { code := .success, events := [⟨2, .success, 0, 0⟩, ⟨3, .success, 0, 0⟩] }
       aborting := [] }]

/-- The late completion is dropped, and the other one goes to the second workload. -/
theorem routing_contract_late : ∃ w,
    run Worker.next (Worker.start 4 2 0) lateActions = some w ∧ RoutingContract w ∧
      w.applied.map Prod.fst = [3] ∧ w.locate 2 = none ∧ w.locate 4 = some (3, 1) ∧
      w.reads.map (fun read => read.chunk.handle) = [1, 4] := by
  have hends : ((run Worker.next (Worker.start 4 2 0) lateActions).map fun w =>
      (w.applied.map Prod.fst, w.locate 2, w.locate 4,
        w.reads.map fun read => read.chunk.handle)) =
      some ([3], none, some (3, 1), [1, 4]) := by
    decide +kernel
  rcases Option.map_eq_some_iff.1 hends with ⟨w, hrun, heq⟩
  simp only [Prod.mk.injEq] at heq
  exact ⟨w, hrun, routing_contract (by decide) hrun, heq⟩

end ObjectStorage
end ModelStreamer
