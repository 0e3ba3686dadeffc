import ModelStreamer.AsyncIo.WorkerContract
import ModelStreamer.PosixIo.IoUringQueue
import ModelStreamer.PosixIo.LibaioQueue

/-!
# The asynchronous worker and its engine

Towards its engine a worker is the owner of a queue: it stages when there is room, and is answered
for what was issued.  An engine that gets the calls that the worker makes is inside its window, so
the reads that the worker thinks it holds are those that it holds.

Main results:

- Theorem {lit}`Worker.step_drives`: what one call of a worker calls on its engine are operations
  of the queue.
- Theorem {lit}`worker_ids_fit`: the ids of a run are words.
- Theorem {lit}`worker_over_engine`: the calls of a run are a run of the queue, inside the window of
  either engine.
-/

namespace ModelStreamer
namespace AsyncIo

open Common Lib Streamer PosixIo
open ObjectStorage (Answer CapacityQueue)

/-- What a worker thinks its engine holds. -/
def Worker.view (w : Worker) : IssueQueue Nat :=
  { staged := w.staged.map EngineRead.id, owed := w.kernel.map EngineRead.id }

/-- One worker comes from another one through calls on the engine, and has given so many ids more at
most.  The calls are operations of the queue, if no read was staged without room. -/
structure Drives (fresh : Nat) (w w' : Worker) : Prop where
  depth_eq : w'.depth = w.depth
  roomy : w'.crowded = false → w.crowded = false
  ops : ∃ ops, w'.calls = w.calls ++ ops ∧
    (w'.crowded = false → run (IssueQueue.step w.depth) w.view ops = some w'.view)
  chunk_ids : w'.chunks.nextId ≤ w.chunks.nextId + fresh
  workload_ids : w'.nextWorkloadId ≤ w.nextWorkloadId + fresh

section Drives

variable {w w' w'' : Worker} {fresh fresh' : Nat}

/-- The engine was not called, and no id was given. -/
theorem Drives.of_same (hdepth : w'.depth = w.depth) (hstaged : w'.staged = w.staged)
    (hkernel : w'.kernel = w.kernel) (hcrowded : w'.crowded = w.crowded)
    (hcalls : w'.calls = w.calls) (hchunk : w'.chunks.nextId = w.chunks.nextId)
    (hworkload : w'.nextWorkloadId = w.nextWorkloadId) : Drives 0 w w' where
  depth_eq := hdepth
  roomy h := hcrowded ▸ h
  ops := by
    refine ⟨[], hcalls.trans (List.append_nil _).symm, fun _ => ?_⟩
    unfold Worker.view
    rw [hstaged, hkernel]
    rfl
  chunk_ids := Nat.le_of_eq hchunk
  workload_ids := Nat.le_of_eq hworkload

/-- The engine was called once. -/
theorem Drives.of_call {op : QueueOp Nat} (hdepth : w'.depth = w.depth)
    (hroomy : w'.crowded = false → w.crowded = false) (hcalls : w'.calls = w.calls ++ [op])
    (hstep : w'.crowded = false → IssueQueue.step w.depth w.view op = some w'.view)
    (hchunk : w'.chunks.nextId = w.chunks.nextId)
    (hworkload : w'.nextWorkloadId = w.nextWorkloadId) : Drives 0 w w' where
  depth_eq := hdepth
  roomy := hroomy
  ops := ⟨[op], hcalls, fun h => run_cons.2 ⟨_, hstep h, rfl⟩⟩
  chunk_ids := Nat.le_of_eq hchunk
  workload_ids := Nat.le_of_eq hworkload

theorem Drives.refl (w : Worker) : Drives 0 w w :=
  Drives.of_same rfl rfl rfl rfl rfl rfl rfl

theorem Drives.add (h : Drives fresh w w') (h' : Drives fresh' w' w'') :
    Drives (fresh + fresh') w w'' where
  depth_eq := h'.depth_eq.trans h.depth_eq
  roomy hroomy := h.roomy (h'.roomy hroomy)
  ops := by
    rcases h.ops with ⟨xs, hxs, hfirst⟩
    rcases h'.ops with ⟨ys, hys, hsecond⟩
    rw [h.depth_eq] at hsecond
    refine ⟨xs ++ ys, ?_, fun hroomy => ?_⟩
    · rw [hys, hxs, List.append_assoc]
    · exact run_append.2 ⟨_, hfirst (h'.roomy hroomy), hsecond hroomy⟩
  chunk_ids := by
    have hfirst := h.chunk_ids
    have hsecond := h'.chunk_ids
    omega
  workload_ids := by
    have hfirst := h.workload_ids
    have hsecond := h'.workload_ids
    omega

/-- No more ids are given by a call that gives none. -/
theorem Drives.trans (h : Drives fresh w w') (h' : Drives 0 w' w'') : Drives fresh w w'' :=
  h.add h'

/-- More ids may be given. -/
theorem Drives.mono (h : Drives fresh w w') (hle : fresh ≤ fresh') : Drives fresh' w w' :=
  { h with
    chunk_ids := Nat.le_trans h.chunk_ids (Nat.add_le_add_left hle _)
    workload_ids := Nat.le_trans h.workload_ids (Nat.add_le_add_left hle _) }

/-- A call that drives the engine and gives no id, if it returns. -/
def Driving (w : Worker) (call : Except Stop Worker) : Prop :=
  Ends (Drives 0 w) (fun _ => True) call

/-- A call from a worker that comes from this one. -/
theorem Driving.from {call : Except Stop Worker} (h : Driving w' call) (hfrom : Drives 0 w w') :
    Driving w call :=
  h.imp fun _ h' => hfrom.trans h'

/-- One call after the other. -/
theorem Driving.bind {call : Except Stop Worker} {f : Worker → Except Stop Worker}
    (h : Driving w call) (hf : ∀ w', Driving w' (f w')) : Driving w (call >>= f) :=
  Ends.bind h fun w' hw' => (hf w').from hw'

/-- A call that does not return. -/
theorem driving_error (stop : Stop) : Driving w (.error stop) :=
  trivial

end Drives

section Calls

variable {w : Worker} {id : Nat} {entry : InflightChunk}

/-! ## Calls that leave the engine alone -/

theorem finalize_drives (w : Worker) (workloadId : Nat) (code : ResponseCode) :
    Drives 0 w (w.finalize workloadId code) := by
  unfold Worker.finalize
  split
  · exact Drives.refl w
  · exact Drives.of_same rfl rfl rfl rfl rfl rfl rfl

theorem accountChunk_drives (w : Worker) (id : Nat) (ret : ResponseCode) (freeSlot : Bool) :
    Driving w (w.accountChunk id ret freeSlot) := by
  unfold Worker.accountChunk
  split
  case h_1 => exact driving_error _
  case h_2 entry _ =>
    dsimp only
    split
    case h_1 => exact Drives.of_same rfl rfl rfl rfl rfl rfl rfl
    case h_2 wl _ =>
      split
      case h_1 => exact driving_error _
      case h_2 batch _ =>
        by_cases hspan : batch.tasks.length < entry.chunk.firstTask + entry.chunk.taskCount
        · rw [if_pos hspan]
          exact driving_error _
        · rw [if_neg hspan]
          generalize (if ret = .success ∨ Batch.spanTasks batch entry.chunk = [] then wl
            else wl.emplaceError batch.fileIndex ret) = wl'
          split
          case isTrue => exact driving_error _
          case isFalse =>
            split
            case isTrue =>
              refine Drives.trans ?_ (finalize_drives _ _ _)
              exact Drives.of_same rfl rfl rfl rfl rfl rfl rfl
            case isFalse => exact Drives.of_same rfl rfl rfl rfl rfl rfl rfl

theorem completeChunk_drives (w : Worker) (id : Nat) (ret written : ResponseCode) :
    Driving w (w.completeChunk id ret written) := by
  unfold Worker.completeChunk
  split
  case h_1 => exact driving_error _
  case h_2 =>
    split
    case h_1 =>
      dsimp only
      split_ifs
      case pos => exact Drives.of_same rfl rfl rfl rfl rfl rfl rfl
      case neg =>
        exact (accountChunk_drives _ _ _ _).from (Drives.of_same rfl rfl rfl rfl rfl rfl rfl)
    case h_2 => exact accountChunk_drives w id ret true

theorem copiesLand_drives (w : Worker) (landing : List CopyDone) :
    Driving w (Worker.copiesLand landing w) := by
  induction landing generalizing w with
  | nil => exact Drives.refl w
  | cons done landing ih =>
      unfold Worker.copiesLand
      refine Driving.bind ?_ ih
      unfold Worker.copyLands
      split
      · exact driving_error _
      · exact Drives.of_same rfl rfl rfl rfl rfl rfl rfl

theorem popCopies_drives (w : Worker) (turns : Nat) : Driving w (Worker.popCopies turns w) := by
  induction turns generalizing w with
  | zero => exact Drives.refl w
  | succ turns ih =>
      unfold Worker.popCopies
      split
      · exact Drives.refl w
      · refine Driving.bind ?_ ih
        exact (accountChunk_drives _ _ _ _).from (Drives.of_same rfl rfl rfl rfl rfl rfl rfl)

theorem drainCopies_drives (w : Worker) (wait : Bool) (landing : List CopyDone) :
    Driving w (w.drainCopies wait landing) := by
  unfold Worker.drainCopies
  refine (copiesLand_drives w landing).bind fun w₁ => ?_
  refine (popCopies_drives w₁ _).bind fun w₂ => ?_
  split
  · exact driving_error _
  · exact Drives.refl w₂

theorem finalizeAll_drives (w : Worker) (code : ResponseCode) : Drives 0 w (w.finalizeAll code) := by
  unfold Worker.finalizeAll
  generalize w.workloads.keys = keys
  induction keys generalizing w with
  | nil => exact Drives.refl w
  | cons key keys ih => exact (finalize_drives w key code).trans (ih _)

/-! ## Staging -/

/-- A read is staged. -/
theorem stagePass_drives (w : Worker) (id : Nat) (entry : InflightChunk) (file : BatchFd)
    (answer : StageAnswer) : Driving w (w.stagePass id entry file answer) := by
  unfold Worker.stagePass
  dsimp only
  split
  case h_1 =>
    exact (completeChunk_drives _ _ _ _).from (Drives.of_same rfl rfl rfl rfl rfl rfl rfl)
  case h_2 =>
    split_ifs
    case pos => exact driving_error _
    case pos =>
      refine Drives.of_call rfl (fun hroomy => (Bool.or_eq_false_iff.1 hroomy).1) rfl
        (fun hroomy => ?_) rfl rfl
      have hroom := of_decide_eq_false (Bool.or_eq_false_iff.1 hroomy).2
      unfold IssueQueue.step Worker.view
      dsimp only
      rw [if_pos (by rw [List.length_map, List.length_map]; exact Nat.not_le.1 hroom),
        List.map_append]
      rfl
    case neg =>
      refine (completeChunk_drives _ _ _ _).from ?_
      refine ⟨rfl, fun hroomy => (Bool.or_eq_false_iff.1 hroomy).1, ?_, Nat.le_refl _,
        Nat.le_refl _⟩
      exact ⟨[], (List.append_nil _).symm, fun _ => rfl⟩

/-- A chunk has a place to be read to. -/
theorem stageRead_drives (w : Worker) (id : Nat) (entry : InflightChunk) (answer : StageAnswer) :
    Driving w (w.stageRead id entry answer) := by
  have hfd : Ends (fun r : BatchFd × Worker => Drives 0 w r.2) (fun _ => True)
      (w.fdFor entry.workloadId entry.batchIndex
        (w.wantsDirect entry.pending.offset entry.pending.buffer entry.staging.isSome) answer) := by
    unfold Worker.fdFor
    split
    · trivial
    · split
      · exact Drives.refl w
      · dsimp only
        split
        · exact Drives.of_same rfl rfl rfl rfl rfl rfl rfl
        · split
          · trivial
          · exact Drives.of_same rfl rfl rfl rfl rfl rfl rfl
  unfold Worker.stageRead
  dsimp only
  refine Ends.bind hfd ?_
  rintro ⟨file, w₁⟩ hfrom
  dsimp only
  split
  · exact (completeChunk_drives _ _ _ _).from hfrom
  · exact (stagePass_drives _ _ _ _ _).from hfrom

/-- A chunk is submitted. -/
theorem stagePending_drives (w : Worker) (id : Nat) (answer : StageAnswer) :
    Driving w (w.stagePending id answer) := by
  unfold Worker.stagePending
  split
  case h_1 => exact driving_error _
  case h_2 =>
    split
    case h_1 => exact Drives.of_same rfl rfl rfl rfl rfl rfl rfl
    case h_2 =>
      split
      case h_1 => exact driving_error _
      case h_2 =>
        split_ifs
        case pos => exact completeChunk_drives _ _ _ _
        case neg =>
          split
          case h_1 => exact Drives.of_same rfl rfl rfl rfl rfl rfl rfl
          case h_2 =>
            split_ifs
            case pos => exact driving_error _
            case neg =>
              exact (stageRead_drives _ _ _ _).from (Drives.of_same rfl rfl rfl rfl rfl rfl rfl)
        case neg => exact stageRead_drives w id _ answer

/-- What is queued is submitted. -/
theorem pump_drives (answers : List StageAnswer) (w : Worker) :
    Driving w (Worker.pump answers w) := by
  induction answers generalizing w with
  | nil =>
      unfold Worker.pump
      split
      · exact Drives.refl w
      · exact driving_error _
  | cons answer answers ih =>
      unfold Worker.pump
      split
      · exact Drives.refl w
      · refine Driving.bind ?_ ih
        exact (stagePending_drives _ _ _).from (Drives.of_same rfl rfl rfl rfl rfl rfl rfl)

/-- Parked chunks are tried again. -/
theorem resumeParked_drives (turns : Nat) (answers : List StageAnswer) (w : Worker) :
    Driving w (Worker.resumeParked turns answers w) := by
  induction turns generalizing answers w with
  | zero => exact Drives.refl w
  | succ turns ih =>
      unfold Worker.resumeParked
      split
      · exact Drives.refl w
      · exact driving_error _
      · refine Driving.bind ?_ (ih _)
        exact (stagePending_drives _ _ _).from (Drives.of_same rfl rfl rfl rfl rfl rfl rfl)

/-! ## Answers of the engine -/

/-- The engine issues the first of the staged reads. -/
theorem flush_drives (w : Worker) (answer : Worker.FlushAnswer) : Driving w (w.flush answer) := by
  unfold Worker.flush
  split
  case isTrue => exact driving_error _
  case isFalse hle =>
    refine Drives.of_call rfl id rfl (fun _ => ?_) rfl rfl
    unfold IssueQueue.step Worker.view
    dsimp only
    rw [if_pos (by rw [List.length_map]; omega), List.map_append, List.map_take, List.map_drop]

/-- A read leaves the reads that a completion will arrive for. -/
theorem map_id_eraseP (reads : List EngineRead) (id : Nat) :
    (reads.eraseP fun read => read.id = id).map EngineRead.id =
      (reads.map EngineRead.id).erase id := by
  have hsame : (fun read : EngineRead => decide (read.id = id)) =
      (fun x => id == x) ∘ EngineRead.id := by
    funext read
    rw [Function.comp_apply, beq_eq_decide]
    exact decide_eq_decide.2 eq_comm
  rw [List.erase_eq_eraseP, List.eraseP_map, hsame]

/-- Completions that are handed out are of reads that the kernel holds. -/
theorem handOut_diff (ids : List Nat) (w : Worker) :
    Ends
      (fun w' => ∃ kernel, w' = { w with kernel } ∧ ids.Subperm (w.kernel.map EngineRead.id) ∧
        kernel.map EngineRead.id = (w.kernel.map EngineRead.id).diff ids)
      (fun _ => True) (Worker.handOut ids w) := by
  induction ids generalizing w with
  | nil => exact ⟨w.kernel, rfl, List.nil_subperm, List.diff_nil _⟩
  | cons id ids ih =>
      unfold Worker.handOut
      split
      case isFalse => trivial
      case isTrue hany =>
        rcases List.any_eq_true.1 hany with ⟨read, hread, hid⟩
        have hmem : id ∈ w.kernel.map EngineRead.id :=
          List.mem_map.2 ⟨read, hread, of_decide_eq_true hid⟩
        apply (ih _).imp
        rintro w' ⟨kernel, rfl, hsub, hdiff⟩
        dsimp only at hsub hdiff
        rw [map_id_eraseP] at hsub hdiff
        refine ⟨kernel, rfl, ?_, ?_⟩
        · have hcons : (id :: ids).Subperm (id :: (w.kernel.map EngineRead.id).erase id) :=
            (List.subperm_cons id).2 hsub
          exact hcons.trans (List.perm_cons_erase hmem).symm.subperm
        · rw [hdiff, List.diff_cons]

/-- The engine hands out completions. -/
theorem collect_drives (ids : List Nat) (w : Worker) : Driving w (w.collect ids) := by
  apply (handOut_diff ids { w with calls := w.calls ++ [.collect ids] }).imp
  rintro w' ⟨kernel, rfl, hsub, hdiff⟩
  refine Drives.of_call rfl id rfl (fun _ => ?_) rfl rfl
  unfold IssueQueue.step Worker.view
  dsimp only
  rw [if_pos hsub, hdiff]

/-- The engine fails to wait. -/
theorem collectNone_drives (w : Worker) : Drives 0 w w.collectNone := by
  refine Drives.of_call rfl id rfl (fun _ => ?_) rfl rfl
  unfold IssueQueue.step
  dsimp only
  rw [if_pos List.nil_subperm, List.diff_nil]
  rfl

/-- The worker waits for the reads that are issued. -/
theorem quiesceReads_drives (rounds : List Worker.Round) (w : Worker) :
    Driving w (Worker.quiesceReads rounds w) := by
  induction rounds generalizing w with
  | nil =>
      unfold Worker.quiesceReads
      split
      · exact Drives.refl w
      · exact driving_error _
  | cons round rounds ih =>
      unfold Worker.quiesceReads
      split
      · exact Drives.refl w
      · dsimp only
        split
        · exact collectNone_drives w
        · refine (collect_drives round.ids w).bind fun w₁ => ?_
          split
          · exact driving_error _
          · exact (ih _).from (Drives.of_same rfl rfl rfl rfl rfl rfl rfl)

/-- The worker gives up. -/
theorem abortAll_drives (w : Worker) (code : ResponseCode) (answer : Worker.AbortAnswer) :
    Driving w (w.abortAll code answer) := by
  have hdead : Drives 0 w (if code = .finishedError then w else w.engineIsDead code) := by
    unfold Worker.engineIsDead
    split
    · exact Drives.refl w
    · split
      · exact Drives.refl w
      · exact Drives.of_same rfl rfl rfl rfl rfl rfl rfl
  unfold Worker.abortAll
  generalize (if code = .finishedError then w else w.engineIsDead code) = w₀ at hdead ⊢
  dsimp only
  have hclear : Drives 0 w₀ { w₀ with queue := w₀.queue.clear } :=
    Drives.of_same rfl rfl rfl rfl rfl rfl rfl
  refine Driving.from ?_ (hdead.trans hclear)
  refine (drainCopies_drives _ true answer.landing).bind fun w₁ => ?_
  refine (quiesceReads_drives answer.rounds w₁).bind fun w₂ => ?_
  exact (finalizeAll_drives w₂ code).trans (Drives.of_same rfl rfl rfl rfl rfl rfl rfl)

/-! ## Harvesting -/

/-- A read that failed. -/
theorem failedRead_drives (w : Worker) (entry : InflightChunk) (harvest : Worker.Harvest) :
    Driving w (w.failedRead entry harvest) := by
  have hdemote : Ends (fun r : ResponseCode × Worker => Drives 0 w r.2) (fun _ => True)
      (w.demoteToBuffered entry harvest) := by
    unfold Worker.demoteToBuffered
    split
    · exact Drives.refl w
    · split_ifs
      · exact Drives.refl w
      · trivial
      · exact Drives.refl w
      · exact Drives.of_same rfl rfl rfl rfl rfl rfl rfl
      · exact Drives.of_same rfl rfl rfl rfl rfl rfl rfl
  unfold Worker.failedRead
  split
  · exact (stagePending_drives _ _ _).from (Drives.of_same rfl rfl rfl rfl rfl rfl rfl)
  · dsimp only
    split
    · refine Ends.bind hdemote ?_
      rintro ⟨code, w₁⟩ hfrom
      dsimp only
      split
      · exact (stagePending_drives _ _ _).from hfrom
      · exact (completeChunk_drives _ _ _ _).from hfrom
    · exact completeChunk_drives _ _ _ _

/-- A completion is processed. -/
theorem harvestOne_drives (w : Worker) (harvest : Worker.Harvest) :
    Driving w (w.harvestOne harvest) := by
  unfold Worker.harvestOne
  split
  · exact driving_error _
  · dsimp only
    split
    · exact Drives.of_same rfl rfl rfl rfl rfl rfl rfl
    · split
      · exact (failedRead_drives _ _ _).from (Drives.of_same rfl rfl rfl rfl rfl rfl rfl)
      · unfold Worker.landedRead
        dsimp only
        split
        · exact (completeChunk_drives _ _ _ _).from (Drives.of_same rfl rfl rfl rfl rfl rfl rfl)
        · exact (completeChunk_drives _ _ _ _).from (Drives.of_same rfl rfl rfl rfl rfl rfl rfl)
        · exact (stagePending_drives _ _ _).from (Drives.of_same rfl rfl rfl rfl rfl rfl rfl)

/-- Completions are processed one after the other. -/
theorem harvestEach_drives (harvests : List Worker.Harvest) (w : Worker) :
    Driving w (Worker.harvestEach harvests w) := by
  induction harvests generalizing w with
  | nil => exact Drives.refl w
  | cons harvest harvests ih =>
      unfold Worker.harvestEach
      exact (harvestOne_drives w harvest).bind ih

/-- The part of a turn after the flush. -/
theorem harvest_drives (w : Worker) (answer : Worker.DrainAnswer) :
    Driving w (w.harvest answer) := by
  unfold Worker.harvest
  split
  · exact (abortAll_drives _ _ _).from (collectNone_drives w)
  · split
    · exact driving_error _
    · refine (collect_drives _ w).bind fun w₁ => ?_
      exact harvestEach_drives _ w₁

/-- One turn. -/
theorem drainBatch_drives (w : Worker) (answer : Worker.DrainAnswer) :
    Driving w (w.drainBatch answer) := by
  unfold Worker.drainBatch
  split
  · exact (abortAll_drives _ _ _).from (Drives.of_same rfl rfl rfl rfl rfl rfl rfl)
  · refine (drainCopies_drives w _ answer.landing).bind fun w₁ => ?_
    refine Driving.bind (resumeParked_drives _ answer.resumed w₁) fun w₂ => ?_
    dsimp only
    refine (flush_drives w₂ answer.flushed).bind fun w₃ => ?_
    split_ifs
    · exact (abortAll_drives _ _ _).from (Drives.of_same rfl rfl rfl rfl rfl rfl rfl)
    · exact (abortAll_drives _ _ _).from (Drives.of_same rfl rfl rfl rfl rfl rfl rfl)
    · exact (harvest_drives _ _).from (Drives.of_same rfl rfl rfl rfl rfl rfl rfl)
    · exact (harvest_drives _ _).from (Drives.of_same rfl rfl rfl rfl rfl rfl rfl)

/-! ## Enqueueing -/

/-- The chunks of some batches. -/
def chunkCount (batches : List Batch) : Nat :=
  (batches.map fun batch => batch.chunks.length).sum

/-- A chunk is queued under a new id. -/
theorem queueChunk_drives (workloadId batchIndex : Nat) (w : Worker) (chunk : Chunk) :
    Drives 1 w (Worker.queueChunk workloadId batchIndex w chunk) where
  depth_eq := rfl
  roomy := id
  ops := ⟨[], (List.append_nil _).symm, fun _ => rfl⟩
  chunk_ids := Nat.le_refl _
  workload_ids := Nat.le_add_right _ _

/-- The chunks of one batch are queued. -/
theorem queueChunks_drives (workloadId batchIndex : Nat) (chunks : List Chunk) (w : Worker) :
    Drives chunks.length w (chunks.foldl (Worker.queueChunk workloadId batchIndex) w) := by
  induction chunks generalizing w with
  | nil => exact Drives.refl w
  | cons chunk chunks ih =>
      rw [List.length_cons, Nat.add_comm]
      exact (queueChunk_drives workloadId batchIndex w chunk).add (ih _)

/-- The chunks of a workload are queued. -/
theorem enqueueBatches_drives (workloadId : Nat) (opens : Nat → Bool) (batches : List Batch)
    (batchIndex : Nat) (w : Worker) :
    Drives (chunkCount batches) w
      (Worker.enqueueBatches workloadId opens batchIndex batches w) := by
  induction batches generalizing batchIndex w with
  | nil => exact Drives.refl w
  | cons batch batches ih =>
      unfold Worker.enqueueBatches chunkCount
      rw [List.map_cons, List.sum_cons]
      have hzero : Drives 0 w (w.answerZeroSized workloadId batch (opens batchIndex)) := by
        unfold Worker.answerZeroSized
        dsimp only
        split
        · exact Drives.refl w
        · split <;> exact Drives.of_same rfl rfl rfl rfl rfl rfl rfl
      have hchunks := hzero.add (queueChunks_drives workloadId batchIndex batch.chunks _)
      rw [Nat.zero_add] at hchunks
      exact hchunks.add (ih _ _)

/-- How many ids an action gives at most: one for the workload and one for each chunk. -/
def Worker.Action.ids : Worker.Action → Nat
  | .enqueue batches _ _ => 1 + chunkCount batches
  | _ => 0

/-- A workload is enqueued; the engine is not called. -/
theorem enqueue_drives (w : Worker) (batches : List Batch) (directBlock : Nat)
    (opens : Nat → Bool) :
    Ends (Drives (1 + chunkCount batches) w) (fun _ => True)
      (w.enqueue batches directBlock opens) := by
  have hadopt : ∀ w₀ : Worker, Drives 0 w₀ (w₀.adoptBlock directBlock) := by
    intro w₀
    unfold Worker.adoptBlock
    split
    · split
      · exact Drives.refl w₀
      · exact Drives.of_same rfl rfl rfl rfl rfl rfl rfl
    · exact Drives.refl w₀
  unfold Worker.enqueue
  dsimp only
  split
  case isTrue =>
    refine Drives.mono ?_ (Nat.zero_le _)
    exact Drives.of_same rfl rfl rfl rfl rfl rfl rfl
  case isFalse =>
    have hnoted : Drives 0 w { w with enqueued := w.enqueued ++ batches } :=
      Drives.of_same rfl rfl rfl rfl rfl rfl rfl
    have hfrom := hnoted.trans (hadopt _)
    generalize Worker.adoptBlock { w with enqueued := w.enqueued ++ batches } directBlock = w₀
      at hfrom ⊢
    split
    case isTrue => trivial
    case isFalse =>
      let w₁ : Worker :=
        { w₀ with
          nextWorkloadId := w₀.nextWorkloadId + 1
          workloads := w₀.workloads ++
            [(w₀.nextWorkloadId, { batches, fds := batches.map fun _ => {} })] }
      have hnamed : Drives 1 w₀ w₁ :=
        { depth_eq := rfl
          roomy := id
          ops := ⟨[], (List.append_nil _).symm, fun _ => rfl⟩
          chunk_ids := Nat.le_add_right _ _
          workload_ids := Nat.le_refl _ }
      have hqueued := (hfrom.add hnamed).add
        (enqueueBatches_drives w₀.nextWorkloadId opens batches 0 w₁)
      rw [Nat.zero_add] at hqueued
      split
      case isTrue =>
        refine (hqueued.trans ?_).trans (finalize_drives _ _ _)
        exact Drives.of_same rfl rfl rfl rfl rfl rfl rfl
      case isFalse => exact hqueued.trans (Drives.of_same rfl rfl rfl rfl rfl rfl rfl)

/-! ## Runs -/

/-- What one call of a worker calls on its engine are operations of the queue. -/
theorem Worker.step_drives (w : Worker) (action : Worker.Action) :
    Ends (Drives action.ids w) (fun _ => True) (w.step action) := by
  cases action with
  | enqueue batches directBlock opens =>
      unfold Worker.step
      dsimp only
      split
      · trivial
      · exact enqueue_drives w batches directBlock opens
  | pump answers => exact pump_drives answers w
  | drainBatch answer =>
      unfold Worker.step
      dsimp only
      split
      · trivial
      · exact drainBatch_drives w answer
  | copyLands done =>
      unfold Worker.step Worker.copyLands
      dsimp only
      split
      · trivial
      · exact Drives.of_same rfl rfl rfl rfl rfl rfl rfl

/-- What a run of a worker calls on its engine are operations of the queue. -/
theorem run_drives {w' : Worker} {actions : List Worker.Action}
    (hrun : run Worker.next w actions = some w') :
    Drives (actions.map Worker.Action.ids).sum w w' := by
  induction actions generalizing w with
  | nil =>
      cases hrun
      exact Drives.refl _
  | cons action actions ih =>
      rcases run_cons.1 hrun with ⟨w₁, hnext, hrest⟩
      have hstep := w.step_drives action
      rw [step_of_next hnext] at hstep
      rw [List.map_cons, List.sum_cons]
      exact hstep.add (ih hrest)

/-- While fewer than {lit}`2 ^ 64 - 1` workloads and chunks have come, the numbers that the ids are
here are the words that they are in the source: no counter of ids starts over. -/
theorem worker_ids_fit {strategy : Strategy} {depth block : Nat} {measured : Bool}
    {scratch : List Addr} {actions : List Worker.Action}
    (hroom : 1 + (actions.map Worker.Action.ids).sum < 2 ^ 64)
    (hrun : run Worker.next (Worker.start strategy depth block measured scratch) actions = some w) :
    w.chunks.nextId < 2 ^ 64 ∧ w.nextWorkloadId < 2 ^ 64 := by
  have hdrives : Drives _ (Worker.start strategy depth block measured scratch) w :=
    run_drives hrun
  have hchunk : w.chunks.nextId ≤ 1 + (actions.map Worker.Action.ids).sum := hdrives.chunk_ids
  have hworkload : w.nextWorkloadId ≤ 1 + (actions.map Worker.Action.ids).sum :=
    hdrives.workload_ids
  exact ⟨Nat.lt_of_le_of_lt hchunk hroom, Nat.lt_of_le_of_lt hworkload hroom⟩

/-- A sound worker has staged no read without room. -/
theorem Sound.roomy {env : Setting} {calm : Prop} (h : Sound env calm w) : w.crowded = false := by
  rcases h with hbusy | hended
  · exact hbusy.window.roomy
  · exact hended.roomy

/-- In every run the calls that a worker makes on its engine are a run of the queue of the engine's
depth, which ends with the reads that the worker thinks the engine holds.  An engine of either kind
that got these calls, over any kernel, holds these reads, has refused no stage, and has dropped no
completion. -/
theorem worker_over_engine {strategy : Strategy} {depth : UInt32} {block : Nat} {measured : Bool}
    {scratch : List Addr} {actions : List Worker.Action}
    (h : Workable strategy depth.toNat scratch actions)
    (hrun : run Worker.next (Worker.start strategy depth.toNat block measured scratch) actions =
      some w) :
    run (IssueQueue.step depth.toNat) {} w.calls = some w.view ∧
      (∀ calls s, run libaioStep (LibaioRun.start depth) calls = some s →
        traceOf libaioStep libaioOps (LibaioRun.start depth) calls = w.calls →
        LibaioHolds depth.toNat s w.view) ∧
      (∀ registerBuffers fixedBuffers calls s,
        run ioUringStep (IoUringRun.start depth registerBuffers fixedBuffers) calls = some s →
        traceOf ioUringStep ioUringOps (IoUringRun.start depth registerBuffers fixedBuffers) calls =
          w.calls →
        IoUringHolds depth.toNat s w.view) := by
  rcases (run_drives hrun).ops with ⟨ops, hcalls, hops⟩
  have hroomy : w.crowded = false := Sound.roomy (h.sound hrun)
  have hqueue : run (IssueQueue.step depth.toNat) {} w.calls = some w.view :=
    hcalls ▸ hops hroomy
  refine ⟨hqueue, fun calls s hengine htrace => ?_, fun _ _ calls s hengine htrace => ?_⟩
  · exact libaio_follows hengine (htrace ▸ hqueue)
  · exact io_uring_follows hengine (htrace ▸ hqueue)

/-- What a libaio engine gets when the head of a chunk is interrupted and read again: the rest of
the chunk is staged. -/
def headCalls : List LibaioCall :=
  [.stage 1 ⟨3, true⟩ 0 4 64, .flush fun _ => .accepts 1,
    .wait 2 true 0 fun _ => .returns [(1, -eINTR)],
    .stage 1 ⟨3, true⟩ 0 4 64, .flush fun _ => .accepts 1,
    .wait 2 true 0 fun _ => .returns [(1, 4)],
    .stage 1 ⟨3, true⟩ 4 4 4100]

theorem worker_over_engine_head : ∃ w s, run Worker.next directWorker headActions = some w ∧
    w.calls = [.stage 1, .flush 1, .collect [1], .stage 1, .flush 1, .collect [1], .stage 1] ∧
    run (IssueQueue.step 2) {} w.calls = some w.view ∧
    run libaioStep (LibaioRun.start 2) headCalls = some s ∧ LibaioHolds 2 s w.view := by
  have hends : ((run Worker.next directWorker headActions).map fun w => w.calls) =
      some (traceOf libaioStep libaioOps (LibaioRun.start 2) headCalls) := by
    decide +kernel
  rcases Option.map_eq_some_iff.1 hends with ⟨w, hrun, hcalls⟩
  have hreturns : (run libaioStep (LibaioRun.start 2) headCalls).isSome = true := by
    decide +kernel
  rcases Option.isSome_iff_exists.1 hreturns with ⟨s, hengine⟩
  have hworkable : Workable .libaioDirect (2 : UInt32).toNat [64, 128] headActions :=
    restActions_workable.left
  rcases worker_over_engine hworkable hrun with ⟨hqueue, hlibaio, -⟩
  have hlist : traceOf libaioStep libaioOps (LibaioRun.start 2) headCalls =
      [.stage 1, .flush 1, .collect [1], .stage 1, .flush 1, .collect [1], .stage 1] := by
    decide +kernel
  exact ⟨w, s, hrun, hcalls.trans hlist, hqueue, hengine, hlibaio headCalls s hengine hcalls.symm⟩

end Calls

end AsyncIo
end ModelStreamer
