import Mathlib.Data.List.Count
import ModelStreamer.AsyncIo.WorkerContract

/-!
# What an abort leaves

A worker ends by an abort: it is stopped, a flush or a wait fails, or its engine stalls.  The abort
waits for the copies and for the reads of the kernel, reports all workloads and gives everything
back.  The engine gets no call any more, so a read that was only staged is never issued.

Main results:

- Definition {lit}`finishedTasks`: the tasks of a batch that its answers finish.
- Theorem {lit}`Settled.finishes`: a batch that was reported has all its tasks finished once.
- Theorem {lit}`abort_waits_for_writes`: what an abort leaves.
-/

namespace ModelStreamer
namespace AsyncIo

open Common Lib Streamer PosixIo
open ObjectStorage (Answer)

/-! ## The tasks that answers finish -/

/-- The finished tasks of a batch after one more answer.  {lit}`Task::finished_request` does nothing
for a task that is finished, and {lit}`Batch::handle_error` fails all others, unless the code is
success. -/
def finishBy (batch : Batch) (finished : List Task) : Answer → List Task
  | .response other task =>
      if other = batch ∧ finished.count task < batch.tasks.count task then finished ++ [task]
      else finished
  | .error other code =>
      if other = batch ∧ code ≠ .success then finished ++ batch.tasks.diff finished else finished

/-- The tasks of a batch that its answers finish, in their order. -/
def finishedTasks (answers : List Answer) (batch : Batch) : List Task :=
  answers.foldl (finishBy batch) []

section Finished

variable {answers : List Answer} {batch : Batch}

/-- An answer about another batch finishes nothing. -/
theorem finishBy_other {answer : Answer} (hother : answeredBatch answer ≠ batch)
    (finished : List Task) : finishBy batch finished answer = finished := by
  cases answer with
  | response other task => exact if_neg fun h => hother h.1
  | error other code => exact if_neg fun h => hother h.1

/-- Only the answers about a batch count. -/
theorem foldl_finishBy_about (answers : List Answer) (batch : Batch) (finished : List Task) :
    (about answers batch).foldl (finishBy batch) finished =
      answers.foldl (finishBy batch) finished := by
  unfold about
  induction answers generalizing finished with
  | nil => rfl
  | cons answer answers ih =>
      by_cases hbatch : answeredBatch answer = batch
      · rw [List.filter_cons, if_pos (decide_eq_true hbatch), List.foldl_cons, List.foldl_cons, ih]
      · rw [List.filter_cons, if_neg fun h => hbatch (of_decide_eq_true h), ih, List.foldl_cons,
          finishBy_other hbatch]

/-- Responses about distinct tasks finish them. -/
theorem foldl_finishBy_responses (told finished : List Task)
    (h : (finished ++ told).Subperm batch.tasks) :
    (told.map (Answer.response batch)).foldl (finishBy batch) finished = finished ++ told := by
  induction told generalizing finished with
  | nil => exact (List.append_nil finished).symm
  | cons task told ih =>
      have hcount := h.count_le task
      rw [List.count_append, List.count_cons_self] at hcount
      have hfresh : finishBy batch finished (.response batch task) = finished ++ [task] :=
        if_pos ⟨rfl, by omega⟩
      have hrest : ((finished ++ [task]) ++ told).Subperm batch.tasks := by
        rw [List.append_assoc]
        exact h
      rw [List.map_cons, List.foldl_cons, hfresh, ih _ hrest, List.append_assoc]
      rfl

/-- A batch that was reported has all its tasks finished, each of them once. -/
theorem Settled.finishes (h : Settled answers batch) :
    (finishedTasks answers batch).Perm batch.tasks := by
  rcases h with ⟨told, code, hsub, habout, hall⟩
  unfold finishedTasks
  rw [← foldl_finishBy_about, habout, List.foldl_append,
    foldl_finishBy_responses told [] hsub, List.nil_append, List.foldl_cons, List.foldl_nil]
  by_cases hcode : code = .success
  · have hdone : finishBy batch told (.error batch code) = told := if_neg fun h => h.2 hcode
    rw [hdone]
    exact hall hcode
  · have hfailed : finishBy batch told (.error batch code) = told ++ batch.tasks.diff told :=
      if_pos ⟨rfl, hcode⟩
    rw [hfailed]
    exact List.subperm_append_diff_self_of_count_le fun task _ => hsub.count_le task

end Finished

/-! ## The abort -/

/-- Nothing writes any more, and no workload was reported under a read or a copy of its own. -/
structure Calm (w : Worker) : Prop where
  early : w.early = []
  kernel : w.kernel = []
  copying : w.copying = []
  copies : w.copies = []

/-- Everything is given back, and once. -/
structure HandedBack (scratch : List Addr) (w : Worker) : Prop where
  /-- The window holds no credit. -/
  credit : w.queue.inflight = 0
  /-- The free scratch buffers are those that the worker started with. -/
  scratch : ∀ p, w.scratch = some p → p.free.Perm scratch
  lent : w.lent = []
  /-- The staging pool got every buffer back as often as it had lent it. -/
  staging : w.borrowed.Perm w.returned

/-- A worker that has ended has given everything back. -/
theorem Ended.handedBack {env : Setting} {calm : Prop} {w : Worker} (h : Ended env calm w) :
    HandedBack env.scratch w where
  credit := h.inflight
  scratch := fun p hp => (h.pooled p hp).1
  lent := h.lent
  staging := h.returned

/-- When the engine waits for all reads, a worker that has ended is calm. -/
theorem Ended.calm {env : Setting} {calm : Prop} {w : Worker} (h : Ended env calm w)
    (hcalm : calm) : Calm w where
  early := (h.quiet hcalm).1
  kernel := (h.quiet hcalm).2
  copying := h.copying
  copies := h.copies

/-- However a worker ends, with an engine that can be waited for: no workload was reported while a
read or a copy of it could still write, every task of every batch is finished once, all credit and
all buffers are given back once, and whatever is called later makes no call on the engine, so the
reads that were only staged stay staged. -/
theorem abort_waits_for_writes {strategy : Strategy} {depth block : Nat} {measured : Bool}
    {scratch : List Addr} {actions more : List Worker.Action} {w w' : Worker}
    (h : Workable strategy depth scratch (actions ++ more))
    (hcalm : ∀ action ∈ actions, action.Waits)
    (hrun : run Worker.next (Worker.start strategy depth block measured scratch) actions = some w)
    (hover : w.engineDead = true ∨ w.stopping = true)
    (hmore : run Worker.next w more = some w') :
    Calm w ∧
      (∀ batch ∈ actions.flatMap Worker.Action.batches,
        Settled w.answers batch ∧ (finishedTasks w.answers batch).Perm batch.tasks) ∧
      HandedBack scratch w ∧
      w'.calls = w.calls ∧ w'.staged = w.staged ∧ w'.kernel = [] := by
  have hsound : Sound _ (∀ action ∈ actions, action.Waits) w := h.left.sound hrun
  have hended := hsound.ended hover
  have hquiet := hended.calm hcalm
  have henqueued : w.enqueued = actions.flatMap Worker.Action.batches := hended.enqueued
  have hsettled : ∀ batch ∈ actions.flatMap Worker.Action.batches, Settled w.answers batch :=
    henqueued ▸ hended.settled
  have hafter : Ended _ False w :=
    (sound_run h.left.start (h.left.ahead False.elim) hrun).ended hover
  rcases hafter.run_eq (h.right False.elim) hmore with ⟨enqueued, answers, rfl⟩
  exact ⟨hquiet, fun batch hbatch => ⟨hsettled batch hbatch, (hsettled batch hbatch).finishes⟩,
    hended.handedBack, rfl, rfl, hquiet.kernel⟩

/-! A flush fails after it has issued one of two staged reads, under a read and a copy. -/

/-- A batch of four chunks for a device. -/
def cudaBatch : Batch :=
  { submissionId := 1, workloadIndex := 0, fileIndex := 0, path := ['a']
    isObjectStorage := false, device := ⟨.cuda, 0⟩
    tasks := [Task.make 0 (TaskInfo.make 0 3 0), Task.make 1 (TaskInfo.make 3 3 0),
      Task.make 2 (TaskInfo.make 6 3 0), Task.make 3 (TaskInfo.make 9 3 0)]
    chunks := [⟨0, 3, 100, 0, 1⟩, ⟨3, 3, 103, 1, 1⟩, ⟨6, 3, 106, 2, 1⟩, ⟨9, 3, 109, 3, 1⟩]
    start := 0, stop := 12, unfinished := 0 }

/-- The transfer that the batch is built for. -/
def cudaTransfer : ContiguousTransfer :=
  { fileIndex := 0, offset := 0, size := 12, destination := 100, firstRangeIndex := 0
    rangeSizes := [3, 3, 3, 3], tasks := [⟨0, 0, 0, 12, 100⟩] }

theorem cudaBatch_built :
    (makeBatches tinyConfig ⟨1, 0, ['a'], false, ⟨.cuda, 0⟩⟩ cudaTransfer
      []).toOption.map Prod.snd = some [cudaBatch] := by
  decide +kernel

/-- A buffer is free, and the engine takes the read. -/
def stagedRead (data : Addr) : StageAnswer :=
  { acquired := .success, buffer := some ⟨data, 3⟩, openedDirect := -1, openedBuffered := 4
    staged := .success }

/-- Two reads are issued, and the first one lands and is copied. -/
def copyActions : List Worker.Action :=
  [.enqueue [cudaBatch] 0 fun _ => true,
    .pump [stagedRead 1000, stagedRead 2000, stagedRead 3000, stagedRead 4000],
    .drainBatch
      { stopped := false, landing := [], resumed := [], flushed := ⟨.success, 2, false⟩
        waited := .success
        harvests :=
          [{ id := 1, res := 3, restaged := stagedRead 0, reopened := -1, replaced := -1
             written := .success }]
        aborting := { landing := [], rounds := [] } }]

/-- The flush issues the third read and fails; the copy and both reads are waited for. -/
def failedFlush : Worker.Action :=
  .drainBatch
    { stopped := false, landing := [], resumed := [], flushed := ⟨.fsAsyncEngineError, 1, false⟩
      waited := .success, harvests := []
      aborting := { landing := [⟨1, .success⟩], rounds := [⟨.success, [3]⟩, ⟨.success, [2]⟩] } }

theorem cudaBatch_chunked : ChunkedBatch cudaBatch := by
  have hsliced : Sliced cudaTransfer :=
    ⟨⟨_, _, rfl, rfl⟩, rfl, fun _ slice hslice => by
      rw [List.mem_singleton.1 hslice]
      exact Nat.zero_lt_succ 11⟩
  exact chunked_of_only hsliced rfl (by decide) (by decide) cudaBatch_built (by decide)

theorem failedFlush_workable :
    Workable .ioUringBuffered 4 [] ((copyActions ++ [failedFlush]) ++ lateActions) where
  depth_pos := by decide
  scratch := fun hdirect => Bool.noConfusion hdirect
  distinct := by decide
  chunked := by
    intro batch hbatch
    have hmem : batch = cudaBatch ∨ batch = hostBatch 1 := by
      simpa [copyActions, failedFlush, lateActions, Worker.Action.batches] using hbatch
    rcases hmem with rfl | rfl
    · exact cudaBatch_chunked
    · exact hostBatch_chunked (by decide)
  codes := by decide

/-- The fourth read stays staged, and the staging pool has its four buffers back. -/
theorem abort_waits_for_writes_failedFlush : ∃ w w',
    run Worker.next (Worker.start .ioUringBuffered 4 4 true []) (copyActions ++ [failedFlush]) =
        some w ∧
      run Worker.next w lateActions = some w' ∧ Calm w ∧
      (finishedTasks w.answers cudaBatch).Perm cudaBatch.tasks ∧ HandedBack [] w ∧
      w.returned.length = 4 ∧ w'.calls = w.calls ∧ w'.staged.map EngineRead.id = [4] ∧
      w'.kernel = [] := by
  have hends : ((run Worker.next (Worker.start .ioUringBuffered 4 4 true [])
      (copyActions ++ [failedFlush])).map fun w =>
      (w.engineDead, w.returned.length, w.staged.map EngineRead.id,
        (run Worker.next w lateActions).isSome)) = some (true, 4, [4], true) := by
    decide +kernel
  rcases Option.map_eq_some_iff.1 hends with ⟨w, hrun, heq⟩
  simp only [Prod.mk.injEq] at heq
  rcases heq with ⟨hdead, hreturned, hstaged, hsome⟩
  rcases Option.isSome_iff_exists.1 hsome with ⟨w', hmore⟩
  have hleft := abort_waits_for_writes failedFlush_workable (by decide) hrun (Or.inl hdead) hmore
  rcases hleft with ⟨hquiet, hsettled, hback, hcalls, hsame, hkernel⟩
  refine ⟨w, w', hrun, hmore, hquiet, (hsettled cudaBatch ?_).2, hback, hreturned, hcalls, ?_,
    hkernel⟩
  · exact List.mem_cons_self
  · rw [hsame]
    exact hstaged

end AsyncIo
end ModelStreamer
