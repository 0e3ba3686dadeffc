import ModelStreamer.AsyncIo.WorkerAnswers
import ModelStreamer.Lib.Outcome

/-!
# What a worker does with one chunk

A chunk in the hands of a call is accounted, completed or staged again.  Whatever the outside
answers, it ends in one place or is answered, its slot with it, and no assertion fails.

Main results:

- Theorem {lit}`Core.accountChunk`: a chunk is accounted.
- Theorem {lit}`Busy.completeChunk`: a chunk is answered, or its copy is issued.
- Theorem {lit}`Busy.stagePending`: a chunk is staged, waits for a buffer or is answered.
-/

namespace ModelStreamer
namespace AsyncIo

open Common Lib Streamer PosixIo
open ObjectStorage (Answer CapacityQueue)

/-- A worker that has not ended, with the chunks in the hands of a call. -/
structure Busy (env : Setting) (hand : Hand) (w : Worker) : Prop where
  core : Core env hand w
  window : Window hand w.window

/-! ## The window -/

section Window

variable {hand : Hand} {s : WindowState} {id : Nat} {read : EngineRead}

/-- A chunk that is taken from the queue gets a slot. -/
theorem Window.take {queue : CapacityQueue Nat} (h : Window hand s)
    (htake : s.queue.tryTake = some (id, queue)) : Window (hand.slot id) { s with queue } := by
  have hdepth := h.depth_pos
  have hcapacity := h.capacity
  have hbound := h.bound
  have hcredit := h.credit
  unfold CapacityQueue.tryTake at htake
  split at htake
  · cases htake
  · rename_i item cost pending hpending
    have hcost : cost = 1 := h.cost (item, cost) (hpending ▸ List.mem_cons_self)
    split at htake
    · cases htake
    · rename_i hfits
      cases htake
      exact
        { h with
          cost := fun e he => h.cost e (hpending ▸ List.mem_cons_of_mem _ he)
          credit := by
            simp only [Hand.slot, List.length_cons]
            omega
          bound := by
            change s.queue.inflight + cost ≤ s.depth
            omega }

/-- A chunk that waited for a buffer keeps its slot. -/
theorem Window.unpark {waiting : List Nat} (h : Window hand s) (hwaiting : s.waiting = id :: waiting) :
    Window (hand.slot id) { s with waiting } :=
  { h with
    credit := by
      have hcredit := h.credit
      rw [hwaiting] at hcredit
      simp only [Hand.slot, List.length_cons] at hcredit ⊢
      omega }

/-- A chunk that waits for a buffer keeps its slot. -/
theorem Window.park (h : Window (hand.slot id) s) :
    Window hand { s with waiting := s.waiting ++ [id] } :=
  { h with
    credit := by
      have hcredit := h.credit
      simp only [Hand.slot, List.length_cons, List.length_append, List.length_nil] at hcredit ⊢
      omega }

/-- The engine has room for the read of a chunk that has a slot. -/
theorem Window.room (h : Window (hand.slot id) s) :
    (s.crowded || decide (s.depth ≤ s.staged.length + s.kernel.length)) = false := by
  have hcredit := h.credit
  have hbound := h.bound
  simp only [Hand.slot, List.length_cons] at hcredit
  rw [h.roomy, Bool.false_or, decide_eq_false_iff_not]
  omega

/-- A read that is staged keeps its slot. -/
theorem Window.stage (h : Window (hand.slot id) s) :
    Window hand
      { s with
        staged := s.staged ++ [read]
        crowded := s.crowded || decide (s.depth ≤ s.staged.length + s.kernel.length) } :=
  { h with
    credit := by
      have hcredit := h.credit
      simp only [Hand.slot, List.length_cons, List.length_append, List.length_nil] at hcredit ⊢
      omega
    roomy := h.room }

/-- The slot of a chunk is free. -/
theorem Window.free (h : Window (hand.slot id) s) :
    Window hand { s with queue := s.queue.complete 1 } :=
  { h with
    credit := by
      have hcredit := h.credit
      simp only [Hand.slot, List.length_cons, CapacityQueue.complete_inflight] at hcredit ⊢
      omega
    bound := by
      have hbound := h.bound
      simp only [CapacityQueue.complete_inflight]
      omega }

/-- Reads are issued. -/
theorem Window.flush {n : Nat} (h : Window hand s) (hn : n ≤ s.staged.length) :
    Window hand { s with kernel := s.kernel ++ s.staged.take n, staged := s.staged.drop n } :=
  { h with
    credit := by
      have hcredit := h.credit
      simp only [List.length_append, List.length_take, List.length_drop] at hcredit ⊢
      omega }

/-- A completion keeps the slot of its chunk until it is processed. -/
theorem Window.reap {kernel : List EngineRead} (h : Window hand s)
    (hkernel : s.kernel.Perm (read :: kernel)) :
    Window { hand with reaped := hand.reaped ++ [read.id] } { s with kernel } :=
  { h with
    credit := by
      have hcredit := h.credit
      rw [hkernel.length_eq] at hcredit
      simp only [List.length_cons, List.length_append, List.length_nil] at hcredit ⊢
      omega }

/-- The slot of a completion is with the call that processes it. -/
theorem Window.process {reaped : List Nat} (h : Window hand s) (hreaped : hand.reaped = id :: reaped) :
    Window ({ hand with reaped }.slot id) s :=
  { h with
    credit := by
      have hcredit := h.credit
      rw [hreaped] at hcredit
      simp only [Hand.slot, List.length_cons] at hcredit ⊢
      omega }

end Window

/-! ## Accounting -/

section Chunk

variable {env : Setting} {hand hand' : Hand} {w w' : Worker} {id : Nat}
  {entry : InflightChunk} {wl : Inflight} {batch : Batch}

/-- The window after a workload was reported. -/
theorem finalize_window (w : Worker) (workloadId : Nat) (code : ResponseCode) :
    (w.finalize workloadId code).window = w.window := by
  unfold Worker.finalize
  split <;> rfl

/-- The workload after the answers for one of its chunks. -/
def accountedWorkload (wl : Inflight) (batch : Batch) (chunk : Chunk) (ret : ResponseCode) :
    Inflight :=
  { (if ret = .success ∨ Batch.spanTasks batch chunk = [] then wl
      else wl.emplaceError batch.fileIndex ret) with
    remainingChunks := wl.remainingChunks - 1 }

/-- The worker after the answers for a chunk, before its workload is reported. -/
def accountedWorker (w : Worker) (id : Nat) (entry : InflightChunk) (wl : Inflight) (batch : Batch)
    (ret : ResponseCode) (freeSlot : Bool) : Worker :=
  { w.giveBack entry.staging with
    chunks := w.chunks.release id
    queue := if freeSlot then w.queue.complete 1 else w.queue
    answers := w.answers ++
      (if ret = .success then Batch.spanTasks batch entry.chunk else []).map
        (Answer.response batch)
    workloads := w.workloads.update entry.workloadId fun _ =>
      accountedWorkload wl batch entry.chunk ret }

/-- The calls of {lit}`account_chunk` when its workload is in flight. -/
theorem accountChunk_eq (hfind : w.chunks.find id = some entry)
    (hwl : w.workloads.lookup entry.workloadId = some wl)
    (hbatch : wl.batches[entry.batchIndex]? = some batch)
    (hinside : entry.chunk.firstTask + entry.chunk.taskCount ≤ batch.tasks.length)
    (hopen : wl.remainingChunks ≠ 0) (ret : ResponseCode) (freeSlot : Bool) :
    w.accountChunk id ret freeSlot =
      .ok
        (if wl.remainingChunks - 1 = 0 then
          (accountedWorker w id entry wl batch ret freeSlot).finalize entry.workloadId .success
        else accountedWorker w id entry wl batch ret freeSlot) := by
  have hwl' : (w.giveBack entry.staging).workloads.lookup entry.workloadId = some wl := hwl
  have hremaining : (if ret = .success ∨ Batch.spanTasks batch entry.chunk = [] then wl
      else wl.emplaceError batch.fileIndex ret).remainingChunks = wl.remainingChunks := by
    unfold Inflight.emplaceError
    split
    · rfl
    · split <;> rfl
  unfold Worker.accountChunk accountedWorker accountedWorkload
  rw [hfind]
  dsimp only
  rw [hwl']
  dsimp only
  rw [hbatch]
  dsimp only
  rw [if_neg (Nat.not_lt.2 hinside), hremaining, if_neg hopen, apply_ite (List.map _), List.map_nil]
  split <;> rfl

/-- A chunk is accounted. -/
theorem Core.accountChunk (h : Core env hand w) (hhand : hand.ids.Perm (id :: hand'.ids))
    (hreaped : hand'.reaped = hand.reaped) (hfinishing : hand'.finishing = hand.finishing)
    (hquiet : ∀ entry, w.chunks.find id = some entry → entry.bounces = false)
    (ret : ResponseCode) (freeSlot : Bool) :
    Ends (fun w' => Core env hand' w' ∧
        w'.window = { w.window with queue := if freeSlot then w.queue.complete 1 else w.queue })
      (fun _ => False) (w.accountChunk id ret freeSlot) := by
  rcases h.find_of_hand (hhand.symm.subset List.mem_cons_self) with ⟨entry, hfind⟩
  rcases h.routes hfind with ⟨wl, batch, hwl, hbatch, hchunk⟩
  have hchunked := h.chunked batch (h.live_enqueued (mem_live hwl hbatch))
  have hinside := hchunked.inside _ hchunk
  have hopen : wl.remainingChunks ≠ 0 := by
    have hok := h.workload _ wl hwl
    rw [hok.remaining]
    intro hzero
    exact owner_ne hzero hfind rfl
  have hcloses : Closes wl (accountedWorkload wl batch entry.chunk ret) batch entry.chunk
      (if ret = .success then Batch.spanTasks batch entry.chunk else []) := by
    unfold accountedWorkload
    by_cases hsuccess : ret = .success
    · rw [if_pos (Or.inl hsuccess), if_pos hsuccess]
      exact closes_success wl batch entry.chunk
    · have hfailure := closes_failure wl batch entry.chunk hsuccess
      simp only [hsuccess, false_or, if_false]
      exact hfailure
  have hopened : Core env { hand' with finishing := entry.workloadId :: hand'.finishing }
      (accountedWorker w id entry wl batch ret freeSlot) := by
    rw [hfinishing]
    have haccount : Core env { hand' with finishing := entry.workloadId :: hand.finishing } _ :=
      h.account hhand hreaped rfl hfind (hquiet entry hfind) hwl hbatch hcloses
    unfold accountedWorker
    cases freeSlot with
    | false => exact haccount
    | true => exact { haccount with }
  have hlookup : (accountedWorker w id entry wl batch ret freeSlot).workloads.lookup
      entry.workloadId = some (accountedWorkload wl batch entry.chunk ret) := by
    have hupdated := Table.lookup_update w.workloads entry.workloadId
      (fun _ => accountedWorkload wl batch entry.chunk ret) entry.workloadId
    rwa [if_pos rfl, hwl, Option.map_some] at hupdated
  have hwindow : (accountedWorker w id entry wl batch ret freeSlot).window =
      { w.window with queue := if freeSlot then w.queue.complete 1 else w.queue } := rfl
  rw [accountChunk_eq hfind hwl hbatch hinside hopen]
  by_cases hlast : wl.remainingChunks - 1 = 0
  · rw [if_pos hlast]
    exact ⟨hopened.finalize hlookup hlast, (finalize_window _ _ _).trans hwindow⟩
  · rw [if_neg hlast]
    exact ⟨hopened.resume hlookup (Nat.pos_of_ne_zero hlast), hwindow⟩

/-! ## Completing -/

theorem Hand.slot_perm (hand : Hand) (id : Nat) :
    (hand.slot id).ids.Perm (id :: hand.ids) :=
  List.Perm.refl _

/-- A chunk with a slot is accounted. -/
theorem Busy.accountChunk (h : Busy env (hand.slot id) w)
    (hquiet : ∀ entry, w.chunks.find id = some entry → entry.bounces = false)
    (ret : ResponseCode) :
    Ends (Busy env hand) (fun _ => False) (w.accountChunk id ret true) := by
  have hends := h.core.accountChunk (hand.slot_perm id) rfl rfl hquiet ret true
  apply hends.imp
  rintro w' ⟨hcore, hwindow⟩
  refine ⟨hcore, ?_⟩
  rw [hwindow]
  exact h.window.free

/-- The pool has the buffer of a chunk back. -/
theorem Core.returnStaging {buffer : StagingBuffer} (h : Core env hand w)
    (hfind : w.chunks.find id = some entry) (hstaging : entry.staging = some buffer) :
    Core env hand
      { w.giveBack buffer with
        chunks := w.chunks.set id { entry with staging := none } } := by
  have howner : { entry with staging := none }.owner = entry.owner := rfl
  refine h.setEntry w.copying hfind howner (List.Perm.refl _) rfl rfl h.copied rfl ?_ ?_
    (h.lent_nodup.filter _) ?_ ?_
  · intro rest hrest p hp
    rcases h.pooled p hp with ⟨hperm, hlength⟩
    exact ⟨(hrest.symm.append_left _).trans hperm, hlength⟩
  · exact fun hbounces => h.bouncing id entry hfind hbounces
  · intro rest hrest
    rw [hstaging] at hrest
    exact filter_lent h.lent_nodup (h.lent.trans (hrest.append_right _))
  · rcases held_set h.keys_nodup hfind entry InflightChunk.staging with ⟨hheld, -⟩
    rw [hstaging] at hheld
    exact returned_filter h.lent_nodup (h.lent.trans (hheld.append_right _)) h.returned

/-- An entry that was changed outside of a pass. -/
theorem quiet_set {entry' : InflightChunk} (hfind : w.chunks.find id = some entry)
    (hquiet : entry'.bounces = false) :
    ∀ e, (w.chunks.set id entry').find id = some e → e.bounces = false := by
  intro e he
  rw [find_set, if_pos rfl, hfind, Option.map_some] at he
  rw [← Option.some.inj he]
  exact hquiet

/-- A chunk is answered, or its copy is issued. -/
theorem Busy.completeChunk (h : Busy env (hand.slot id) w)
    (hquiet : ∀ entry, w.chunks.find id = some entry → entry.bounces = false)
    (ret written : ResponseCode) :
    Ends (Busy env hand) (fun _ => False) (w.completeChunk id ret written) := by
  rcases h.core.find_of_hand List.mem_cons_self with ⟨entry, hfind⟩
  rcases h.core.routes hfind with ⟨wl, batch, hwl, hbatch, hchunk⟩
  unfold Worker.completeChunk
  rw [hfind]
  dsimp only
  rw [hwl]
  cases hbuffer : if ret = .success then entry.staging else none with
  | none => exact h.accountChunk hquiet ret
  | some buffer =>
      have hstaging : entry.staging = some buffer := by
        split at hbuffer
        · exact hbuffer
        · cases hbuffer
      dsimp only
      split
      case isTrue =>
        have hcore := h.core.copy hfind hstaging
        exact ⟨{ hcore with }, h.window.free⟩
      case isFalse =>
        have hreturned := h.core.returnStaging hfind hstaging
        refine Busy.accountChunk ⟨hreturned, h.window⟩ (quiet_set hfind ?_) .deviceTransferError
        exact hquiet entry hfind

/-! ## Opening a file -/

/-- What a call of {lit}`fd_for` gives. -/
structure Opened (env : Setting) (hand : Hand) (w : Worker) (workloadId batchIndex : Nat)
    (file : BatchFd) (w' : Worker) : Prop where
  core : Core env hand w'
  window : w'.window = w.window
  chunks : w'.chunks = w.chunks
  found : w'.fileAt workloadId batchIndex = some file
  usable : file.error = .success → 0 ≤ file.fd

/-- A file that could not be opened has an error, and a direct descriptor was asked for. -/
theorem openFile_spec (file : BatchFd) (direct : Bool) (answer : StageAnswer) :
    ((Worker.openFile file direct answer).fd < 0 →
      (Worker.openFile file direct answer).error ≠ .success) ∧
    ((Worker.openFile file direct answer).direct = true → direct = true ∨ file.direct = true) := by
  unfold Worker.openFile
  split
  case isTrue hdirect => exact ⟨fun hneg => absurd hdirect.2 (not_le.2 hneg), fun _ => Or.inl hdirect.1⟩
  case isFalse =>
    split
    case isTrue => exact ⟨fun _ herror => ResponseCode.noConfusion herror, fun h => Or.inr h⟩
    case isFalse hpos =>
      refine ⟨fun hneg => absurd hneg hpos, fun h => ?_⟩
      cases h

/-- The file of a batch is open, or its error is known. -/
theorem Core.fdFor {workloadId batchIndex : Nat} (h : Core env hand w)
    (hwl : w.workloads.lookup workloadId = some wl)
    (hbatch : wl.batches[batchIndex]? = some batch) {direct : Bool}
    (hdirect : direct = true → w.strategy.isDirect = true) (answer : StageAnswer) :
    Ends (fun r => Opened env hand w workloadId batchIndex r.1 r.2) (· = .refused)
      (w.fdFor workloadId batchIndex direct answer) := by
  have hok := h.workload _ wl hwl
  have hbound : batchIndex < wl.fds.length := by
    rw [hok.files]
    exact (List.getElem?_eq_some_iff.1 hbatch).1
  have hget : wl.fds[batchIndex]? = some wl.fds[batchIndex] := List.getElem?_eq_getElem hbound
  generalize wl.fds[batchIndex] = file at hget
  have hfile : w.fileAt workloadId batchIndex = some file := by
    unfold Worker.fileAt
    rw [hwl, Option.bind_some, hget]
  have hset : ∀ file', (w.setFile workloadId batchIndex file').fileAt workloadId batchIndex =
      some file' := by
    intro file'
    refine (fileAt_update _ hwl workloadId batchIndex).trans ?_
    rw [if_pos rfl]
    exact List.getElem?_set_self hbound
  unfold Worker.fdFor
  unfold Worker.fileAt at hfile
  rw [hfile]
  dsimp only
  split
  case isTrue hknown =>
    refine ⟨h, rfl, rfl, hfile, fun hsuccess => ?_⟩
    exact hknown.resolve_left fun herror => herror hsuccess
  case isFalse hnew =>
    rw [not_or, not_not, not_le] at hnew
    rcases openFile_spec file direct answer with ⟨hfailed, hasked⟩
    generalize Worker.openFile file direct answer = file' at hfailed hasked
    have hclosed : file.descriptor = [] := if_neg (not_le.2 hnew.2)
    have hmode : file'.direct = true → w.strategy.isDirect = true := by
      intro hdirect'
      rcases hasked hdirect' with hnow | hold
      · exact hdirect hnow
      · exact hok.direct file (List.mem_of_getElem? hget) hold
    have hkeep : 0 ≤ file.fd → file'.fd = file.fd := fun hpos => absurd hpos (not_le.2 hnew.2)
    split
    case isTrue hneg =>
      have hcore := h.setFile file' hwl hget hmode hkeep h.opened_nodup fun rest hrest => by
        have hnone : file'.descriptor = [] := if_neg (not_le.2 hneg)
        rw [hnone]
        rw [hclosed] at hrest
        exact h.opened.trans hrest
      refine ⟨hcore, rfl, rfl, hset file', fun hsuccess => ?_⟩
      exact absurd hsuccess (hfailed hneg)
    case isFalse hpos =>
      split
      case isTrue => exact rfl
      case isFalse hfresh =>
        have hnodup : (w.opened ++ [file'.fd]).Nodup := List.nodup_append'.2
          ⟨h.opened_nodup, List.nodup_singleton _, List.disjoint_singleton.2 hfresh⟩
        have hcore := h.setFile file' hwl hget hmode hkeep hnodup fun rest hrest => by
          have hone : file'.descriptor = [file'.fd] := if_pos (not_lt.1 hpos)
          rw [hone]
          rw [hclosed] at hrest
          exact (List.perm_append_singleton _ _).trans ((h.opened.trans hrest).cons _)
        exact ⟨hcore, rfl, rfl, hset file', fun _ => not_lt.1 hpos⟩

/-! ## Staging -/

/-- The engine did not take the read, and the pass of the chunk is given up. -/
theorem Core.unstage {pass : DirectPass} {direct staged : Bool} {pending : Chunk} {block : Nat}
    {scratch : Option ScratchPool} (h : Core env hand w)
    (hfind : w.chunks.find id = some entry) (hquiet : entry.bounces = false)
    (hplan : planPass w.scratch pending block direct staged = some (pass, scratch)) :
    Core env hand
      ({ w with scratch, chunks := w.chunks.set id (entry.withPass pass) }.clearBounce id
        (entry.withPass pass)) := by
  rcases planPass_scratch hplan with ⟨hsome, hfree⟩
  have howner : (entry.withPass pass).clearBounce.owner = entry.owner := by
    unfold InflightChunk.withPass
    split <;> rfl
  have hchunks : (w.chunks.set id (entry.withPass pass)).set id (entry.withPass pass).clearBounce =
      w.chunks.set id (entry.withPass pass).clearBounce := by
    unfold InflightChunks.set
    rw [Table.update_update]
  unfold Worker.clearBounce
  rw [withPass_scratch hquiet]
  dsimp only
  rw [hchunks]
  refine h.setEntry w.copying hfind howner (List.Perm.refl _) rfl rfl h.copied ?_ ?_ ?_
    h.lent_nodup ?_ h.returned
  · cases pass.scratch with
    | none => exact hsome
    | some buffer => exact Option.isSome_map.trans hsome
  · intro rest hrest p hp
    rw [scratch_of_quiet hquiet] at hrest
    have hpool : ∃ q, w.scratch = some q ∧ p.free = q.free := by
      cases hpass : pass.scratch with
      | none =>
          rw [hpass] at hp
          rcases hfree p hp with ⟨q, hq, heq⟩
          rw [hpass] at heq
          exact ⟨q, hq, heq.symm⟩
      | some buffer =>
          rw [hpass] at hp
          rcases Option.map_eq_some_iff.1 hp with ⟨p', hp', rfl⟩
          rcases hfree p' hp' with ⟨q, hq, heq⟩
          rw [hpass] at heq
          exact ⟨q, hq, heq.symm⟩
    rcases hpool with ⟨q, hq, heq⟩
    rcases h.pooled q hq with ⟨hperm, hlength⟩
    rw [heq]
    exact ⟨(hrest.symm.append_left _).trans hperm, hlength⟩
  · intro hbounces
    cases hbounces
  · intro rest hrest
    rw [clearBounce_staging, withPass_staging]
    exact h.lent.trans (hrest.append_right _)

/-- A pass that cannot be planned is a direct one that finds no scratch buffer. -/
theorem planPass_dry {pool : Option ScratchPool} {pending : Chunk} {block : Nat}
    {direct staged : Bool} (h : planPass pool pending block direct staged = none) :
    direct = true ∧ ∀ p, pool = some p → p.free = [] := by
  have hbounce : ∀ {f : Addr → DirectPass}, bounceThrough pool f = none →
      ∀ p, pool = some p → p.free = [] := by
    intro f hnone p hp
    unfold bounceThrough at hnone
    rw [Option.map_eq_none_iff, hp, Option.bind_some] at hnone
    unfold ScratchPool.take at hnone
    cases hfree : p.free with
    | nil => rfl
    | cons buffer free =>
        rw [hfree] at hnone
        cases hnone
  unfold planPass at h
  split at h
  case isFalse => cases h
  case isTrue hdirect =>
    refine ⟨hdirect, ?_⟩
    unfold planDirectPass at h
    dsimp only at h
    split at h
    · cases h
    · split at h
      · exact hbounce h
      · split at h
        · cases h
        · exact hbounce h

/-- The scratch buffers that are not free belong to the reads of the engine. -/
theorem Core.heldScratch_le (h : Core env hand w) :
    w.heldScratch.length ≤ hand.reaped.length + w.staged.length + w.kernel.length := by
  let holders := w.chunks.entries.filter fun e => e.2.scratch.isSome
  have hlength : w.heldScratch.length = (holders.map Prod.fst).length := by
    unfold Worker.heldScratch
    rw [List.length_filterMap_eq_countP, List.countP_eq_length_filter, List.length_map]
  have hnodup : (holders.map Prod.fst).Nodup :=
    h.keys_nodup.sublist (List.filter_sublist.map Prod.fst)
  have hsubset : holders.map Prod.fst ⊆ hand.reaped ++ w.engineIds := by
    intro id hid
    rcases List.mem_map.1 hid with ⟨e, he, rfl⟩
    rcases List.mem_filter.1 he with ⟨hmem, hsome⟩
    apply h.bouncing e.1 e.2 (Table.lookup_of_mem h.keys_nodup hmem)
    cases hbounces : e.2.bounces with
    | true => rfl
    | false =>
        rw [scratch_of_quiet hbounces] at hsome
        cases hsome
  have hle := (List.subperm_of_subset hnodup hsubset).length_le
  unfold Worker.engineIds at hle
  simp only [List.length_append, List.length_map] at hle hlength
  omega

/-- A chunk that has a slot finds a scratch buffer. -/
theorem Busy.free_scratch (h : Busy env (hand.slot id) w) {p : ScratchPool}
    (hp : w.scratch = some p) : p.free ≠ [] := by
  intro hnone
  rcases h.core.pooled p hp with ⟨hperm, hlength⟩
  have hheld := h.core.heldScratch_le
  have hcredit := h.window.credit
  have hbound := h.window.bound
  have hcount := hperm.length_eq
  rw [hnone, List.nil_append] at hcount
  simp only [Hand.slot, List.length_cons, Worker.window] at hheld hcredit hbound
  omega

/-- A file is open for direct reads only if the strategy is direct. -/
theorem Core.direct_of_file {file : BatchFd} {workloadId batchIndex : Nat} (h : Core env hand w)
    (hfile : w.fileAt workloadId batchIndex = some file) (hdirect : file.direct = true) :
    w.strategy.isDirect = true := by
  rcases Option.bind_eq_some_iff.1 hfile with ⟨wl, hwl, hget⟩
  exact (h.workload _ wl hwl).direct file (List.mem_of_getElem? hget) hdirect

/-- A pass is planned and staged. -/
theorem Busy.stagePass {file : BatchFd} (h : Busy env (hand.slot id) w)
    (hfind : w.chunks.find id = some entry) (hquiet : entry.bounces = false)
    (hfile : w.fileAt entry.workloadId entry.batchIndex = some file) (hopen : 0 ≤ file.fd)
    (answer : StageAnswer) :
    Ends (Busy env hand) (fun _ => False) (w.stagePass id entry file answer) := by
  have hplaced : ∀ block direct, (entry.placeInStaging block direct).owner = entry.owner ∧
      (entry.placeInStaging block direct).scratch = entry.scratch ∧
      (entry.placeInStaging block direct).staging = entry.staging ∧
      (entry.placeInStaging block direct).bounces = entry.bounces := by
    intro block direct
    unfold InflightChunk.placeInStaging
    split <;> exact ⟨rfl, rfl, rfl, rfl⟩
  unfold Worker.stagePass
  dsimp only
  rcases hplaced w.block file.direct with ⟨howner, hscratch, hstaging, hbounces⟩
  generalize entry.placeInStaging w.block file.direct = placed at howner hscratch hstaging hbounces
  have hcore := h.core.setPlain hfind howner hscratch hstaging (by rw [hbounces]; exact fun h => h)
  have hfind' : (w.chunks.set id placed).find id = some placed := by
    rw [find_set, if_pos rfl, hfind, Option.map_some]
  have hquiet' : placed.bounces = false := hbounces.trans hquiet
  cases hplan : planPass w.scratch placed.pending w.block file.direct placed.staging.isSome with
  | none =>
      rcases planPass_dry hplan with ⟨hdirect, hdry⟩
      have hstrategy := h.core.strategy
      rw [h.core.direct_of_file hfile hdirect] at hstrategy
      rcases Option.isSome_iff_exists.1 hstrategy with ⟨p, hp⟩
      exact absurd (hdry p hp) (h.free_scratch hp)
  | some r =>
      rcases r with ⟨pass, scratch⟩
      dsimp only
      split
      case isTrue htwice =>
        rcases not_bounces_iff.1 hquiet' with ⟨hnone, -, hwanted⟩
        rw [hnone] at htwice
        exact htwice.2.elim Bool.noConfusion fun hne => hne hwanted
      case isFalse =>
        split
        case isTrue =>
          have hreads : { w with chunks := w.chunks.set id placed }.Reads
              { id, file := ⟨file.fd, file.direct⟩, pass } := by
            refine ⟨placed, file, hfind', ?_, hopen, rfl⟩
            have hids : placed.workloadId = entry.workloadId ∧ placed.batchIndex = entry.batchIndex :=
              ⟨congrArg Owner.workloadId howner, congrArg Owner.batchIndex howner⟩
            rw [hids.1, hids.2]
            exact hfile
          have hstaged := hcore.stage hfind' hquiet' hplan rfl hreads
          exact ⟨{ hstaged with }, h.window.stage⟩
        case isFalse =>
          have hfreed := hcore.unstage hfind' hquiet' hplan
          apply Busy.completeChunk
          · exact ⟨{ hfreed with }, { h.window with roomy := h.window.room }⟩
          · apply quiet_set _ rfl
            · exact placed.withPass pass
            · rw [find_set, if_pos rfl, hfind']
              rfl

/-- A chunk that has a place to be read to is staged, or answered. -/
theorem Busy.stageRead (h : Busy env (hand.slot id) w)
    (hfind : w.chunks.find id = some entry) (hquiet : entry.bounces = false)
    (answer : StageAnswer) :
    Ends (Busy env hand) (· = .refused) (w.stageRead id entry answer) := by
  rcases h.core.routes hfind with ⟨wl, batch, hwl, hbatch, -⟩
  have hdirect : w.wantsDirect entry.pending.offset entry.pending.buffer entry.staging.isSome = true →
      w.strategy.isDirect = true := by
    intro hwants
    unfold Worker.wantsDirect at hwants
    simp only [Bool.and_eq_true] at hwants
    exact hwants.1.1
  unfold Worker.stageRead
  apply (h.core.fdFor hwl hbatch hdirect answer).bind
  rintro ⟨file, w'⟩ hopened
  have hbusy : Busy env (hand.slot id) w' := ⟨hopened.core, hopened.window ▸ h.window⟩
  have hfind' : w'.chunks.find id = some entry := by
    rw [hopened.chunks]
    exact hfind
  dsimp only
  split
  case isTrue =>
    apply (hbusy.completeChunk _ file.error .success).mono (fun _ h => h) fun _ => False.elim
    intro e he
    rw [hfind'] at he
    rw [← Option.some.inj he]
    exact hquiet
  case isFalse hsuccess =>
    have hopen := hopened.usable (not_not.1 hsuccess)
    exact (hbusy.stagePass hfind' hquiet hopened.found hopen answer).mono (fun _ h => h)
      fun _ => False.elim

/-- A chunk is staged, waits for a buffer or is answered. -/
theorem Busy.stagePending (h : Busy env (hand.slot id) w)
    (hquiet : ∀ entry, w.chunks.find id = some entry → entry.bounces = false)
    (answer : StageAnswer) :
    Ends (Busy env hand) (· = .refused) (w.stagePending id answer) := by
  rcases h.core.find_of_hand List.mem_cons_self with ⟨entry, hfind⟩
  rcases h.core.routes hfind with ⟨wl, batch, hwl, hbatch, -⟩
  have hentry := hquiet entry hfind
  unfold Worker.stagePending
  rw [hfind]
  dsimp only
  rw [hwl]
  dsimp only
  rw [hbatch]
  dsimp only
  split
  case isTrue hneeds =>
    split
    case isTrue =>
      exact (h.completeChunk hquiet answer.acquired .success).mono (fun _ h => h)
        fun _ => False.elim
    case isFalse =>
      cases answer.buffer with
      | none => exact ⟨h.core.park, h.window.park⟩
      | some buffer =>
          dsimp only
          split
          case isTrue => exact rfl
          case isFalse hfree =>
            have hacquired := h.core.acquire hfind (Option.isNone_iff_eq_none.1 hneeds.1) hfree
            apply Busy.stageRead
            · exact ⟨hacquired, h.window⟩
            · rw [find_set, if_pos rfl, hfind, Option.map_some]
            · exact hentry
  case isFalse => exact h.stageRead hfind hentry answer

end Chunk

end AsyncIo
end ModelStreamer
