import ModelStreamer.AsyncIo.WorkerEnding

/-!
# Enqueueing a workload

A workload is taken on batch by batch: its empty tasks are answered if the file can be opened, and
its chunks are queued under new ids.  The invariant is followed through a workload that only has
the batches so far; after the last batch it is the workload that was enqueued.

Main results:

- Theorem {lit}`Core.addBatch`: one more batch of a workload.
- Theorem {lit}`Busy.enqueue`: a workload is enqueued.
-/

namespace ModelStreamer
namespace AsyncIo

open Common Lib Streamer PosixIo
open ObjectStorage (Answer CapacityQueue)

/-! ## New entries -/

/-- The entries of the chunks of a batch, under ids from {lit}`n` on. -/
def newEntries (workloadId batchIndex n : Nat) (chunks : List Chunk) : Table InflightChunk :=
  (chunks.zipIdx n).map fun x => (x.2, .make x.1 workloadId batchIndex)

section Entries

variable {workloadId batchIndex n : Nat} {chunks : List Chunk}

theorem keys_newEntries :
    (newEntries workloadId batchIndex n chunks).keys = List.range' n chunks.length := by
  unfold newEntries Table.keys
  rw [List.map_map, ← List.zipIdx_map_snd]
  rfl

theorem owners_newEntries :
    ((newEntries workloadId batchIndex n chunks).map fun e => e.2.owner) =
      chunks.map fun chunk => ⟨workloadId, batchIndex, chunk⟩ := by
  unfold newEntries
  rw [List.map_map]
  conv_rhs => rw [← List.zipIdx_map_fst n chunks, List.map_map]
  rfl

/-- A new entry has neither a pass nor a buffer. -/
theorem mem_newEntries {e : Nat × InflightChunk}
    (h : e ∈ newEntries workloadId batchIndex n chunks) :
    e.2.bounces = false ∧ e.2.scratch = none ∧ e.2.staging = none := by
  rcases List.mem_map.1 h with ⟨x, -, rfl⟩
  exact ⟨rfl, rfl, rfl⟩

/-- The chunks of a batch are queued. -/
theorem foldl_queueChunk (w : Worker) :
    chunks.foldl (Worker.queueChunk workloadId batchIndex) w =
      { w with
        chunks :=
          { nextId := w.chunks.nextId + chunks.length
            entries := w.chunks.entries ++
              newEntries workloadId batchIndex w.chunks.nextId chunks }
        queue :=
          { w.queue with
            pending := w.queue.pending ++
              (newEntries workloadId batchIndex w.chunks.nextId chunks).map fun e => (e.1, 1) } } := by
  induction chunks generalizing w with
  | nil =>
      have hnone : newEntries workloadId batchIndex w.chunks.nextId [] = [] := rfl
      rw [List.foldl_nil, hnone, List.map_nil, List.append_nil, List.append_nil]
      rfl
  | cons chunk chunks ih =>
      have hcons : newEntries workloadId batchIndex w.chunks.nextId (chunk :: chunks) =
          (w.chunks.nextId, .make chunk workloadId batchIndex) ::
            newEntries workloadId batchIndex (w.chunks.nextId + 1) chunks := rfl
      rw [List.foldl_cons, ih, hcons]
      unfold Worker.queueChunk InflightChunks.add CapacityQueue.enqueue
      dsimp only
      rw [List.append_assoc, List.append_assoc, List.map_cons, List.length_cons,
        Nat.add_assoc, Nat.add_comm 1]
      rfl

end Entries

/-! ## Empty tasks -/

/-- What a batch is told about its empty tasks. -/
def emptyAnswers (batch : Batch) (opens : Bool) : List Task :=
  if opens then batch.tasks.filter emptyTask else []

/-- The workload after the empty tasks of a batch. -/
def afterEmpty (wl : Inflight) (batch : Batch) (opens : Bool) : Inflight :=
  if opens ∨ batch.tasks.filter emptyTask = [] then wl
  else wl.emplaceError batch.fileIndex .fileAccessError

section Empty

variable {wl : Inflight} {batch : Batch} {opens : Bool}

theorem afterEmpty_codes (h : ∀ e ∈ wl.errorByFileIndex, e.2 ≠ .success) :
    ∀ e ∈ (afterEmpty wl batch opens).errorByFileIndex, e.2 ≠ .success := by
  intro e he
  unfold afterEmpty at he
  split at he
  · exact h e he
  · rcases mem_emplaceError he with hold | hnew
    · exact h e hold
    · rw [hnew]
      exact ResponseCode.noConfusion

theorem afterEmpty_errors {j : Nat} (h : (wl.errorByFileIndex.lookup j).isSome = true) :
    ((afterEmpty wl batch opens).errorByFileIndex.lookup j).isSome = true := by
  unfold afterEmpty
  split
  · exact h
  · exact emplaceError_mono h

/-- A batch is told about its empty tasks, and its chunks are open. -/
theorem tally_empty (hchunked : ChunkedBatch batch) :
    Tally batch.tasks emptyTask (batch.chunks.map chunkSpan)
      (fun _ => ((afterEmpty wl batch opens).errorByFileIndex.lookup batch.fileIndex).isSome = true)
      (emptyAnswers batch opens) := by
  unfold emptyAnswers afterEmpty
  cases opens with
  | true =>
      rw [if_pos rfl]
      exact Tally.start hchunked.covers hchunked.apart
  | false =>
      rw [if_neg Bool.false_ne_true]
      by_cases hnone : batch.tasks.filter emptyTask = []
      · have hstart : Tally batch.tasks emptyTask (batch.chunks.map chunkSpan)
            (fun _ => (wl.errorByFileIndex.lookup batch.fileIndex).isSome = true)
            (batch.tasks.filter emptyTask) := Tally.start hchunked.covers hchunked.apart
        rw [hnone] at hstart
        rw [if_pos (Or.inr hnone)]
        exact hstart
      · rw [if_neg (by simpa using hnone)]
        exact Tally.start_failed hchunked.covers hchunked.apart fun _ _ _ => emplaceError_self

end Empty

/-! ## One more batch -/

/-- A workload with one more batch. -/
def growWorkload (wl : Inflight) (batch : Batch) (opens : Bool) : Inflight :=
  { afterEmpty wl batch opens with
    batches := wl.batches ++ [batch]
    fds := wl.fds ++ [{}]
    remainingChunks := wl.remainingChunks + batch.chunks.length }

/-- The worker after one more batch of a workload. -/
def growWorker (w : Worker) (workloadId : Nat) (wl : Inflight) (batch : Batch) (opens : Bool) :
    Worker :=
  let added := newEntries workloadId wl.batches.length w.chunks.nextId batch.chunks
  { w with
    enqueued := w.enqueued ++ [batch]
    answers := w.answers ++ (emptyAnswers batch opens).map (Answer.response batch)
    workloads := w.workloads.update workloadId fun _ => growWorkload wl batch opens
    chunks :=
      { nextId := w.chunks.nextId + batch.chunks.length, entries := w.chunks.entries ++ added }
    queue := { w.queue with pending := w.queue.pending ++ added.map fun e => (e.1, 1) } }

section Grow

variable {env : Setting} {hand : Hand} {w : Worker} {workloadId : Nat} {wl : Inflight}
  {batch : Batch} {opens : Bool}

/-- The owners after one more batch. -/
theorem owners_grow : (growWorker w workloadId wl batch opens).owners =
    w.owners ++ batch.chunks.map fun chunk => ⟨workloadId, wl.batches.length, chunk⟩ := by
  unfold growWorker Worker.owners
  dsimp only
  rw [List.map_append, owners_newEntries]

/-- The chunks of a new batch are open. -/
theorem openSpans_grow (owners : List Owner) (workloadId batchIndex : Nat) (chunks : List Chunk)
    (i j : Nat) :
    openSpans (owners ++ chunks.map fun chunk => ⟨workloadId, batchIndex, chunk⟩) i j =
      openSpans owners i j ++
        if workloadId = i ∧ batchIndex = j then chunks.map chunkSpan else [] := by
  unfold openSpans
  rw [List.filter_append, List.map_append, List.filter_map, List.map_map]
  congr 1
  split
  case isTrue hsame =>
    exact congrArg (List.map chunkSpan)
      (List.filter_eq_self.2 fun chunk _ => decide_eq_true hsame)
  case isFalse hdiffer =>
    exact congrArg (List.map chunkSpan)
      (List.filter_eq_nil_iff.2 fun chunk _ hboth => hdiffer (of_decide_eq_true hboth))

/-- The chunks of a new batch are outstanding. -/
theorem outstanding_grow (owners : List Owner) (workloadId batchIndex : Nat) (chunks : List Chunk)
    (i : Nat) :
    outstanding (owners ++ chunks.map fun chunk => ⟨workloadId, batchIndex, chunk⟩) i =
      outstanding owners i + if workloadId = i then chunks.length else 0 := by
  unfold outstanding
  rw [List.countP_append, List.countP_map]
  congr 1
  split
  case isTrue hsame => exact List.countP_eq_length.2 fun chunk _ => decide_eq_true hsame
  case isFalse hdiffer =>
    exact List.countP_eq_zero.2 fun chunk _ hid => hdiffer (of_decide_eq_true hid)

/-- The workload with one more batch. -/
theorem WorkloadOk.grow {strategy : Strategy} {owners : List Owner} {answers : List Answer}
    (h : WorkloadOk strategy owners answers workloadId wl) (hchunked : ChunkedBatch batch)
    (opens : Bool)
    (howned : ∀ o ∈ owners, o.workloadId = workloadId → o.batchIndex < wl.batches.length)
    (hunknown : about answers batch = []) (hdiffer : batch ∉ wl.batches) :
    WorkloadOk strategy
      (owners ++ batch.chunks.map fun chunk => ⟨workloadId, wl.batches.length, chunk⟩)
      (answers ++ (emptyAnswers batch opens).map (Answer.response batch)) workloadId
      (growWorkload wl batch opens) := by
  constructor
  case files =>
    change (wl.fds ++ [({} : BatchFd)]).length = (wl.batches ++ [batch]).length
    rw [List.length_append, List.length_append, h.files]
    rfl
  case remaining =>
    rw [outstanding_grow, if_pos rfl, ← h.remaining]
    rfl
  case codes => exact afterEmpty_codes h.codes
  case direct =>
    intro file hfile hdirect
    rcases List.mem_append.1 hfile with hold | hlast
    · exact h.direct file hold hdirect
    · rw [List.mem_singleton.1 hlast] at hdirect
      cases hdirect
  case telling =>
    intro i other hi
    have hbatches : (growWorkload wl batch opens).batches = wl.batches ++ [batch] := rfl
    rw [hbatches] at hi
    have hspans := openSpans_grow owners workloadId wl.batches.length batch.chunks workloadId i
    rcases Nat.lt_trichotomy i wl.batches.length with hlt | rfl | hgt
    · rw [List.getElem?_append_left hlt] at hi
      rw [if_neg fun hboth => (Nat.ne_of_gt hlt) hboth.2, List.append_nil] at hspans
      refine (h.telling i other hi).other (List.Perm.of_eq hspans.symm) ?_
        fun _ herror => afterEmpty_errors herror
      rintro answer hanswer rfl
      rcases List.mem_map.1 hanswer with ⟨task, -, rfl⟩
      exact hdiffer (List.mem_of_getElem? hi)
    · rw [List.getElem?_concat_length] at hi
      obtain rfl := Option.some.inj hi
      have hclosed : openSpans owners workloadId wl.batches.length = [] := by
        unfold openSpans
        rw [List.filter_eq_nil_iff.2, List.map_nil]
        intro o ho hboth
        rcases of_decide_eq_true hboth with ⟨hid, hindex⟩
        exact absurd (howned o ho hid) (by omega)
      rw [if_pos ⟨rfl, rfl⟩, hclosed, List.nil_append] at hspans
      refine ⟨emptyAnswers batch opens, ?_, ?_⟩
      · rw [about_append, hunknown, about_responses, List.nil_append]
      · rw [hspans]
        exact tally_empty hchunked
    · rw [List.getElem?_eq_none (by rw [List.length_append, List.length_singleton]; omega)] at hi
      cases hi

/-- The ids after one more batch. -/
theorem keys_grow : (growWorker w workloadId wl batch opens).chunks.entries.keys =
    w.chunks.entries.keys ++ List.range' w.chunks.nextId batch.chunks.length := by
  rw [← keys_newEntries]
  exact List.map_append ..

/-- An entry stays when a batch comes. -/
theorem find_grow {id : Nat} {entry : InflightChunk} (hfind : w.chunks.find id = some entry) :
    (growWorker w workloadId wl batch opens).chunks.find id = some entry := by
  refine (Table.lookup_append w.chunks.entries _ id).trans ?_
  unfold InflightChunks.find at hfind
  rw [hfind]
  rfl

/-- An entry is old, or of the new batch. -/
theorem find_of_grow {id : Nat} {entry : InflightChunk}
    (hfind : (growWorker w workloadId wl batch opens).chunks.find id = some entry) :
    w.chunks.find id = some entry ∨ entry.bounces = false := by
  have happend := Table.lookup_append w.chunks.entries
    (newEntries workloadId wl.batches.length w.chunks.nextId batch.chunks) id
  rcases Option.or_eq_some_iff.1 (happend.symm.trans hfind) with hold | ⟨-, hadded⟩
  · exact Or.inl hold
  · exact Or.inr (mem_newEntries (Table.mem_of_lookup hadded)).1

/-- The new entries hold nothing. -/
theorem filterMap_grow {β : Type} (f : InflightChunk → Option β)
    (hnone : ∀ e ∈ newEntries workloadId wl.batches.length w.chunks.nextId batch.chunks,
      f e.2 = none) :
    ((growWorker w workloadId wl batch opens).chunks.entries.filterMap fun e => f e.2) =
      w.chunks.entries.filterMap fun e => f e.2 := by
  have happend : ((w.chunks.entries ++
      newEntries workloadId wl.batches.length w.chunks.nextId batch.chunks).filterMap
        fun e => f e.2) = _ := List.filterMap_append ..
  rw [List.filterMap_eq_nil_iff.2 hnone, List.append_nil] at happend
  exact happend

/-- The new chunks are queued. -/
theorem Core.placed_grow (h : Core env hand w) :
    (hand.ids ++ (growWorker w workloadId wl batch opens).places).Perm
      (growWorker w workloadId wl batch opens).chunks.entries.keys := by
  let added := newEntries workloadId wl.batches.length w.chunks.nextId batch.chunks
  rw [keys_grow, ← keys_newEntries]
  refine List.Perm.trans ?_ (h.placed.append_right added.keys)
  have hqueued : (growWorker w workloadId wl batch opens).queue.pending.map Prod.fst =
      w.queue.pending.map Prod.fst ++ added.keys := by
    change (w.queue.pending ++ added.map fun e : Nat × InflightChunk => (e.1, 1)).map Prod.fst = _
    rw [List.map_append, List.map_map]
    rfl
  unfold Worker.places
  rw [hqueued, List.perm_iff_count]
  intro x
  simp only [List.count_append]
  change List.count x hand.ids + (List.count x (w.queue.pending.map Prod.fst) +
    List.count x added.keys + (List.count x w.waiting +
      (List.count x w.engineIds + List.count x w.copyIds))) = _
  omega

/-- The new chunks belong to the new batch. -/
theorem Core.owned_grow (h : Core env hand w) (hwl : w.workloads.lookup workloadId = some wl) :
    ∀ o ∈ (growWorker w workloadId wl batch opens).owners,
      (growWorker w workloadId wl batch opens).Routes o := by
  rw [owners_grow]
  intro o ho
  have hupdated := Table.lookup_update w.workloads workloadId
    (fun _ => growWorkload wl batch opens) o.workloadId
  rcases List.mem_append.1 ho with hold | hadded
  · rcases h.owned o hold with ⟨other, batch', hlookup, hbatch', hchunk⟩
    by_cases heq : o.workloadId = workloadId
    · rw [if_pos heq, hwl, Option.map_some] at hupdated
      rw [heq, hwl] at hlookup
      obtain rfl := Option.some.inj hlookup
      refine ⟨_, batch', hupdated, ?_, hchunk⟩
      exact (List.getElem?_append_left (List.getElem?_eq_some_iff.1 hbatch').1).trans hbatch'
    · rw [if_neg heq] at hupdated
      exact ⟨other, batch', hupdated.trans hlookup, hbatch', hchunk⟩
  · rcases List.mem_map.1 hadded with ⟨chunk, hchunk, rfl⟩
    rw [if_pos rfl, hwl, Option.map_some] at hupdated
    refine ⟨_, batch, hupdated, ?_, hchunk⟩
    exact List.getElem?_concat_length

/-- A batch that was not enqueued is in no workload. -/
theorem Core.live_ne (h : Core env hand w) (hnew : batch ∉ w.enqueued) {other : Batch}
    (hlive : other ∈ w.live) : other ≠ batch := by
  rintro rfl
  exact hnew (h.live_enqueued hlive)

/-- The workloads after one more batch of one of them. -/
theorem Core.workload_grow (h : Core env hand w)
    (hwl : w.workloads.lookup workloadId = some wl) (hnew : batch ∉ w.enqueued)
    (hchunked : ChunkedBatch batch) {j : Nat} {other : Inflight}
    (hj : (growWorker w workloadId wl batch opens).workloads.lookup j = some other) :
    WorkloadOk w.strategy (growWorker w workloadId wl batch opens).owners
      (growWorker w workloadId wl batch opens).answers j other := by
  rw [owners_grow]
  rcases lookup_updated (fun _ => growWorkload wl batch opens) hwl hj with ⟨rfl, rfl⟩ | ⟨hne, hold⟩
  · apply (h.workload _ wl hwl).grow hchunked opens
    · intro o ho hid
      rcases h.owned o ho with ⟨other, batch', hlookup, hbatch', -⟩
      rw [hid, hwl] at hlookup
      rw [Option.some.inj hlookup]
      exact (List.getElem?_eq_some_iff.1 hbatch').1
    · unfold about
      rw [List.filter_eq_nil_iff]
      intro answer hanswer heq
      have hold := h.known answer hanswer
      rw [of_decide_eq_true heq] at hold
      exact hnew hold
    · intro hmem
      rcases List.getElem?_of_mem hmem with ⟨i, hi⟩
      exact h.live_ne hnew (mem_live hwl hi) rfl
  · have hok := h.workload j other hold
    refine ⟨hok.files, ?_, hok.codes, hok.direct, ?_⟩
    · rw [outstanding_grow, if_neg (Ne.symm hne)]
      exact hok.remaining
    · intro i batch' hi
      refine (hok.telling i batch' hi).other (List.Perm.of_eq ?_)
        (responses_other (h.live_ne hnew (mem_live hold hi))) fun _ herror => herror
      rw [openSpans_grow, if_neg fun hboth => hne hboth.1.symm, List.append_nil]

/-- The batches after one more of them. -/
theorem Core.accounts_grow (h : Core env hand w)
    (hwl : w.workloads.lookup workloadId = some wl) (hnew : batch ∉ w.enqueued) :
    ∃ settled, ((growWorker w workloadId wl batch opens).live ++ settled).Perm
        (w.enqueued ++ [batch]) ∧
      ∀ batch' ∈ settled,
        Settled (growWorker w workloadId wl batch opens).answers batch' := by
  rcases h.accounts with ⟨settled, hperm, hsettled⟩
  have hgrown : (growWorker w workloadId wl batch opens).live.Perm (w.live ++ [batch]) := by
    have hbefore := live_remove h.ids_nodup hwl
    have hafter := (Table.perm_update h.ids_nodup hwl fun _ =>
      growWorkload wl batch opens).flatMap_right fun e : Nat × Inflight => e.2.batches
    refine hafter.trans (List.Perm.trans ?_ (hbefore.symm.append_right [batch]))
    rw [List.flatMap_cons]
    change ((wl.batches ++ [batch]) ++ _).Perm _
    rw [List.append_assoc, List.append_assoc]
    exact List.perm_append_comm.append_left _
  refine ⟨settled, ?_, ?_⟩
  · refine (hgrown.append_right settled).trans ?_
    rw [List.append_assoc]
    refine (List.perm_append_comm.append_left w.live).trans ?_
    rw [← List.append_assoc]
    exact hperm.append_right [batch]
  · intro other hmem
    refine (hsettled other hmem).append (responses_other ?_)
    rintro rfl
    exact hnew (hperm.subset (List.mem_append_right _ hmem))

/-- The new batch has no descriptor. -/
theorem Core.opened_grow (h : Core env hand w)
    (hwl : w.workloads.lookup workloadId = some wl) :
    w.opened.Perm (growWorker w workloadId wl batch opens).descriptors := by
  rcases descriptors_update (fun _ => growWorkload wl batch opens) h.ids_nodup hwl with
    ⟨rest, hall, hall'⟩
  have hsame : (growWorkload wl batch opens).descriptors = wl.descriptors := by
    unfold Inflight.descriptors growWorkload
    rw [List.flatMap_append]
    exact List.append_nil _
  rw [hsame] at hall'
  exact h.opened.trans (hall.trans hall'.symm)

/-- The reads stay reads of their files. -/
theorem Core.reads_grow (h : Core env hand w)
    (hwl : w.workloads.lookup workloadId = some wl) {read : EngineRead}
    (hread : read ∈ w.staged ++ w.kernel) :
    (growWorker w workloadId wl batch opens).Reads read := by
  rcases h.reads read hread with ⟨e, file, he, hfile, hopen, hfd⟩
  refine ⟨e, file, find_grow he, ?_, hopen, hfd⟩
  refine (fileAt_update (fun _ => growWorkload wl batch opens) hwl _ _).trans ?_
  by_cases heq : e.workloadId = workloadId
  · rw [if_pos heq]
    unfold Worker.fileAt at hfile
    rw [heq, hwl, Option.bind_some] at hfile
    exact (List.getElem?_append_left (List.getElem?_eq_some_iff.1 hfile).1).trans hfile
  · rw [if_neg heq]
    exact hfile

/-- One more batch of a workload. -/
theorem Core.addBatch (h : Core env hand w) (hfinishing : workloadId ∈ hand.finishing)
    (hwl : w.workloads.lookup workloadId = some wl) (hnew : batch ∉ w.enqueued)
    (hchunked : ChunkedBatch batch) (opens : Bool) :
    Core { env with batches := env.batches ++ [batch] } hand
      (growWorker w workloadId wl batch opens) :=
  { h with
    keys_nodup := by
      rw [keys_grow, List.nodup_append']
      refine ⟨h.keys_nodup, List.nodup_range', fun id hold hrange => ?_⟩
      have hlt := h.keys_lt id hold
      rw [List.mem_range'_1] at hrange
      omega
    keys_lt := by
      intro id hid
      rw [keys_grow, List.mem_append, List.mem_range'_1] at hid
      change id < w.chunks.nextId + batch.chunks.length
      rcases hid with hold | hrange
      · have hlt := h.keys_lt id hold
        omega
      · exact hrange.2
    placed := h.placed_grow
    ids_nodup :=
      (Table.keys_update w.workloads workloadId fun _ => growWorkload wl batch opens).symm ▸
        h.ids_nodup
    ids_lt :=
      (Table.keys_update w.workloads workloadId fun _ => growWorkload wl batch opens).symm ▸
        h.ids_lt
    owned := h.owned_grow hwl
    workload := fun _ _ hj => h.workload_grow hwl hnew hchunked hj
    unfinished := by
      intro j other hj hout
      rcases lookup_updated (fun _ => growWorkload wl batch opens) hwl hj with ⟨rfl, -⟩ | ⟨-, hold⟩
      · exact absurd hfinishing hout
      · exact h.unfinished j other hold hout
    enqueued := congrArg (· ++ [batch]) h.enqueued
    distinct := List.nodup_append'.2
      ⟨h.distinct, List.nodup_singleton batch, List.disjoint_singleton.2 hnew⟩
    chunked := by
      intro other hmem
      rcases List.mem_append.1 hmem with hold | hlast
      · exact h.chunked other hold
      · rw [List.mem_singleton.1 hlast]
        exact hchunked
    accounts := h.accounts_grow hwl hnew
    known := by
      intro answer hanswer
      rcases List.mem_append.1 hanswer with hold | hadded
      · exact List.mem_append_left _ (h.known answer hold)
      · rcases List.mem_map.1 hadded with ⟨task, -, rfl⟩
        exact List.mem_append_right _ (List.mem_singleton_self batch)
    pooled := by
      intro p hp
      rcases h.pooled p hp with ⟨hperm, hlength⟩
      refine ⟨?_, hlength⟩
      unfold Worker.heldScratch
      rw [filterMap_grow InflightChunk.scratch fun e he => (mem_newEntries he).2.1]
      exact hperm
    bouncing := by
      intro id entry hentry hbounces
      rcases find_of_grow hentry with hold | hquiet
      · exact h.bouncing id entry hold hbounces
      · rw [hquiet] at hbounces
        cases hbounces
    lent := by
      unfold Worker.heldStaging
      rw [filterMap_grow InflightChunk.staging fun e he => (mem_newEntries he).2.2]
      exact h.lent
    opened := h.opened_grow hwl
    reads := fun _ hread => h.reads_grow hwl hread }

/-- The window after one more batch. -/
theorem Window.grow (h : Window hand w.window) :
    Window hand (growWorker w workloadId wl batch opens).window :=
  { h with
    cost := by
      intro e he
      rcases List.mem_append.1 he with hold | hadded
      · exact h.cost e hold
      · rcases List.mem_map.1 hadded with ⟨x, -, rfl⟩
        rfl }

end Grow

/-! ## The loop over the batches -/

/-- The worker while a workload is enqueued, with the batches that are to come. -/
def withComing (w : Worker) (workloadId : Nat) (coming : List Batch) : Worker :=
  { w with
    enqueued := w.enqueued ++ coming
    workloads := w.workloads.update workloadId fun wl =>
      { wl with
        batches := wl.batches ++ coming
        fds := wl.fds ++ coming.map fun _ => {}
        remainingChunks := 0 } }

section Batches

variable {env : Setting} {hand : Hand} {w : Worker} {workloadId : Nat} {wl : Inflight}
  {batch : Batch}

/-- The empty tasks of a batch are answered while the workload is enqueued. -/
theorem answerZeroSized_eq (hnodup : w.workloads.keys.Nodup)
    (hwl : w.workloads.lookup workloadId = some wl) (coming : List Batch) (opens : Bool) :
    (withComing w workloadId (batch :: coming)).answerZeroSized workloadId batch opens =
      { withComing w workloadId (batch :: coming) with
        answers := w.answers ++ (emptyAnswers batch opens).map (Answer.response batch)
        workloads := w.workloads.update workloadId fun wl =>
          { afterEmpty wl batch opens with
            batches := wl.batches ++ batch :: coming
            fds := wl.fds ++ (batch :: coming).map fun _ => {}
            remainingChunks := 0 } } := by
  have htasks : (batch.tasks.filter fun task => decide (task.info.bytesize = 0)) =
      batch.tasks.filter emptyTask := rfl
  unfold Worker.answerZeroSized emptyAnswers afterEmpty
  dsimp only
  rw [htasks]
  by_cases hnone : batch.tasks.filter emptyTask = []
  · simp only [hnone, if_true, or_true, ite_self, List.map_nil, List.append_nil]
    rfl
  · cases opens with
    | true =>
        rw [if_neg hnone]
        simp only [if_true, true_or]
        rfl
    | false =>
        rw [if_neg hnone]
        simp only [Bool.false_eq_true, if_false, hnone, false_or, List.map_nil, List.append_nil]
        have hworkloads : (withComing w workloadId (batch :: coming)).workloads.update workloadId
            (fun wl => wl.emplaceError batch.fileIndex .fileAccessError) =
            w.workloads.update workloadId fun wl =>
              { wl.emplaceError batch.fileIndex .fileAccessError with
                batches := wl.batches ++ batch :: coming
                fds := wl.fds ++ (batch :: coming).map fun _ => {}
                remainingChunks := 0 } := by
          unfold withComing
          dsimp only
          rw [Table.update_update]
          apply Table.update_congr hnodup hwl
          unfold Inflight.emplaceError
          dsimp only
          split <;> rfl
        rw [hworkloads]
        rfl

/-- One batch of a workload is enqueued. -/
theorem enqueueBatch_eq (hnodup : w.workloads.keys.Nodup)
    (hwl : w.workloads.lookup workloadId = some wl) (coming : List Batch) (opens : Bool) :
    batch.chunks.foldl (Worker.queueChunk workloadId wl.batches.length)
        ((withComing w workloadId (batch :: coming)).answerZeroSized workloadId batch opens) =
      withComing (growWorker w workloadId wl batch opens) workloadId coming := by
  have hworkloads : (w.workloads.update workloadId fun wl =>
      { afterEmpty wl batch opens with
        batches := wl.batches ++ batch :: coming
        fds := wl.fds ++ (batch :: coming).map fun _ => {}
        remainingChunks := 0 }) =
      (withComing (growWorker w workloadId wl batch opens) workloadId coming).workloads := by
    unfold withComing growWorker growWorkload
    dsimp only
    rw [Table.update_update]
    apply Table.update_congr hnodup hwl
    dsimp only
    rw [List.append_assoc, List.append_assoc]
    rfl
  have henqueued : w.enqueued ++ batch :: coming = (w.enqueued ++ [batch]) ++ coming :=
    List.append_cons ..
  rw [answerZeroSized_eq hnodup hwl, foldl_queueChunk, hworkloads]
  unfold withComing growWorker
  dsimp only
  rw [henqueued]

/-- The batches of a workload are enqueued one after the other. -/
theorem enqueueBatches_eq (batches : List Batch) (opens : Nat → Bool) (h : Core env hand w)
    (hwindow : Window hand w.window) (hfinishing : workloadId ∈ hand.finishing)
    (hwl : w.workloads.lookup workloadId = some wl) (hdistinct : (w.enqueued ++ batches).Nodup)
    (hchunked : ∀ batch ∈ batches, ChunkedBatch batch) :
    ∃ w' wl', Worker.enqueueBatches workloadId opens wl.batches.length batches
        (withComing w workloadId batches) = withComing w' workloadId [] ∧
      Core { env with batches := env.batches ++ batches } hand w' ∧ Window hand w'.window ∧
      w'.workloads.lookup workloadId = some wl' ∧
      wl'.remainingChunks =
        wl.remainingChunks + (batches.map fun batch => batch.chunks.length).sum := by
  induction batches generalizing env w wl with
  | nil =>
      refine ⟨w, wl, rfl, ?_, hwindow, hwl, rfl⟩
      rw [List.append_nil]
      exact h
  | cons batch batches ih =>
      have hnew : batch ∉ w.enqueued := fun hmem =>
        (List.nodup_append'.1 hdistinct).2.2 hmem List.mem_cons_self
      have hnext := h.addBatch hfinishing hwl hnew (hchunked batch List.mem_cons_self)
        (opens wl.batches.length)
      have hgrown : (growWorker w workloadId wl batch (opens wl.batches.length)).workloads.lookup
          workloadId = some (growWorkload wl batch (opens wl.batches.length)) := by
        have hupdated := Table.lookup_update w.workloads workloadId
          (fun _ => growWorkload wl batch (opens wl.batches.length)) workloadId
        rwa [if_pos rfl, hwl, Option.map_some] at hupdated
      have hrest : ((w.enqueued ++ [batch]) ++ batches).Nodup := by
        rw [List.append_assoc]
        exact hdistinct
      rcases ih hnext hwindow.grow hgrown hrest fun b hb => hchunked b (List.mem_cons_of_mem _ hb) with
        ⟨w', wl', heq, hcore, hwindow', hlookup, hremaining⟩
      refine ⟨w', wl', ?_, ?_, hwindow', hlookup, ?_⟩
      · unfold Worker.enqueueBatches
        dsimp only
        rw [enqueueBatch_eq h.ids_nodup hwl]
        have hlength : (growWorkload wl batch (opens wl.batches.length)).batches.length =
            wl.batches.length + 1 := List.length_append ..
        rw [hlength] at heq
        exact heq
      · rw [List.append_cons]
        exact hcore
      · rw [hremaining, List.map_cons, List.sum_cons]
        change wl.remainingChunks + batch.chunks.length + _ = _
        omega

/-! ## A new workload -/

/-- A workload without batches is taken on. -/
theorem Core.newWorkload (h : Core env hand w) :
    Core env { hand with finishing := w.nextWorkloadId :: hand.finishing }
      { w with
        nextWorkloadId := w.nextWorkloadId + 1
        workloads := w.workloads ++ [(w.nextWorkloadId, { batches := [], fds := [] })] } := by
  have hfresh : w.nextWorkloadId ∉ w.workloads.keys := fun hmem =>
    Nat.lt_irrefl _ (h.ids_lt _ hmem)
  have hlookup : ∀ j, Table.lookup (w.workloads ++ [(w.nextWorkloadId, { batches := [], fds := [] })]) j =
      if j = w.nextWorkloadId then some { batches := [], fds := [] } else w.workloads.lookup j :=
    Table.lookup_concat hfresh _
  have hold : ∀ j wl, w.workloads.lookup j = some wl → j ≠ w.nextWorkloadId := by
    rintro j wl hj rfl
    exact hfresh (Table.mem_keys_iff.2 ⟨wl, hj⟩)
  exact
    { h with
      ids_nodup := Table.nodup_keys_concat h.ids_nodup hfresh _
      ids_lt := by
        intro j hj
        rcases Table.mem_keys_iff.1 hj with ⟨wl, hwl⟩
        rw [hlookup] at hwl
        split at hwl
        case isTrue heq => exact heq ▸ Nat.lt_succ_self _
        case isFalse =>
          exact Nat.lt_succ_of_lt (h.ids_lt j (Table.mem_keys_iff.2 ⟨wl, hwl⟩))
      owned := by
        intro o ho
        rcases h.owned o ho with ⟨wl, batch, hwl, hrest⟩
        refine ⟨wl, batch, ?_, hrest⟩
        refine (hlookup _).trans ?_
        rw [if_neg (hold _ _ hwl)]
        exact hwl
      workload := by
        intro j wl hj
        have hj' := (hlookup j).symm.trans hj
        split at hj'
        case isFalse => exact h.workload j wl hj'
        case isTrue hsame =>
          obtain rfl := Option.some.inj hj'
          have hnone : outstanding w.owners j = 0 := by
            unfold outstanding
            rw [List.countP_eq_zero]
            intro o ho heq
            rcases h.owned o ho with ⟨other, -, hother, -⟩
            exact hold _ _ hother ((of_decide_eq_true heq).trans hsame)
          refine ⟨rfl, hnone.symm, ?_, ?_, ?_⟩
          · intro e he
            cases he
          · intro file hfile
            cases hfile
          · intro i batch hi
            cases hi
      unfinished := by
        intro j wl hj hout
        have hne : j ≠ w.nextWorkloadId := fun heq => hout (heq ▸ List.mem_cons_self)
        have hj' := (hlookup j).symm.trans hj
        rw [if_neg hne] at hj'
        exact h.unfinished j wl hj' fun hmem => hout (List.mem_cons_of_mem _ hmem)
      accounts := by
        rcases h.accounts with ⟨settled, hperm, hsettled⟩
        refine ⟨settled, ?_, hsettled⟩
        have hlive : ((w.workloads ++
            [(w.nextWorkloadId, ({ batches := [], fds := [] } : Inflight))]).flatMap
              fun e => e.2.batches) = w.live := by
          rw [List.flatMap_append]
          exact List.append_nil _
        unfold Worker.live
        rw [hlive]
        exact hperm
      opened := by
        have hdescriptors : (w.workloads ++
            [(w.nextWorkloadId, ({ batches := [], fds := [] } : Inflight))]).flatMap
              (fun e => e.2.descriptors) = w.descriptors := by
          rw [List.flatMap_append]
          exact List.append_nil _
        unfold Worker.descriptors
        rw [hdescriptors]
        exact h.opened
      reads := by
        intro read hread
        rcases h.reads read hread with ⟨e, file, he, hfile, hopen, hfd⟩
        refine ⟨e, file, he, ?_, hopen, hfd⟩
        rcases Option.bind_eq_some_iff.1 hfile with ⟨wl, hwl, hget⟩
        have hsame := hlookup e.workloadId
        rw [if_neg (hold _ _ hwl)] at hsame
        unfold Worker.fileAt
        exact (congrArg (fun found => found.bind fun wl => wl.fds[e.batchIndex]?) hsame).trans
          hfile }

/-- Adopting a measured block changes nothing else. -/
theorem adoptBlock_eq (w : Worker) (directBlock : Nat) :
    ∃ block blockMeasured, w.adoptBlock directBlock = { w with block, blockMeasured } := by
  unfold Worker.adoptBlock
  split
  case isTrue =>
    split
    case isTrue => exact ⟨w.block, w.blockMeasured, rfl⟩
    case isFalse => exact ⟨directBlock, true, rfl⟩
  case isFalse => exact ⟨w.block, w.blockMeasured, rfl⟩

/-- A workload is enqueued. -/
theorem Busy.enqueue {batches : List Batch} {directBlock : Nat} {opens : Nat → Bool}
    (h : Busy env {} w) (hdistinct : (w.enqueued ++ batches).Nodup)
    (hchunked : ∀ batch ∈ batches, ChunkedBatch batch) :
    Ends (Busy { env with batches := env.batches ++ batches } {}) (fun _ => False)
      (w.enqueue batches directBlock opens) := by
  rcases adoptBlock_eq { w with enqueued := w.enqueued ++ batches } directBlock with
    ⟨block, blockMeasured, hadopted⟩
  have hfresh : w.nextWorkloadId ∉ w.workloads.keys := fun hmem =>
    Nat.lt_irrefl _ (h.core.ids_lt _ hmem)
  have hnone : (w.workloads.lookup w.nextWorkloadId).isSome = false := by
    rw [Table.lookup_eq_none_iff.2 hfresh]
    rfl
  let v : Worker :=
    { w with
      block
      blockMeasured
      nextWorkloadId := w.nextWorkloadId + 1
      workloads := w.workloads ++ [(w.nextWorkloadId, { batches := [], fds := [] })] }
  have hv : Core env { finishing := [w.nextWorkloadId] } v := { h.core.newWorkload with }
  have hlookup : v.workloads.lookup w.nextWorkloadId = some { batches := [], fds := [] } := by
    have hconcat := Table.lookup_concat hfresh ({ batches := [], fds := [] } : Inflight)
      w.nextWorkloadId
    rwa [if_pos rfl] at hconcat
  have hwindow : Window { finishing := [w.nextWorkloadId] } v.window := { h.window with }
  have hcoming : withComing v w.nextWorkloadId batches =
      { w with
        block
        blockMeasured
        enqueued := w.enqueued ++ batches
        nextWorkloadId := w.nextWorkloadId + 1
        workloads := w.workloads ++
          [(w.nextWorkloadId, { batches, fds := batches.map fun _ => {} })] } := by
    unfold withComing
    rw [Table.update_concat hfresh]
    rfl
  rcases enqueueBatches_eq batches opens hv hwindow List.mem_cons_self hlookup hdistinct hchunked with
    ⟨w', wl', heq, hcore, hwindow', hlookup', hremaining⟩
  rw [hcoming] at heq
  change Worker.enqueueBatches w.nextWorkloadId opens 0 batches _ = _ at heq
  have hsum : wl'.remainingChunks = (batches.map fun batch => batch.chunks.length).sum := by
    rw [hremaining]
    exact Nat.zero_add _
  have hlast : { withComing w' w.nextWorkloadId [] with
      workloads := (withComing w' w.nextWorkloadId []).workloads.update w.nextWorkloadId fun wl =>
        { wl with remainingChunks := (batches.map fun batch => batch.chunks.length).sum } } = w' := by
    have hworkloads : (withComing w' w.nextWorkloadId []).workloads.update w.nextWorkloadId
        (fun wl =>
          { wl with remainingChunks := (batches.map fun batch => batch.chunks.length).sum }) =
        w'.workloads := by
      unfold withComing
      dsimp only
      rw [Table.update_update]
      conv_rhs => rw [← Table.update_id w'.workloads w.nextWorkloadId]
      apply Table.update_congr hcore.ids_nodup hlookup'
      dsimp only
      rw [List.append_nil, List.map_nil, List.append_nil, ← hsum]
    rw [hworkloads]
    unfold withComing
    rw [List.append_nil]
  unfold Worker.enqueue
  have halive : ¬w.engineDead = true := ne_true_of_eq_false h.window.alive
  dsimp only at hadopted ⊢
  rw [if_neg halive, hadopted]
  dsimp only
  rw [hnone, if_neg Bool.false_ne_true, heq, hlast]
  split
  case isTrue hzero =>
    refine ⟨Core.finalize hcore hlookup' (hsum.trans hzero), ?_⟩
    rw [finalize_window]
    exact { hwindow' with }
  case isFalse hsome =>
    have hopen : 0 < wl'.remainingChunks := by
      rw [hsum]
      exact Nat.pos_of_ne_zero hsome
    exact ⟨Core.resume hcore hlookup' hopen, { hwindow' with }⟩

end Batches

end AsyncIo
end ModelStreamer
