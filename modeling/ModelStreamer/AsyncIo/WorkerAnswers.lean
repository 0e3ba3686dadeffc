import ModelStreamer.AsyncIo.WorkerMoves

/-!
# Answering a chunk

A chunk is accounted: its entry is taken out, its tasks are answered or its file has failed, and a
workload without chunks is reported.

Main results:

- Theorem {lit}`Core.account`: a chunk is accounted.
- Theorem {lit}`Core.finalize`: a workload is reported when none of its chunks are left.
-/

namespace ModelStreamer
namespace AsyncIo

open Common Lib Streamer PosixIo
open ObjectStorage (Answer CapacityQueue)

/-! ## What a batch was told -/

section About

variable {answers extra : List Answer} {batch other : Batch}

theorem about_append (answers extra : List Answer) (batch : Batch) :
    about (answers ++ extra) batch = about answers batch ++ about extra batch :=
  List.filter_append ..

/-- The responses of a batch. -/
theorem about_responses (tasks : List Task) (batch : Batch) :
    about (tasks.map (Answer.response batch)) batch = tasks.map (Answer.response batch) := by
  unfold about
  rw [List.filter_eq_self]
  intro answer hanswer
  rcases List.mem_map.1 hanswer with ⟨task, -, rfl⟩
  exact decide_eq_true rfl

/-- Answers about other batches. -/
theorem about_other (h : ∀ answer ∈ extra, answeredBatch answer ≠ batch) :
    about (answers ++ extra) batch = about answers batch := by
  have hnone : about extra batch = [] := by
    unfold about
    rw [List.filter_eq_nil_iff]
    intro answer hanswer
    rw [decide_eq_true_eq]
    exact h answer hanswer
  rw [about_append, hnone, List.append_nil]

theorem Settled.append (h : Settled answers batch)
    (hother : ∀ answer ∈ extra, answeredBatch answer ≠ batch) : Settled (answers ++ extra) batch := by
  unfold Settled
  rw [about_other hother]
  exact h

/-- A workload reports every batch of it once. -/
theorem about_report {wl : Inflight} (code : ResponseCode) (hnodup : wl.batches.Nodup)
    (hbatch : batch ∈ wl.batches) :
    about (wl.report code) batch =
      [.error batch
        (if code = .success then (wl.errorByFileIndex.lookup batch.fileIndex).getD .success
          else code)] := by
  unfold Inflight.report about
  rw [List.filter_map]
  have hone : wl.batches.filter ((fun answer => decide (answeredBatch answer = batch)) ∘
      fun batch => Answer.error batch
        (if code = .success then (wl.errorByFileIndex.lookup batch.fileIndex).getD .success
          else code)) = [batch] := by
    change wl.batches.filter (fun other => decide (other = batch)) = [batch]
    rw [List.filter_eq, List.count_eq_one_of_mem hnodup hbatch, List.replicate_one]
  rw [hone]
  rfl

/-- A workload reports its own batches. -/
theorem answeredBatch_report {wl : Inflight} {code : ResponseCode} {answer : Answer}
    (h : answer ∈ wl.report code) : answeredBatch answer ∈ wl.batches := by
  rcases List.mem_map.1 h with ⟨batch, hbatch, rfl⟩
  exact hbatch

end About

/-! ## Open spans -/

section Spans

variable {owners owners' : List Owner} {o : Owner} {workloadId batchIndex : Nat}

theorem openSpans_perm (h : owners.Perm owners') :
    (openSpans owners workloadId batchIndex).Perm (openSpans owners' workloadId batchIndex) :=
  (h.filter _).map _

/-- The span of a chunk of this batch. -/
theorem openSpans_cons :
    openSpans (o :: owners) o.workloadId o.batchIndex =
      chunkSpan o.chunk :: openSpans owners o.workloadId o.batchIndex := by
  unfold openSpans
  rw [List.filter_cons_of_pos (by simp), List.map_cons]

/-- The span of a chunk of another batch. -/
theorem openSpans_cons_other (h : ¬ (o.workloadId = workloadId ∧ o.batchIndex = batchIndex)) :
    openSpans (o :: owners) workloadId batchIndex = openSpans owners workloadId batchIndex := by
  unfold openSpans
  rw [List.filter_cons_of_neg (by simpa using h)]

theorem outstanding_perm (h : owners.Perm owners') :
    outstanding owners workloadId = outstanding owners' workloadId :=
  h.countP_eq _

theorem outstanding_cons :
    outstanding (o :: owners) o.workloadId = outstanding owners o.workloadId + 1 := by
  unfold outstanding
  rw [List.countP_cons_of_pos (by simp)]

theorem outstanding_cons_other (h : o.workloadId ≠ workloadId) :
    outstanding (o :: owners) workloadId = outstanding owners workloadId := by
  unfold outstanding
  rw [List.countP_cons_of_neg (by simpa using h)]

/-- A workload without chunks has no open spans. -/
theorem openSpans_of_outstanding (h : outstanding owners workloadId = 0) :
    openSpans owners workloadId batchIndex = [] := by
  unfold outstanding at h
  rw [List.countP_eq_zero] at h
  unfold openSpans
  rw [List.map_eq_nil_iff, List.filter_eq_nil_iff]
  intro o ho hboth
  exact h o ho (decide_eq_true (of_decide_eq_true hboth).1)

end Spans

/-! ## The first error of a file -/

section Errors

variable {wl : Inflight} {fileIndex : Nat} {code : ResponseCode}

/-- The errors after one more. -/
theorem lookup_emplaceError (j : Nat) :
    (wl.emplaceError fileIndex code).errorByFileIndex.lookup j =
      if j = fileIndex ∧ (wl.errorByFileIndex.lookup fileIndex).isSome = false then some code
      else wl.errorByFileIndex.lookup j := by
  unfold Inflight.emplaceError
  cases hfirst : wl.errorByFileIndex.lookup fileIndex with
  | some first => simp
  | none =>
      have hnew := Table.lookup_concat (Table.lookup_eq_none_iff.1 hfirst) code j
      simpa using hnew

/-- The errors that a workload has recorded stay. -/
theorem emplaceError_mono {j : Nat} (h : (wl.errorByFileIndex.lookup j).isSome = true) :
    ((wl.emplaceError fileIndex code).errorByFileIndex.lookup j).isSome = true := by
  rw [lookup_emplaceError]
  split
  · rfl
  · exact h

/-- The file has an error. -/
theorem emplaceError_self :
    ((wl.emplaceError fileIndex code).errorByFileIndex.lookup fileIndex).isSome = true := by
  rw [lookup_emplaceError]
  split
  · rfl
  · rename_i hold
    cases hsome : (wl.errorByFileIndex.lookup fileIndex).isSome with
    | true => rfl
    | false => exact absurd ⟨rfl, hsome⟩ hold

/-- The errors are those that were recorded. -/
theorem mem_emplaceError {e : Nat × ResponseCode}
    (h : e ∈ (wl.emplaceError fileIndex code).errorByFileIndex) :
    e ∈ wl.errorByFileIndex ∨ e.2 = code := by
  unfold Inflight.emplaceError at h
  split at h
  · exact Or.inl h
  · rcases List.mem_append.1 h with hold | hnew
    · exact Or.inl hold
    · rw [List.mem_singleton.1 hnew]
      exact Or.inr rfl

end Errors

section Answer

variable {env : Setting} {hand hand' : Hand} {w w' : Worker} {id workloadId batchIndex : Nat}
  {entry entry' : InflightChunk} {wl wl' : Inflight} {batch : Batch}

/-! ## Accounting -/

/-- The owners of a worker, with one chunk apart. -/
theorem owners_release (hnodup : w.chunks.entries.keys.Nodup)
    (hfind : w.chunks.find id = some entry) :
    w.owners.Perm (entry.owner :: (w.chunks.release id).entries.map fun e => e.2.owner) := by
  have hperm := Table.perm_remove hnodup hfind
  exact hperm.map fun e : Nat × InflightChunk => e.2.owner

/-- How a workload changes with the answers for one chunk of a batch. -/
structure Closes (wl wl' : Inflight) (batch : Batch) (chunk : Chunk) (tasks : List Task) :
    Prop where
  batches : wl'.batches = wl.batches
  fds : wl'.fds = wl.fds
  remaining : wl'.remainingChunks = wl.remainingChunks - 1
  codes : (∀ e ∈ wl.errorByFileIndex, e.2 ≠ .success) →
    ∀ e ∈ wl'.errorByFileIndex, e.2 ≠ .success
  errors : ∀ j, (wl.errorByFileIndex.lookup j).isSome = true →
    (wl'.errorByFileIndex.lookup j).isSome = true
  tally : ∀ spans told,
    Tally batch.tasks emptyTask (chunkSpan chunk :: spans)
      (fun _ => (wl.errorByFileIndex.lookup batch.fileIndex).isSome = true) told →
    Tally batch.tasks emptyTask spans
      (fun _ => (wl'.errorByFileIndex.lookup batch.fileIndex).isSome = true) (told ++ tasks)

/-- The tasks of a chunk that was read are answered. -/
theorem closes_success (wl : Inflight) (batch : Batch) (chunk : Chunk) :
    Closes wl { wl with remainingChunks := wl.remainingChunks - 1 } batch chunk
      (Batch.spanTasks batch chunk) :=
  { batches := rfl
    fds := rfl
    remaining := rfl
    codes := fun h => h
    errors := fun _ h => h
    tally := fun _ _ h => h.answer }

/-- The file of a chunk that was not read has failed. -/
theorem closes_failure (wl : Inflight) (batch : Batch) (chunk : Chunk) {code : ResponseCode}
    (hcode : code ≠ .success) :
    Closes wl
      { (if Batch.spanTasks batch chunk = [] then wl else wl.emplaceError batch.fileIndex code) with
        remainingChunks := wl.remainingChunks - 1 } batch chunk [] := by
  by_cases hnone : Batch.spanTasks batch chunk = []
  · rw [if_pos hnone]
    refine ⟨rfl, rfl, rfl, fun h => h, fun _ h => h, fun spans told h => ?_⟩
    have hanswer := h.answer
    rw [List.append_nil]
    have hempty : ((chunkSpan chunk).slice batch.tasks).filter (fun x => !emptyTask x) = [] := hnone
    rwa [hempty, List.append_nil] at hanswer
  · rw [if_neg hnone]
    refine ⟨?_, ?_, rfl, ?_, ?_, ?_⟩
    · unfold Inflight.emplaceError
      split <;> rfl
    · unfold Inflight.emplaceError
      split <;> rfl
    · intro h e he
      rcases mem_emplaceError he with hold | hnew
      · exact h e hold
      · rw [hnew]
        exact hcode
    · exact fun j => emplaceError_mono
    · intro spans told h
      rw [List.append_nil]
      exact h.fail (fun _ => emplaceError_mono) fun _ _ _ => emplaceError_self

/-- What a batch is told does not matter to the others. -/
theorem Telling.other {owners owners' : List Owner} {answers extra : List Answer}
    (h : Telling owners answers workloadId batchIndex wl batch)
    (hspans : (openSpans owners workloadId batchIndex).Perm (openSpans owners' workloadId batchIndex))
    (hother : ∀ answer ∈ extra, answeredBatch answer ≠ batch)
    (herrors : ∀ j, (wl.errorByFileIndex.lookup j).isSome = true →
      (wl'.errorByFileIndex.lookup j).isSome = true) :
    Telling owners' (answers ++ extra) workloadId batchIndex wl' batch := by
  rcases h with ⟨told, habout, htally⟩
  refine ⟨told, (about_other hother).trans habout, ?_⟩
  exact (htally.reorder hspans).weaken fun _ => herrors batch.fileIndex

/-- What a batch is told is told to no other one. -/
theorem responses_other {tasks : List Task} {other : Batch} (hne : other ≠ batch) :
    ∀ answer ∈ tasks.map (Answer.response batch), answeredBatch answer ≠ other := by
  intro answer hanswer
  rcases List.mem_map.1 hanswer with ⟨task, -, rfl⟩
  exact Ne.symm hne

/-- A chunk that is left when another one is accounted. -/
theorem find_of_release {j : Nat} {e : InflightChunk}
    (hfind : (w.chunks.release id).find j = some e) : w.chunks.find j = some e := by
  have hlookup := Table.lookup_remove w.chunks.entries id j
  by_cases heq : j = id
  · rw [if_pos heq] at hlookup
    rw [InflightChunks.find, InflightChunks.release, hlookup] at hfind
    cases hfind
  · rw [if_neg heq] at hlookup
    exact hlookup.symm.trans hfind

/-- The places when a chunk in the hands of a call is accounted. -/
theorem Core.placed_account (h : Core env hand w) (hhand : hand.ids.Perm (id :: hand'.ids))
    (hfind : w.chunks.find id = some entry) :
    (hand'.ids ++ w.places).Perm (w.chunks.release id).entries.keys := by
  have hkeys : w.chunks.entries.keys.Perm (id :: (w.chunks.release id).entries.keys) :=
    (Table.perm_remove h.keys_nodup hfind).map Prod.fst
  exact ((hhand.append_right w.places).symm.trans (h.placed.trans hkeys)).cons_inv

/-- The workload of a chunk that is accounted. -/
theorem Core.workload_account {tasks : List Task} (h : Core env hand w)
    (hfind : w.chunks.find id = some entry)
    (hwl : w.workloads.lookup entry.workloadId = some wl)
    (hbatch : wl.batches[entry.batchIndex]? = some batch)
    (hcloses : Closes wl wl' batch entry.chunk tasks) :
    WorkloadOk w.strategy ((w.chunks.release id).entries.map fun e => e.2.owner)
      (w.answers ++ tasks.map (Answer.response batch)) entry.workloadId wl' := by
  have howners := owners_release h.keys_nodup hfind
  have hok := h.workload _ wl hwl
  refine ⟨?_, ?_, hcloses.codes hok.codes, ?_, ?_⟩
  · rw [hcloses.fds, hcloses.batches]
    exact hok.files
  · rw [hcloses.remaining, hok.remaining, outstanding_perm howners]
    exact Nat.sub_eq_of_eq_add outstanding_cons
  · rw [hcloses.fds]
    exact hok.direct
  · intro i other hi
    rw [hcloses.batches] at hi
    have htelling := hok.telling i other hi
    have hspans : (openSpans w.owners entry.workloadId i).Perm
        (openSpans (entry.owner :: (w.chunks.release id).entries.map fun e => e.2.owner)
          entry.workloadId i) :=
      openSpans_perm howners
    by_cases heq : i = entry.batchIndex
    · subst heq
      rw [hbatch] at hi
      obtain rfl := Option.some.inj hi
      rcases htelling with ⟨told, habout, htally⟩
      refine ⟨told ++ tasks, ?_, hcloses.tally _ told (htally.reorder ?_)⟩
      · rw [about_append, habout, about_responses, List.map_append]
      · exact hspans.trans (List.Perm.of_eq openSpans_cons)
    · have hdiffer : other ≠ batch := by
        rintro rfl
        exact heq (h.live_unique hwl hi hwl hbatch).2
      refine htelling.other ?_ (responses_other hdiffer) hcloses.errors
      exact hspans.trans
        (List.Perm.of_eq (openSpans_cons_other fun hboth => heq hboth.2.symm))

/-- Another workload than that of a chunk that is accounted. -/
theorem Core.workload_account_other {tasks : List Task} (h : Core env hand w)
    (hfind : w.chunks.find id = some entry)
    (hwl : w.workloads.lookup entry.workloadId = some wl)
    (hbatch : wl.batches[entry.batchIndex]? = some batch) {j : Nat} {other : Inflight}
    (hother : w.workloads.lookup j = some other) (hne : j ≠ entry.workloadId) :
    WorkloadOk w.strategy ((w.chunks.release id).entries.map fun e => e.2.owner)
      (w.answers ++ tasks.map (Answer.response batch)) j other := by
  have howners := owners_release h.keys_nodup hfind
  have hok := h.workload j other hother
  refine ⟨hok.files, ?_, hok.codes, hok.direct, ?_⟩
  · rw [hok.remaining, outstanding_perm howners]
    exact outstanding_cons_other (Ne.symm hne)
  · intro i batch' hi
    have hdiffer : batch' ≠ batch := by
      rintro rfl
      exact hne (h.live_unique hother hi hwl hbatch).1
    refine (hok.telling i batch' hi).other ?_ (responses_other hdiffer) fun _ herror => herror
    exact (openSpans_perm howners).trans
      (List.Perm.of_eq (openSpans_cons_other fun hboth => hne hboth.1.symm))

/-- The batches when a chunk is accounted. -/
theorem Core.accounts_account {tasks : List Task} (h : Core env hand w)
    (hwl : w.workloads.lookup entry.workloadId = some wl)
    (hbatch : wl.batches[entry.batchIndex]? = some batch) (hbatches : wl'.batches = wl.batches) :
    ∃ settled,
      (((w.workloads.update entry.workloadId fun _ => wl').flatMap fun e => e.2.batches) ++
        settled).Perm w.enqueued ∧
      ∀ batch' ∈ settled, Settled (w.answers ++ tasks.map (Answer.response batch)) batch' := by
  rcases h.accounts with ⟨settled, hperm, hsettled⟩
  have hdistinct := (List.nodup_append'.1 (hperm.symm.nodup h.distinct)).2.2
  have hlive := live_update (fun _ => wl') h.ids_nodup hwl hbatches
  refine ⟨settled, ?_, ?_⟩
  · rw [← hlive] at hperm
    exact hperm
  · intro other hmem
    have hdiffer : other ≠ batch := by
      rintro rfl
      exact hdistinct (mem_live hwl hbatch) hmem
    exact (hsettled other hmem).append (responses_other hdiffer)

/-- The staging buffers when a chunk is accounted. -/
theorem Core.lent_account (h : Core env hand w) (hfind : w.chunks.find id = some entry) :
    (w.giveBack entry.staging).lent.Perm
      (((w.chunks.release id).entries.filterMap fun e => e.2.staging) ++
        w.copying.map IssuedCopy.staging) := by
  rcases held_set h.keys_nodup hfind entry InflightChunk.staging with ⟨hheld, -⟩
  have hlent := h.lent.trans (hheld.append_right _)
  unfold Worker.giveBack
  cases hstaging : entry.staging with
  | none =>
      rw [hstaging] at hlent
      exact (List.Perm.of_eq (filter_lent_none w.lent)).trans hlent
  | some buffer =>
      rw [hstaging] at hlent
      exact filter_lent h.lent_nodup hlent

/-- The buffers that went back when a chunk is accounted. -/
theorem Core.returned_account (h : Core env hand w) (hfind : w.chunks.find id = some entry) :
    (w.giveBack entry.staging).borrowed.Perm
      ((w.giveBack entry.staging).returned ++ (w.giveBack entry.staging).lent) := by
  rcases held_set h.keys_nodup hfind entry InflightChunk.staging with ⟨hheld, -⟩
  have hlent := h.lent.trans (hheld.append_right _)
  unfold Worker.giveBack
  cases hstaging : entry.staging with
  | none =>
      dsimp only
      rw [filter_lent_none, Option.toList_none, List.append_nil]
      exact h.returned
  | some buffer =>
      rw [hstaging] at hlent
      exact returned_filter h.lent_nodup hlent h.returned

/-- A chunk is accounted. -/
theorem Core.account {tasks : List Task} (h : Core env hand w)
    (hhand : hand.ids.Perm (id :: hand'.ids)) (hreaped : hand'.reaped = hand.reaped)
    (hfinishing : hand'.finishing = entry.workloadId :: hand.finishing)
    (hfind : w.chunks.find id = some entry) (hquiet : entry.bounces = false)
    (hwl : w.workloads.lookup entry.workloadId = some wl)
    (hbatch : wl.batches[entry.batchIndex]? = some batch)
    (hcloses : Closes wl wl' batch entry.chunk tasks) :
    Core env hand'
      { w.giveBack entry.staging with
        chunks := w.chunks.release id
        answers := w.answers ++ tasks.map (Answer.response batch)
        workloads := w.workloads.update entry.workloadId fun _ => wl' } :=
  have hkeys : w.chunks.entries.keys.Perm (id :: (w.chunks.release id).entries.keys) :=
    (Table.perm_remove h.keys_nodup hfind).map Prod.fst
  have hplaced := h.placed_account hhand hfind
  { h with
    keys_nodup := Table.nodup_keys_remove h.keys_nodup id
    keys_lt := fun j hj => h.keys_lt j (hkeys.symm.subset (List.mem_cons_of_mem _ hj))
    placed := hplaced
    issued := by
      rw [hreaped]
      exact h.issued
    ids_nodup := (Table.keys_update w.workloads entry.workloadId fun _ => wl').symm ▸ h.ids_nodup
    ids_lt := (Table.keys_update w.workloads entry.workloadId fun _ => wl').symm ▸ h.ids_lt
    owned := by
      intro o ho
      have howners := owners_release h.keys_nodup hfind
      have hmem : o ∈ w.owners := howners.symm.subset (List.mem_cons_of_mem _ ho)
      exact (h.owned o hmem).update (fun _ => wl') hwl hcloses.batches
    workload := by
      intro j other hj
      rcases lookup_updated (fun _ => wl') hwl hj with ⟨rfl, rfl⟩ | ⟨hne, hold⟩
      · exact h.workload_account hfind hwl hbatch hcloses
      · exact h.workload_account_other hfind hwl hbatch hold hne
    unfinished := by
      intro j other hj hout
      rw [hfinishing, List.mem_cons, not_or] at hout
      rcases lookup_updated (fun _ => wl') hwl hj with ⟨rfl, rfl⟩ | ⟨-, hj⟩
      · exact absurd rfl hout.1
      · exact h.unfinished j other hj hout.2
    accounts := h.accounts_account hwl hbatch hcloses.batches
    known := by
      intro answer hanswer
      rcases List.mem_append.1 hanswer with hold | hnew
      · exact h.known answer hold
      · rcases List.mem_map.1 hnew with ⟨task, -, rfl⟩
        exact h.live_enqueued (mem_live hwl hbatch)
    pooled := by
      intro p hp
      rcases h.pooled p hp with ⟨hperm, hlength⟩
      rcases held_set h.keys_nodup hfind entry InflightChunk.scratch with ⟨hheld, -⟩
      rw [scratch_of_quiet hquiet] at hheld
      exact ⟨(hheld.symm.append_left _).trans hperm, hlength⟩
    bouncing := by
      intro j e hj hbounces
      rw [hreaped]
      exact h.bouncing j e (find_of_release hj) hbounces
    lent_nodup := h.lent_nodup.filter _
    lent := h.lent_account hfind
    returned := h.returned_account hfind
    opened := by
      rcases descriptors_update (fun _ => wl') h.ids_nodup hwl with ⟨rest, hall, hall'⟩
      have hsame : wl'.descriptors = wl.descriptors := by
        unfold Inflight.descriptors
        rw [hcloses.fds]
      rw [hsame] at hall'
      exact h.opened.trans (hall.trans hall'.symm)
    reads := by
      intro read hread
      rcases h.reads read hread with ⟨e, file, he, hfile, hopen, hfd⟩
      have hmem : read.id ∈ (w.chunks.release id).entries.keys := by
        apply hplaced.subset
        exact List.mem_append_right _ (engine_places hread)
      rcases Table.mem_keys_iff.1 hmem with ⟨e', he'⟩
      obtain rfl := Option.some.inj ((find_of_release he').symm.trans he)
      have hat := fileAt_update (fun _ => wl') hwl e'.workloadId e'.batchIndex
      refine ⟨e', file, he', hat.trans ?_, hopen, hfd⟩
      by_cases hids : e'.workloadId = entry.workloadId
      · rw [if_pos hids, hcloses.fds, ← hfile]
        unfold Worker.fileAt
        rw [hids, hwl, Option.bind_some]
      · rw [if_neg hids]
        exact hfile }

/-! ## Reporting -/

/-- A workload with chunks is not reported. -/
theorem Core.resume (h : Core env { hand with finishing := workloadId :: hand.finishing } w)
    (hwl : w.workloads.lookup workloadId = some wl) (hopen : 0 < wl.remainingChunks) :
    Core env hand w :=
  { h with
    unfinished := by
      intro j other hj hout
      by_cases heq : j = workloadId
      · rw [heq, hwl] at hj
        rw [← Option.some.inj hj]
        exact hopen
      · exact h.unfinished j other hj fun hmem => (List.mem_cons.1 hmem).elim heq hout }

/-- No chunk of a workload is left. -/
theorem owner_ne (hzero : outstanding w.owners workloadId = 0)
    (hfind : w.chunks.find id = some entry) : entry.workloadId ≠ workloadId := by
  intro heq
  unfold outstanding at hzero
  exact List.countP_eq_zero.1 hzero _ (owner_mem hfind) (decide_eq_true heq)

/-- A workload whose chunks are all accounted has no read and no copy. -/
theorem writes_eq_false (hzero : outstanding w.owners workloadId = 0) :
    w.writes workloadId = false := by
  unfold Worker.writes
  rw [List.any_eq_false]
  intro id _ hany
  cases hfind : w.chunks.find id with
  | none =>
      rw [hfind] at hany
      cases hany
  | some entry =>
      rw [hfind, Option.any_some, decide_eq_true_eq] at hany
      exact owner_ne hzero hfind hany

/-- The descriptors that are left when those of a workload are closed. -/
theorem opened_close {opened rest : List Int} (hnodup : opened.Nodup)
    (hperm : opened.Perm (wl.descriptors ++ rest)) (hrest : ∀ fd ∈ rest, 0 ≤ fd) :
    (opened.filter fun fd => fd ∉ wl.fds.map BatchFd.fd).Perm rest := by
  have hdisjoint := (List.nodup_append'.1 (hperm.nodup hnodup)).2.2
  have hgone : wl.descriptors.filter (fun fd => fd ∉ wl.fds.map BatchFd.fd) = [] := by
    rw [List.filter_eq_nil_iff]
    intro fd hfd
    rw [decide_eq_true_eq, not_not]
    rcases List.mem_flatMap.1 hfd with ⟨file, hfile, hmem⟩
    unfold BatchFd.descriptor at hmem
    split at hmem
    · rw [List.mem_singleton.1 hmem]
      exact List.mem_map_of_mem hfile
    · cases hmem
  have hstay : rest.filter (fun fd => fd ∉ wl.fds.map BatchFd.fd) = rest := by
    rw [List.filter_eq_self]
    intro fd hfd
    rw [decide_eq_true_eq]
    intro hmem
    rcases List.mem_map.1 hmem with ⟨file, hfile, rfl⟩
    refine hdisjoint (List.mem_flatMap.2 ⟨file, hfile, ?_⟩) hfd
    unfold BatchFd.descriptor
    rw [if_pos (hrest _ hfd)]
    exact List.mem_singleton_self _
  have hfilter := hperm.filter fun fd => decide (fd ∉ wl.fds.map BatchFd.fd)
  rwa [List.filter_append, hgone, hstay, List.nil_append] at hfilter

/-- Descriptors are not negative. -/
theorem descriptor_nonneg {t : Table Inflight} {fd : Int}
    (h : fd ∈ t.flatMap fun e => e.2.descriptors) : 0 ≤ fd := by
  rcases List.mem_flatMap.1 h with ⟨e, -, he⟩
  rcases List.mem_flatMap.1 he with ⟨file, -, hfile⟩
  unfold BatchFd.descriptor at hfile
  split at hfile
  · rename_i hpos
    rw [List.mem_singleton.1 hfile]
    exact hpos
  · cases hfile

/-- A batch that has got all its answers is reported. -/
theorem Telling.settle {owners : List Owner} {answers : List Answer} {code : ResponseCode}
    (h : Telling owners answers workloadId batchIndex wl batch)
    (hcodes : ∀ e ∈ wl.errorByFileIndex, e.2 ≠ .success)
    (hover : code = .success → openSpans owners workloadId batchIndex = [])
    (hnodup : wl.batches.Nodup) (hbatch : batch ∈ wl.batches) :
    Settled (answers ++ wl.report code) batch := by
  rcases h with ⟨told, habout, htally⟩
  refine ⟨told, if code = .success then (wl.errorByFileIndex.lookup batch.fileIndex).getD .success
    else code, htally.subperm, ?_, ?_⟩
  · rw [about_append, habout, about_report code hnodup hbatch]
  · intro hcode
    by_cases hsuccess : code = .success
    · rw [if_pos hsuccess] at hcode
      have hnone : wl.errorByFileIndex.lookup batch.fileIndex = none := by
        cases herror : wl.errorByFileIndex.lookup batch.fileIndex with
        | none => rfl
        | some first =>
            rw [herror, Option.getD_some] at hcode
            exact absurd hcode (hcodes _ (Table.mem_of_lookup herror))
      rw [hover hsuccess] at htally
      apply htally.perm
      intro task _ hfailed
      rw [hnone] at hfailed
      cases hfailed
    · rw [if_neg hsuccess] at hcode
      exact absurd hcode hsuccess

/-- The batches of a workload, and those of the others. -/
theorem live_remove (hnodup : w.workloads.keys.Nodup)
    (hwl : w.workloads.lookup workloadId = some wl) :
    w.live.Perm
      (wl.batches ++ (w.workloads.remove workloadId).flatMap fun e => e.2.batches) := by
  have hperm := Table.perm_remove hnodup hwl
  exact hperm.flatMap_right fun e : Nat × Inflight => e.2.batches

/-- What reporting a workload relies on, and keeps. -/
structure Reporting (owners : List Owner) (w : Worker) : Prop where
  ids_nodup : w.workloads.keys.Nodup
  workload : ∀ id wl, w.workloads.lookup id = some wl →
    WorkloadOk w.strategy owners w.answers id wl
  distinct : w.enqueued.Nodup
  accounts : ∃ settled, (w.live ++ settled).Perm w.enqueued ∧
    ∀ batch ∈ settled, Settled w.answers batch
  known : ∀ answer ∈ w.answers, answeredBatch answer ∈ w.enqueued
  opened_nodup : w.opened.Nodup
  opened : w.opened.Perm w.descriptors

theorem Core.reporting (h : Core env hand w) : Reporting w.owners w :=
  ⟨h.ids_nodup, h.workload, h.distinct, h.accounts, h.known, h.opened_nodup, h.opened⟩

/-- The workloads that are left. -/
theorem lookup_left {t : Table Inflight} {j : Nat} {other : Inflight}
    (hj : (t.remove workloadId).lookup j = some other) :
    j ≠ workloadId ∧ t.lookup j = some other := by
  rw [Table.lookup_remove] at hj
  by_cases heq : j = workloadId
  · rw [if_pos heq] at hj
    cases hj
  · rw [if_neg heq] at hj
    exact ⟨heq, hj⟩

/-- A workload is reported; with success only when none of its spans is open. -/
theorem Reporting.finalize {owners : List Owner} (code : ResponseCode) (h : Reporting owners w)
    (hwl : w.workloads.lookup workloadId = some wl)
    (hover : code = .success → ∀ i, openSpans owners workloadId i = []) :
    Reporting owners (w.finalize workloadId code) := by
  have hok := h.workload _ wl hwl
  have hlive := live_remove h.ids_nodup hwl
  rcases h.accounts with ⟨settled, hperm, hsettled⟩
  have hall := List.nodup_append'.1 (hperm.symm.nodup h.distinct)
  have hbatches := List.nodup_append'.1 (hlive.nodup hall.1)
  have hother : ∀ batch, batch ∉ wl.batches →
      ∀ answer ∈ wl.report code, answeredBatch answer ≠ batch := by
    rintro batch hnot answer hanswer rfl
    exact hnot (answeredBatch_report hanswer)
  unfold Worker.finalize
  rw [hwl]
  constructor
  case ids_nodup => exact Table.nodup_keys_remove h.ids_nodup workloadId
  case workload =>
    intro j other hj
    rcases lookup_left hj with ⟨hne, hold⟩
    have hothers := h.workload j other hold
    refine ⟨hothers.files, hothers.remaining, hothers.codes, hothers.direct, ?_⟩
    intro i batch hi
    refine (hothers.telling i batch hi).other (List.Perm.refl _) (hother batch ?_)
      fun _ herror => herror
    intro hmem
    apply hbatches.2.2 hmem
    exact List.mem_flatMap.2 ⟨(j, other), Table.mem_of_lookup hj, List.mem_of_getElem? hi⟩
  case distinct => exact h.distinct
  case accounts =>
    refine ⟨wl.batches ++ settled, ?_, ?_⟩
    · refine List.Perm.trans ?_ ((hlive.symm.append_right settled).trans hperm)
      exact (List.perm_append_comm_assoc _ _ _).trans
        (List.Perm.of_eq (List.append_assoc _ _ _).symm)
    · intro batch hmem
      by_cases hown : batch ∈ wl.batches
      · rcases List.getElem?_of_mem hown with ⟨i, hi⟩
        exact (hok.telling i batch hi).settle hok.codes (fun hcode => hover hcode i) hbatches.1 hown
      · have hold := (List.mem_append.1 hmem).resolve_left hown
        exact (hsettled batch hold).append (hother batch hown)
  case known =>
    intro answer hanswer
    rcases List.mem_append.1 hanswer with hold | hnew
    · exact h.known answer hold
    · have hmem := List.mem_append_left
        ((w.workloads.remove workloadId).flatMap fun e => e.2.batches) (answeredBatch_report hnew)
      exact hperm.subset (List.mem_append_left _ (hlive.symm.subset hmem))
  case opened_nodup => exact h.opened_nodup.filter _
  case opened =>
    have hdescriptors := (Table.perm_remove h.ids_nodup hwl).flatMap_right
      fun e : Nat × Inflight => e.2.descriptors
    exact opened_close h.opened_nodup (h.opened.trans hdescriptors) fun fd => descriptor_nonneg

/-- What is left of a worker when a workload is reported. -/
theorem finalize_eq (w : Worker) (workloadId : Nat) (code : ResponseCode) :
    ∃ answers opened early, w.finalize workloadId code =
      { w with
        answers
        opened
        early
        workloads := w.workloads.remove workloadId } ∧
      (w.writes workloadId = false → early = w.early) := by
  unfold Worker.finalize
  cases hwl : w.workloads.lookup workloadId with
  | none =>
      refine ⟨w.answers, w.opened, w.early, ?_, fun _ => rfl⟩
      rw [Table.remove_eq_self (Table.lookup_eq_none_iff.1 hwl)]
  | some wl =>
      refine ⟨_, _, _, rfl, fun hquiet => ?_⟩
      rw [hquiet]
      rfl

/-- A workload is reported when none of its chunks are left. -/
theorem Core.finalize (h : Core env { hand with finishing := workloadId :: hand.finishing } w)
    (hwl : w.workloads.lookup workloadId = some wl) (hzero : wl.remainingChunks = 0) :
    Core env hand (w.finalize workloadId .success) := by
  have hok := h.workload _ wl hwl
  have hout : outstanding w.owners workloadId = 0 := hok.remaining.symm.trans hzero
  have hreporting := h.reporting.finalize .success hwl fun _ _ => openSpans_of_outstanding hout
  have hleft : ∀ j, j ≠ workloadId →
      (w.workloads.remove workloadId).lookup j = w.workloads.lookup j := by
    intro j hne
    rw [Table.lookup_remove, if_neg hne]
  rcases finalize_eq w workloadId .success with ⟨answers, opened, early, heq, hearly⟩
  obtain rfl := hearly (writes_eq_false hout)
  rw [heq] at hreporting ⊢
  exact
    { h with
      ids_nodup := hreporting.ids_nodup
      ids_lt := by
        intro j hj
        apply h.ids_lt
        rw [Table.keys_remove] at hj
        exact List.mem_of_mem_filter hj
      owned := by
        intro o ho
        rcases h.owned o ho with ⟨other, batch, hlookup, hbatch, hchunk⟩
        refine ⟨other, batch, ?_, hbatch, hchunk⟩
        rcases List.mem_map.1 ho with ⟨e, he, rfl⟩
        have hne := owner_ne hout (Table.lookup_of_mem h.keys_nodup he)
        exact (hleft _ hne).trans hlookup
      workload := hreporting.workload
      unfinished := by
        intro j other hj hfree
        rcases lookup_left hj with ⟨hne, hold⟩
        exact h.unfinished j other hold fun hmem => (List.mem_cons.1 hmem).elim hne hfree
      accounts := hreporting.accounts
      known := hreporting.known
      opened_nodup := hreporting.opened_nodup
      opened := hreporting.opened
      reads := by
        intro read hread
        rcases h.reads read hread with ⟨e, file, he, hfile, hopen, hfd⟩
        refine ⟨e, file, he, ?_, hopen, hfd⟩
        have hlookup := hleft _ (owner_ne hout he)
        unfold Worker.fileAt at hfile ⊢
        rw [← hfile]
        exact congrArg (fun found => found.bind fun wl => wl.fds[e.batchIndex]?) hlookup }

end Answer

end AsyncIo
end ModelStreamer
