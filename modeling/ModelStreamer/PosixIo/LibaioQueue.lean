import ModelStreamer.Lib.IssueQueue
import ModelStreamer.PosixIo.LibaioSpec

/-!
# The libaio engine as a queue

What the owner of a libaio engine sees is a queue that issues in order and is answered in any
order, whatever the kernel does.  A read that the kernel has refused is owed an answer like one
that it holds.

Main results:

- Theorem {lit}`libaio_step_queue`: one call of the engine is an operation of the queue.
- Theorem {lit}`libaio_is_queue`: every run of an owner that stays inside the depth is one of
  the queue.
-/

namespace ModelStreamer
namespace PosixIo

open Common Lib

/-- The codes that a worker can be given by its engine. -/
def EngineCode (code : ResponseCode) : Prop :=
  code = .success ∨ code = .fsAsyncEngineError

/-- What a call of the engine is for the queue. -/
def libaioOps (s : LibaioRun) : LibaioCall → List (QueueOp Nat)
  | .stage id _ _ _ _ => [.stage id]
  | .flush answers =>
      ((s.engine.flush answers s.ctx).map fun r => QueueOp.flush r.outIssued).toList
  | .wait max block timeoutMs answer =>
      ((s.engine.waitForCompletions max block timeoutMs answer s.ctx).map fun r =>
        QueueOp.collect (r.completions.map Completion.id)).toList

/-- The reads that a completion will arrive for. -/
def LibaioRun.owed (s : LibaioRun) : List Nat :=
  s.ctx.reads.map KernelRead.data ++ s.engine.submitFailures.map Completion.id

/-- The owner stages a read only when fewer than the depth are staged or owed. -/
def LibaioRun.InWindow (depth : Nat) (s : LibaioRun) : LibaioCall → Prop
  | .stage _ _ _ _ _ => s.engine.pending.length + s.owed.length < depth
  | _ => True

instance LibaioRun.decidableInWindow (depth : Nat) (s : LibaioRun) :
    DecidablePred (s.InWindow depth)
  | .stage _ _ _ _ _ => inferInstanceAs (Decidable (_ < _))
  | .flush _ => .isTrue trivial
  | .wait _ _ _ _ => .isTrue trivial

/-- The reads of the engine are those of the queue. -/
structure LibaioHolds (depth : Nat) (s : LibaioRun) (q : IssueQueue Nat) : Prop where
  accounting : LibaioAccounting depth s
  staged : q.staged = s.engine.pendingIds
  owed : q.owed.Perm s.owed

section Calls

variable {depth : Nat} {s s' : LibaioRun} {q : IssueQueue Nat} {call : LibaioCall}

/-- A read that was staged is the last of those that are not issued. -/
theorem LibaioAccounting.pendingIds_stage (h : LibaioAccounting depth s) {slot : Nat}
    {free : List Nat} (hfree : s.engine.free = slot :: free) (iocb : Iocb) :
    LibaioEngine.pendingIds
        { s.engine with
          iocbs := s.engine.iocbs.set slot iocb
          free
          pending := s.engine.pending ++ [slot] } =
      s.engine.pendingIds ++ [iocb.data] := by
  have hnodup := h.slots_nodup
  have hslots := h.slots
  rw [hfree] at hnodup hslots
  have hlt : slot < s.engine.iocbs.length := by
    rw [h.iocbs_length]
    exact List.mem_range.1 (hslots.subset List.mem_cons_self)
  have hpending : slot ∉ s.engine.pending := by
    intro hmem
    rw [List.append_assoc, List.cons_append, List.nodup_cons] at hnodup
    exact hnodup.1 (List.mem_append_right _ (List.mem_append_left _ hmem))
  unfold LibaioEngine.pendingIds
  rw [List.map_append, List.map_singleton]
  congr 1
  · refine List.map_congr_left fun other hother => ?_
    unfold LibaioEngine.dataAt
    rw [List.getElem?_set_ne]
    rintro rfl
    exact hpending hother
  · unfold LibaioEngine.dataAt
    rw [List.getElem?_set_self hlt]
    rfl

/-- What is owed after a call, by the accounting before and after it. -/
theorem owed_of_accounting {staged : List Nat} {answered : List Nat} {moved : List Nat}
    (h : LibaioAccounting depth s) (h' : LibaioAccounting depth s')
    (hsame : s'.staged = s.staged)
    (hdelivered : s'.delivered.map Completion.id = s.delivered.map Completion.id ++ answered)
    (hpending : s.engine.pendingIds = moved ++ staged) (hpending' : s'.engine.pendingIds = staged) :
    (answered ++ s'.owed).Perm (s.owed ++ moved) := by
  have hids := h'.ids.trans (List.Perm.of_eq hsame) |>.trans h.ids.symm
  unfold LibaioRun.places at hids
  rw [hpending, hpending', hdelivered] at hids
  rw [List.perm_iff_count] at hids ⊢
  intro x
  have hx := hids x
  unfold LibaioRun.owed
  simp only [List.count_append] at hx ⊢
  omega

/-- A flush leaves the reads where they are in the table. -/
theorem flushLoop_iocbs (answers : Nat → SubmitAnswer) (fuel k outIssued : Nat)
    (e : LibaioEngine) (ctx : IoContext) {r : FlushResult}
    (h : flushLoop answers fuel k outIssued e ctx = some r) : r.engine.iocbs = e.iocbs := by
  induction fuel generalizing k outIssued e ctx with
  | zero => cases h
  | succ fuel ih =>
      unfold flushLoop at h
      split at h
      · cases h
        rfl
      · dsimp only at h
        split at h
        · split at h
          · cases h
            rfl
          · cases h
            rfl
        · split at h
          · split at h
            · cases h
              rfl
            · have hrest := ih _ _ _ _ h
              exact hrest
          · cases h

/-- A wait leaves the reads that are not issued where they are. -/
theorem wait_pendingIds {e : LibaioEngine} {ctx : IoContext} {max timeoutMs : Nat} {block : Bool}
    {answer : GeteventsArgs → GeteventsAnswer} {r : WaitResult}
    (h : e.waitForCompletions max block timeoutMs answer ctx = some r) :
    r.engine.pendingIds = e.pendingIds ∧ EngineCode r.code := by
  unfold LibaioEngine.waitForCompletions at h
  split at h
  · cases h
    exact ⟨rfl, Or.inl rfl⟩
  · split at h
    · cases h
      exact ⟨rfl, Or.inl rfl⟩
    · dsimp only at h
      split at h
      · split at h
        · cases h
          exact ⟨rfl, Or.inr rfl⟩
        · cases h
          exact ⟨rfl, Or.inl rfl⟩
      · split at h
        · cases h
          exact ⟨rfl, Or.inl rfl⟩
        · cases h

/-- A flush takes what it counts off the front. -/
theorem Flushed.pendingIds {answers : Nat → SubmitAnswer} {r : FlushResult}
    (h : LibaioAccounting depth s) (hflush : s.engine.flush answers s.ctx = some r)
    (hflushed : Flushed depth s answers 0 r) :
    r.outIssued ≤ s.engine.pendingIds.length ∧
      r.engine.pendingIds = s.engine.pendingIds.drop r.outIssued := by
  have hafter := hflushed.accounting
  rw [Nat.sub_zero] at hafter
  have hpending := hflushed.pending_eq
  rw [Nat.sub_zero] at hpending
  have hiocbs := flushLoop_iocbs _ _ _ _ _ _ hflush
  have hdata : r.engine.dataAt = s.engine.dataAt := by
    funext slot
    unfold LibaioEngine.dataAt
    rw [hiocbs]
  constructor
  · have hsum := h.issued_sum
    have hsum' := hafter.issued_sum
    have hall := h.outstanding
    have hall' := hafter.outstanding
    dsimp only at hsum' hall'
    unfold LibaioEngine.pendingIds
    rw [List.length_map]
    omega
  · unfold LibaioEngine.pendingIds
    rw [hpending, hdata, List.map_drop]

/-- One call of the engine is an operation of the queue. -/
theorem libaio_step_queue (hdepth : depth < 2 ^ 32) (h : LibaioHolds depth s q)
    (hroom : s.InWindow depth call) (hstep : libaioStep s call = some s') :
    ∃ q', run (IssueQueue.step depth) q (libaioOps s call) = some q' ∧ LibaioHolds depth s' q' := by
  rcases h with ⟨haccounting, hstaged, howed⟩
  cases call with
  | stage id file offset bytesize buffer =>
      have hlength := haccounting.slots_length
      have hroom' : s.engine.pending.length + s.owed.length < depth := hroom
      cases hfree : s.engine.free with
      | nil =>
          unfold LibaioRun.owed at hroom'
          rw [List.length_append, List.length_map] at hroom'
          rw [hfree, List.length_nil] at hlength
          omega
      | cons slot free =>
          have hstage : s.engine.stage id file offset bytesize buffer =
              (.success,
                { s.engine with
                  iocbs := s.engine.iocbs.set slot ⟨file.fd, buffer, bytesize, offset, id⟩
                  free
                  pending := s.engine.pending ++ [slot] }) := by
            unfold LibaioEngine.stage
            rw [hfree]
          unfold libaioStep at hstep
          unfold libaioOps
          dsimp only at hstep ⊢
          rw [hstage] at hstep
          cases hstep
          refine ⟨{ q with staged := q.staged ++ [id] }, ?_, haccounting.stage hfree _, ?_, howed⟩
          · have hcount : q.staged.length + q.owed.length < depth := by
              rw [hstaged, howed.length_eq]
              unfold LibaioEngine.pendingIds
              rw [List.length_map]
              exact hroom'
            refine run_cons.2 ⟨_, ?_, rfl⟩
            unfold IssueQueue.step
            dsimp only
            rw [if_pos hcount]
          · rw [hstaged]
            exact (haccounting.pendingIds_stage hfree ⟨file.fd, buffer, bytesize, offset, id⟩).symm
  | flush answers =>
      rcases flush_spec haccounting hdepth answers with ⟨r, hr, hflushed⟩
      rcases hflushed.pendingIds haccounting hr with ⟨hle, hdrop⟩
      unfold libaioStep at hstep
      unfold libaioOps
      dsimp only at hstep ⊢
      rw [hr] at hstep ⊢
      cases hstep
      have hafter := hflushed.accounting
      rw [Nat.sub_zero] at hafter
      have howed' := owed_of_accounting haccounting hafter rfl (List.append_nil _).symm
        (List.take_append_drop r.outIssued s.engine.pendingIds).symm hdrop
      rw [List.nil_append] at howed'
      refine
        ⟨{ staged := q.staged.drop r.outIssued, owed := q.owed ++ q.staged.take r.outIssued },
          run_cons.2 ⟨_, ?_, rfl⟩, hafter, ?_, ?_⟩
      · unfold IssueQueue.step
        dsimp only
        rw [if_pos (hstaged ▸ hle)]
      · dsimp only
        rw [hdrop, hstaged]
      · dsimp only
        rw [hstaged]
        exact (howed.append_right _).trans howed'.symm
  | wait max block timeoutMs answer =>
      rcases wait_spec haccounting max block timeoutMs answer with ⟨r, hr, hafter⟩
      have hpending := (wait_pendingIds hr).1
      unfold libaioStep at hstep
      unfold libaioOps
      dsimp only at hstep ⊢
      rw [hr] at hstep ⊢
      cases hstep
      have howed' := owed_of_accounting haccounting hafter rfl (List.map_append ..)
        (List.nil_append _).symm hpending
      rw [List.append_nil] at howed'
      have hall := howed'.trans howed.symm
      have hsub : (r.completions.map Completion.id).Subperm q.owed :=
        (List.sublist_append_left _ _).subperm.trans hall.subperm
      refine ⟨{ q with owed := q.owed.diff (r.completions.map Completion.id) },
        run_cons.2 ⟨_, ?_, rfl⟩, hafter, ?_, ?_⟩
      · unfold IssueQueue.step
        dsimp only
        rw [if_pos hsub]
      · exact hstaged.trans hpending.symm
      · exact (List.perm_append_left_iff _).1 ((IssueQueue.perm_diff hsub).trans hall.symm)

/-- An owner whose calls the queue allows stays inside the depth. -/
theorem LibaioHolds.inWindow {q' : IssueQueue Nat} (h : LibaioHolds depth s q)
    (hops : run (IssueQueue.step depth) q (libaioOps s call) = some q') :
    s.InWindow depth call := by
  cases call with
  | stage id file offset bytesize buffer =>
      rcases run_cons.1 hops with ⟨q₁, hstage, -⟩
      have hroom := (IssueQueue.step_stage hstage).1
      rw [h.staged, h.owed.length_eq] at hroom
      unfold LibaioEngine.pendingIds at hroom
      rw [List.length_map] at hroom
      exact hroom
  | flush answers => trivial
  | wait max block timeoutMs answer => trivial

/-- An engine whose calls are those of a queue holds the reads of the queue. -/
theorem libaio_follows {depth : UInt32} {calls : List LibaioCall}
    (hrun : run libaioStep (LibaioRun.start depth) calls = some s)
    (hops : run (IssueQueue.step depth.toNat) {}
      (traceOf libaioStep libaioOps (LibaioRun.start depth) calls) = some q) :
    LibaioHolds depth.toNat s q := by
  refine run_follows (R := LibaioHolds depth.toNat) ?_
    ⟨libaioAccounting_start depth, rfl, List.Perm.refl _⟩ hrun hops
  intro s q call s' q' hholds hstep hqueue
  rcases libaio_step_queue depth.toNat_lt hholds (hholds.inWindow hqueue) hstep with
    ⟨q₁, hsame, hafter⟩
  rw [Option.some.inj (hqueue.symm.trans hsame)]
  exact hafter

/-- An owner that stays inside the depth sees a queue, whatever the kernel does: every run of a
libaio engine is a run of the queue, with the reads that it staged and issued and the completions
that it handed out; no stage fails, and no more reads are in it than the depth. -/
theorem libaio_is_queue {depth : UInt32} {calls : List LibaioCall}
    (hwindow : EachStep libaioStep (LibaioRun.InWindow depth.toNat) (LibaioRun.start depth) calls)
    (hrun : run libaioStep (LibaioRun.start depth) calls = some s) :
    ∃ q, run (IssueQueue.step depth.toNat) {}
        (traceOf libaioStep libaioOps (LibaioRun.start depth) calls) = some q ∧
      LibaioHolds depth.toNat s q ∧ s.engine.pending.length + s.owed.length ≤ depth.toNat := by
  rcases run_simulates (R := LibaioHolds depth.toNat) (t := {})
    (fun _ _ _ _ hholds hroom hstep => libaio_step_queue depth.toNat_lt hholds hroom hstep)
    ⟨libaioAccounting_start depth, rfl, List.Perm.refl _⟩ hwindow hrun with ⟨q, hqueue, hholds⟩
  have hbound := IssueQueue.run_bound hqueue (Nat.zero_le _)
  rw [hholds.staged, hholds.owed.length_eq] at hbound
  unfold LibaioEngine.pendingIds at hbound
  rw [List.length_map] at hbound
  exact ⟨q, hqueue, hholds, hbound⟩

/-- The head is refused and the rest issued, and both are answered. -/
def refusedCalls : List LibaioCall :=
  [.stage 7 ⟨3, false⟩ 0 4 0, .stage 8 ⟨3, false⟩ 4 4 4, .flush fun _ => .fails 22,
    .flush fun _ => .accepts 1, .wait 4 true 0 fun _ => .returns [],
    .wait 4 true 0 fun _ => .returns [(0, 4)]]

theorem libaio_is_queue_refused : ∃ s,
    run libaioStep (LibaioRun.start 2) refusedCalls = some s ∧
    ∃ q, run (IssueQueue.step 2) {}
        (traceOf libaioStep libaioOps (LibaioRun.start 2) refusedCalls) = some q ∧
      LibaioHolds 2 s q ∧ s.engine.pending.length + s.owed.length ≤ 2 := by
  have hends : ((run libaioStep (LibaioRun.start 2) refusedCalls).map fun s =>
      s.delivered.map Completion.id) = some [7, 8] := by
    decide +kernel
  rcases Option.map_eq_some_iff.1 hends with ⟨s, hrun, -⟩
  have hwindow : EachStep libaioStep (LibaioRun.InWindow (2 : UInt32).toNat) (LibaioRun.start 2)
      refusedCalls := by
    decide +kernel
  exact ⟨s, hrun, libaio_is_queue hwindow hrun⟩

end Calls

end PosixIo
end ModelStreamer
