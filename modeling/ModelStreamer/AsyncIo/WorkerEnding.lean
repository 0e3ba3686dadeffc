import ModelStreamer.AsyncIo.WorkerLoops

/-!
# The end of an asynchronous worker

A worker ends when it is stopped or when its engine fails.  It waits for the copies and for the
reads that the kernel holds, reports all workloads and gives everything back.  After that nothing
is staged or flushed, and workloads that still arrive are reported at once.

Main results:

- Definition {lit}`Ended`: what holds of a worker that has ended.
- Theorem {lit}`Core.abortAll`: aborting ends a worker.
- Theorem {lit}`Ended.enqueue`: workloads that arrive after the end are reported at once.
-/

namespace ModelStreamer
namespace AsyncIo

open Common Lib Streamer PosixIo
open ObjectStorage (Answer CapacityQueue)

/-- A worker that has ended.  When the engine never failed to wait, no read is with the kernel. -/
structure Ended (env : Setting) (calm : Prop) (w : Worker) : Prop where
  finished : w.engineDead = true ∨ w.stopping = true
  reason : w.engineError ≠ .success
  depth_pos : 0 < w.depth
  capacity : w.queue.capacity = w.depth
  pending : w.queue.pending = []
  inflight : w.queue.inflight = 0
  waiting : w.waiting = []
  forgotten : w.chunks.entries = []
  workloads : w.workloads = []
  issued : w.issued = 0
  copiesIssued : w.copiesIssued = 0
  copying : w.copying = []
  copies : w.copies = []
  lent : w.lent = []
  returned : w.borrowed.Perm w.returned
  opened : w.opened = []
  pooled : ∀ p, w.scratch = some p → p.free.Perm env.scratch ∧ env.scratch.length = w.depth
  stocked : w.dry = false
  enqueued : w.enqueued = env.batches
  distinct : w.enqueued.Nodup
  settled : ∀ batch ∈ w.enqueued, Settled w.answers batch
  known : ∀ answer ∈ w.answers, answeredBatch answer ∈ w.enqueued
  roomy : w.crowded = false
  quiet : calm → w.early = [] ∧ w.kernel = []

section Ending

variable {env : Setting} {hand : Hand} {calm : Prop} {w : Worker} {id : Nat}

/-! ## Waiting for the engine -/

/-- The engine hands completions out, and holds fewer reads. -/
theorem handOut_eq (ids : List Nat) (w : Worker) :
    Ends (fun w' => ∃ kernel, w' = { w with kernel } ∧ w.kernel.length = kernel.length + ids.length)
      (· = .refused) (Worker.handOut ids w) := by
  induction ids generalizing w with
  | nil => exact ⟨w.kernel, rfl, rfl⟩
  | cons id ids ih =>
      unfold Worker.handOut
      split
      case isTrue hheld =>
        rcases perm_cons_eraseP hheld with ⟨read, -, -, hperm⟩
        apply (ih _).imp
        rintro w' ⟨kernel, rfl, hlength⟩
        refine ⟨kernel, rfl, ?_⟩
        rw [hperm.length_eq, List.length_cons, List.length_cons]
        change (w.kernel.eraseP _).length = _ at hlength
        omega
      case isFalse => exact rfl

/-- The kernel is waited for; it holds no read any more unless a wait has failed. -/
theorem quiesceReads_eq (rounds : List Worker.Round) (h : w.issued = w.kernel.length) :
    Ends (fun w' => ∃ kernel issued calls, w' = { w with kernel, issued, calls } ∧
        ((∀ round ∈ rounds, round.code = .success) → kernel = []))
      (· = .refused) (Worker.quiesceReads rounds w) := by
  induction rounds generalizing w with
  | nil =>
      unfold Worker.quiesceReads
      split
      case isTrue hzero =>
        exact ⟨w.kernel, w.issued, w.calls, rfl,
          fun _ => List.eq_nil_of_length_eq_zero (h.symm.trans hzero)⟩
      case isFalse => exact rfl
  | cons round rounds ih =>
      unfold Worker.quiesceReads
      split
      case isTrue hzero =>
        exact ⟨w.kernel, w.issued, w.calls, rfl,
          fun _ => List.eq_nil_of_length_eq_zero (h.symm.trans hzero)⟩
      case isFalse =>
        dsimp only
        split
        case isTrue hfailed =>
          exact ⟨w.kernel, w.issued, w.calls ++ [.collect []], rfl,
            fun hall => absurd (hall round List.mem_cons_self) hfailed⟩
        case isFalse =>
          apply (handOut_eq round.ids { w with calls := w.calls ++ [.collect round.ids] }).bind
          rintro w' ⟨kernel, rfl, hlength⟩
          change w.kernel.length = kernel.length + round.ids.length at hlength
          dsimp only
          split
          case isTrue hmore => omega
          case isFalse =>
            apply (ih _).imp
            · rintro w'' ⟨kernel', issued, calls, rfl, hempty⟩
              refine ⟨kernel', issued, calls, rfl, fun hall => hempty fun r hr => ?_⟩
              exact hall r (List.mem_cons_of_mem _ hr)
            · change w.issued - round.ids.length = kernel.length
              omega

/-! ## Reporting all workloads -/

/-- All workloads are reported. -/
theorem finalizeAll_eq (code : ResponseCode) {owners : List Owner} (h : Reporting owners w)
    (hcode : code ≠ .success) :
    ∃ answers opened early, w.finalizeAll code =
        { w with answers, opened, early, workloads := [] } ∧
      Reporting owners (w.finalizeAll code) ∧
      (w.kernel = [] → w.copying = [] → early = w.early) := by
  have hfold : ∀ (t : Table Inflight) (w : Worker), w.workloads = t → Reporting owners w →
      ∃ answers opened early,
        t.keys.foldl (fun w workloadId => w.finalize workloadId code) w =
          { w with answers, opened, early, workloads := [] } ∧
        Reporting owners (t.keys.foldl (fun w workloadId => w.finalize workloadId code) w) ∧
        (w.kernel = [] → w.copying = [] → early = w.early) := by
    intro t
    induction t with
    | nil =>
        intro w hnone hreporting
        refine ⟨w.answers, w.opened, w.early, ?_, hreporting, fun _ _ => rfl⟩
        conv_rhs => rw [← hnone]
        rfl
    | cons e t ih =>
        intro w hworkloads hreporting
        have hlookup : w.workloads.lookup e.1 = some e.2 := by
          rw [hworkloads, Table.lookup_cons, if_pos rfl]
        have hnext := hreporting.finalize code hlookup fun hsuccess => absurd hsuccess hcode
        rcases finalize_eq w e.1 code with ⟨answers, opened, early, heq, hearly⟩
        have hleft : (w.finalize e.1 code).workloads = t := by
          have hnodup := hreporting.ids_nodup
          rw [hworkloads] at hnodup
          have hout : e.1 ∉ Table.keys t := (List.nodup_cons.1 hnodup).1
          rw [heq]
          change w.workloads.remove e.1 = t
          rw [hworkloads, ← Table.remove_eq_self hout]
          unfold Table.remove
          rw [List.filter_cons_of_neg (by simp), List.filter_filter]
          simp
        rcases ih _ hleft hnext with ⟨answers', opened', early', heq', hreporting', hearly'⟩
        refine ⟨answers', opened', early', ?_, hreporting', fun hkernel hcopying => ?_⟩
        · have hkeys : Table.keys (e :: t) = e.1 :: Table.keys t := rfl
          rw [heq] at heq'
          rw [hkeys, List.foldl_cons, heq]
          exact heq'
        · have hquiet : w.writes e.1 = false := by
            unfold Worker.writes
            rw [hkernel, hcopying]
            rfl
          rw [heq] at hearly'
          rw [hearly' hkernel hcopying]
          exact hearly hquiet
  exact hfold w.workloads w rfl h

/-! ## Giving everything back -/

/-- Buffers that are given back are free. -/
theorem foldl_give (p : ScratchPool) (buffers : List Addr) :
    (buffers.foldl ScratchPool.give p).free = buffers.reverse ++ p.free := by
  induction buffers generalizing p with
  | nil => rfl
  | cons buffer buffers ih =>
      rw [List.foldl_cons, ih, List.reverse_cons, List.append_assoc]
      rfl

/-- The staging buffers are the pool's again. -/
theorem lent_giveBackAll (hlent : w.lent.Perm w.heldStaging) : w.giveBackAll.lent = [] := by
  unfold Worker.giveBackAll
  rw [List.filter_eq_nil_iff]
  intro buffer hbuffer hfree
  rcases List.mem_filterMap.1 (hlent.subset hbuffer) with ⟨e, he, hstaging⟩
  have hne := of_decide_eq_true (List.all_eq_true.1 hfree e he)
  exact hne hstaging

/-- Every buffer that was lent went back, as often as it was lent. -/
theorem returned_giveBackAll (hlent : w.lent.Perm w.heldStaging)
    (hreturned : w.borrowed.Perm (w.returned ++ w.lent)) :
    w.giveBackAll.borrowed.Perm w.giveBackAll.returned :=
  hreturned.trans (hlent.append_left w.returned)

/-- The scratch buffers are free again. -/
theorem pooled_giveBackAll {env : Setting}
    (hpooled : ∀ p, w.scratch = some p → (p.free ++ w.heldScratch).Perm env.scratch ∧
      env.scratch.length = w.depth) :
    ∀ p, w.giveBackAll.scratch = some p → p.free.Perm env.scratch ∧ env.scratch.length = w.depth := by
  intro p hp
  rcases Option.map_eq_some_iff.1 hp with ⟨q, hq, rfl⟩
  rcases hpooled q hq with ⟨hperm, hlength⟩
  refine ⟨?_, hlength⟩
  rw [foldl_give]
  exact (List.perm_append_comm.trans ((List.reverse_perm _).append_left _)).trans hperm

/-- Aborting ends a worker. -/
theorem Core.abortAll {code : ResponseCode} {answer : Worker.AbortAnswer} (h : Core env {} w)
    (hcapacity : w.queue.capacity = w.depth) (hdepth : 0 < w.depth) (hroomy : w.crowded = false)
    (hreason : w.engineError ≠ .success) (hcode : code ≠ .success)
    (hover : code = .finishedError → w.stopping = true)
    (hcalm : calm → ∀ round ∈ answer.rounds, round.code = .success) :
    Ends (Ended env calm) (· = .refused) (w.abortAll code answer) := by
  unfold Worker.abortAll
  have hdead : ∃ engineDead engineError,
      (if code = .finishedError then w else w.engineIsDead code) =
        { w with engineDead, engineError } ∧
      (engineDead = true ∨ w.stopping = true) ∧ engineError ≠ .success := by
    split
    case isTrue hfinished =>
      exact ⟨w.engineDead, w.engineError, rfl, Or.inr (hover hfinished), hreason⟩
    case isFalse =>
      unfold Worker.engineIsDead
      split
      case isTrue hold => exact ⟨w.engineDead, w.engineError, rfl, Or.inl hold, hreason⟩
      case isFalse => exact ⟨true, code, rfl, Or.inl rfl, hcode⟩
  rcases hdead with ⟨engineDead, engineError, heq, hflag, herror⟩
  rw [heq]
  have hcleared : Core env { bare := w.queue.pending.map Prod.fst }
      { w with engineDead, engineError, queue := w.queue.clear } :=
    { h with
      placed := by
        refine List.Perm.trans ?_ h.placed
        unfold Hand.ids Worker.places Worker.engineIds Worker.copyIds
        rw [List.perm_iff_count]
        intro x
        simp only [CapacityQueue.clear, List.map_nil, List.count_append, List.count_nil]
        omega }
  dsimp only
  apply (hcleared.drainCopies true answer.landing).bind
  rintro w₁ ⟨h₁, hwindow, hdrained⟩
  rcases hdrained rfl with ⟨hcopying, hcopies⟩
  have hissued : w₁.issued = w₁.kernel.length := by
    have hcount := h₁.issued
    rw [List.length_nil, Nat.zero_add] at hcount
    exact hcount
  apply (quiesceReads_eq answer.rounds hissued).bind
  rintro w₂ ⟨kernel, issued, calls, rfl, hkernel⟩
  have hreporting : Reporting w₁.owners { w₁ with kernel, issued, calls } :=
    { h₁.reporting with }
  rcases finalizeAll_eq code hreporting hcode with ⟨answers, opened, early, hfinal, hlast, hearly⟩
  rw [hfinal] at hlast ⊢
  have hdepth₁ : w₁.depth = w.depth := congrArg WindowState.depth hwindow
  have hqueue : w₁.queue = w.queue.clear := congrArg WindowState.queue hwindow
  have hlent : w₁.lent.Perm w₁.heldStaging := by
    have hperm := h₁.lent
    rwa [hcopying, List.map_nil, List.append_nil] at hperm
  constructor
  case finished =>
    have hdead : w₁.engineDead = engineDead := congrArg WindowState.engineDead hwindow
    have hstopping : w₁.stopping = w.stopping := congrArg WindowState.stopping hwindow
    change w₁.engineDead = true ∨ w₁.stopping = true
    rw [hdead, hstopping]
    exact hflag
  case reason =>
    have hsame : w₁.engineError = engineError := congrArg WindowState.engineError hwindow
    change w₁.engineError ≠ .success
    rw [hsame]
    exact herror
  case depth_pos =>
    change 0 < w₁.depth
    rw [hdepth₁]
    exact hdepth
  case capacity =>
    change w₁.queue.capacity = w₁.depth
    rw [hqueue, hdepth₁]
    exact hcapacity
  case pending => exact congrArg CapacityQueue.pending hqueue
  case inflight => exact congrArg CapacityQueue.inflight hqueue
  case waiting => rfl
  case forgotten => rfl
  case workloads => rfl
  case issued => rfl
  case copiesIssued =>
    have hcopied := h₁.copied
    rw [hcopying, hcopies] at hcopied
    exact hcopied
  case copying => exact hcopying
  case copies => exact hcopies
  case lent => exact lent_giveBackAll hlent
  case returned => exact returned_giveBackAll hlent h₁.returned
  case opened => exact List.perm_nil.1 hlast.opened
  case pooled => exact pooled_giveBackAll h₁.pooled
  case stocked => exact h₁.stocked
  case enqueued => exact h₁.enqueued
  case distinct => exact hlast.distinct
  case settled =>
    intro batch hbatch
    rcases hlast.accounts with ⟨settled, hperm, hsettled⟩
    exact hsettled batch (hperm.symm.subset hbatch)
  case known => exact hlast.known
  case roomy =>
    have hsame : w₁.crowded = w.crowded := congrArg WindowState.crowded hwindow
    change w₁.crowded = false
    rw [hsame]
    exact hroomy
  case quiet =>
    intro h
    have hnone : kernel = [] := hkernel (hcalm h)
    exact ⟨(hearly hnone hcopying).trans h₁.quiet, hnone⟩

/-! ## After the end -/

/-- A worker that has ended is not drained any more. -/
theorem Ended.mayDrain (h : Ended env calm w) : w.mayDrain = false := by
  have hcapacity := h.capacity
  have hdepth := h.depth_pos
  unfold Worker.mayDrain Worker.idle Worker.hasDeferredWork CapacityQueue.idle
  rw [h.pending, h.inflight, h.copiesIssued, h.waiting, decide_eq_false (by omega)]
  rfl

/-- A workload that arrives after the end is reported at once. -/
theorem Ended.enqueue {batches : List Batch} {directBlock : Nat} {opens : Nat → Bool}
    (h : Ended env calm w) (hrunning : w.stopping = false)
    (hdistinct : (w.enqueued ++ batches).Nodup) :
    Ends (Ended { env with batches := env.batches ++ batches } calm) (fun _ => False)
      (w.enqueue batches directBlock opens) := by
  have hdead : w.engineDead = true := by
    rcases h.finished with hdead | hstopping
    · exact hdead
    · rw [hrunning] at hstopping
      cases hstopping
  have hnodup := List.nodup_append'.1 hdistinct
  unfold Worker.enqueue
  dsimp only
  rw [if_pos hdead]
  exact
    { h with
      enqueued := congrArg (· ++ batches) h.enqueued
      distinct := hdistinct
      settled := by
        intro batch hbatch
        by_cases hnew : batch ∈ batches
        · refine ⟨[], w.engineError, List.nil_subperm, ?_, fun hcode => absurd hcode h.reason⟩
          have hunknown : about w.answers batch = [] := by
            unfold about
            rw [List.filter_eq_nil_iff]
            intro answer hanswer heq
            have hold := h.known answer hanswer
            rw [of_decide_eq_true heq] at hold
            exact hnodup.2.2 hold hnew
          rw [about_append, hunknown, about_report w.engineError hnodup.2.1 hnew, if_neg h.reason]
          rfl
        · have hold := (List.mem_append.1 hbatch).resolve_right hnew
          refine (h.settled batch hold).append ?_
          rintro answer hanswer rfl
          exact hnew (answeredBatch_report hanswer)
      known := by
        intro answer hanswer
        rcases List.mem_append.1 hanswer with hold | hnew
        · exact List.mem_append_left _ (h.known answer hold)
        · exact List.mem_append_right _ (answeredBatch_report hnew) }

/-- Nothing is submitted after the end. -/
theorem Ended.pump (h : Ended env calm w) (answers : List StageAnswer) :
    Worker.pump answers w = .ok w := by
  have htake : w.queue.tryTake = none := by
    unfold CapacityQueue.tryTake
    rw [h.pending]
  unfold Worker.pump
  rw [htake]

/-- No copy lands after the end. -/
theorem Ended.copyLands (h : Ended env calm w) (done : CopyDone) :
    w.copyLands done = .error .refused := by
  unfold Worker.copyLands
  rw [h.copying]
  rfl

end Ending

end AsyncIo
end ModelStreamer
