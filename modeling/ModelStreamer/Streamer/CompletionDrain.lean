import ModelStreamer.Streamer.CompletionHistory

/-!
# Draining what was not dispatched

When handing a workload over throws, the dispatching thread fails every batch of that
workload and of the later ones.  Until then nobody touches these batches, and when the call
returns all of their tasks are finished.

Main results:

- Theorem {lit}`DrainInv.step`: the batches that were not handed over are untouched, being
  failed, or failed.
- Theorem {lit}`threadStep_isSome`, Theorem {lit}`drain_progress`: no thread gets stuck.
-/

namespace ModelStreamer
namespace Streamer

open Common Lib

/-! ## One thread -/

/-- Every task of the thread's batch is finished. -/
def BatchThread.AllFinished (t : BatchThread) : Prop :=
  ∀ task ∈ t.batch.tasks, task.finished = true

/-- The thread fails its whole batch: the tasks before the loop index are finished. -/
def BatchThread.Failing (t : BatchThread) : Prop :=
  (∃ i, t.call = .handleError .unknownError i ∧
    ∀ j task, j < i → t.batch.tasks[j]? = some task → task.finished = true) ∨
  (t.call = .none ∧ t.AllFinished)

theorem BatchThread.idle_iff {t : BatchThread} :
    t.idle = true ↔ t.call = .none ∧ t.finishing = .no := by
  simp [BatchThread.idle]

/-- What a step of a thread keeps. -/
structure ThreadMove (s s' : Completion) (k : Nat) (t t' : BatchThread) : Prop where
  threads_eq : s'.threads = s.threads.set k t'
  dispatch_eq : s'.dispatch = s.dispatch
  numWorkloads_eq : s'.numWorkloads = s.numWorkloads
  workload_eq : t'.workload = t.workload
  busy : t.idle = false
  failing : t.Failing → t'.Failing
  length_eq : t'.batch.tasks.length = t.batch.tasks.length
  call_of : ∀ code i, t'.call = .handleTaskResponse code i → t.call = .handleTaskResponse code i

/-- Finishing the task that the error loop has reached moves the loop on. -/
theorem finishTask_move {s : Completion} {k i : Nat} {t : BatchThread} {task : Task}
    (code : ResponseCode) (next : BatchCall) (htask : t.batch.tasks[i]? = some task)
    (hbusy : t.idle = false) (hnot : ∀ c j, next ≠ .handleTaskResponse c j)
    (hnext : t.Failing → t.call = .handleError .unknownError i ∧
      next = .handleError .unknownError (i + 1)) :
    ∃ t', ThreadMove s (finishTask s k t i task code next) k t t' := by
  by_cases hfinished : task.finished = true
  · refine ⟨{ t with call := next }, ?_⟩
    rw [finishTask, if_pos hfinished]
    refine ⟨rfl, rfl, rfl, rfl, hbusy, ?_, rfl, fun c j hcall => absurd hcall (hnot c j)⟩
    intro hfailing
    obtain ⟨hcall, rfl⟩ := hnext hfailing
    refine Or.inl ⟨i + 1, rfl, ?_⟩
    intro j x hj hx
    rcases hfailing with ⟨i', hcall', hbefore⟩ | ⟨hnone, -⟩
    · rw [hcall] at hcall'
      injection hcall' with _ hi
      by_cases hji : j = i
      · subst hji
        rw [Option.some.inj (hx.symm.trans htask)]
        exact hfinished
      · exact hbefore j x (by omega) hx
    · rw [hcall] at hnone
      cases hnone
  · have hopen : task.finished = false := by simpa using hfinished
    refine ⟨{ t with
      batch := t.batch.flag i task
      call := next
      finishing := Finishing.start task.request code }, ?_⟩
    rw [finishTask_eq code next hopen]
    refine ⟨rfl, rfl, rfl, rfl, hbusy, ?_, by simp [Batch.flag],
      fun c j hcall => absurd hcall (hnot c j)⟩
    intro hfailing
    obtain ⟨hcall, rfl⟩ := hnext hfailing
    refine Or.inl ⟨i + 1, rfl, ?_⟩
    intro j x hj hx
    simp only [Batch.flag, getElem?_set_of_some htask] at hx
    rcases hfailing with ⟨i', hcall', hbefore⟩ | ⟨hnone, -⟩
    · rw [hcall] at hcall'
      injection hcall' with _ hi
      split at hx
      · cases hx
        rfl
      · exact hbefore j x (by omega) hx
    · rw [hcall] at hnone
      cases hnone

/-- Leaving an operation keeps the tasks of the batch. -/
theorem ThreadMove.ofLeave {s : Completion} {k : Nat} {t : BatchThread} (unfinished : Nat)
    (hbusy : t.idle = false) (hfailing : t.Failing → t.AllFinished) :
    ∃ t', ThreadMove s (s.setThread k
      { t with batch := { t.batch with unfinished := unfinished }, call := .none }) k t t' :=
  ⟨_, rfl, rfl, rfl, rfl, hbusy, fun h => Or.inr ⟨rfl, hfailing h⟩, rfl,
    fun _ _ hcall => by cases hcall⟩

/-- A thread in another operation is not failing its batch. -/
theorem BatchThread.not_failing {t : BatchThread} (hcall : t.call ≠ .none)
    (herror : ∀ i, t.call ≠ .handleError .unknownError i) : ¬ t.Failing := by
  rintro (⟨i, hi, -⟩ | ⟨hnone, -⟩)
  · exact herror i hi
  · exact hcall hnone

theorem callStep_move {s s' : Completion} {k : Nat} {t : BatchThread}
    (h : callStep s k t = some s') : ∃ t', ThreadMove s s' k t t' := by
  unfold callStep at h
  cases hcall : t.call with
  | none => simp [hcall] at h
  | finishedUntil fileOffset ret i =>
      have hbusy : t.idle = false := by simp [BatchThread.idle, hcall]
      have hnot : ¬ t.Failing := BatchThread.not_failing (by simp [hcall]) (by simp [hcall])
      simp only [hcall] at h
      cases htask : t.batch.tasks[i]? with
      | none =>
          simp only [htask, Option.some.injEq] at h
          subst h
          exact ThreadMove.ofLeave i hbusy fun hfailing => absurd hfailing hnot
      | some task =>
          simp only [htask] at h
          split at h
          · cases h
            exact ThreadMove.ofLeave i hbusy fun hfailing => absurd hfailing hnot
          · cases h
            exact finishTask_move _ _ htask hbusy (by simp) fun hfailing => absurd hfailing hnot
  | handleTaskResponse code i =>
      have hbusy : t.idle = false := by simp [BatchThread.idle, hcall]
      have hnot : ¬ t.Failing := BatchThread.not_failing (by simp [hcall]) (by simp [hcall])
      simp only [hcall] at h
      cases htask : t.batch.tasks[i]? with
      | none => simp [htask] at h
      | some task =>
          simp only [htask, Option.some.injEq] at h
          subst h
          exact finishTask_move _ _ htask hbusy (by simp) fun hfailing => absurd hfailing hnot
  | handleError code i =>
      have hbusy : t.idle = false := by simp [BatchThread.idle, hcall]
      have hcode : t.Failing → code = .unknownError := by
        rintro (⟨j, hj, -⟩ | ⟨hnone, -⟩)
        · rw [hcall] at hj
          injection hj
        · rw [hcall] at hnone
          cases hnone
      simp only [hcall] at h
      split at h
      · rename_i hsuccess
        cases h
        refine ThreadMove.ofLeave t.batch.unfinished hbusy fun hfailing => ?_
        rw [hcode hfailing] at hsuccess
        cases hsuccess
      · cases htask : t.batch.tasks[i]? with
        | none =>
            simp only [htask, Option.some.injEq] at h
            subst h
            refine ThreadMove.ofLeave t.batch.unfinished hbusy fun hfailing => ?_
            intro task hmem
            obtain ⟨j, hj⟩ := List.mem_iff_getElem?.1 hmem
            rcases hfailing with ⟨i', hcall', hbefore⟩ | ⟨hnone, -⟩
            · rw [hcall] at hcall'
              injection hcall' with _ hi
              refine hbefore j task ?_ hj
              have hlt := (List.getElem?_eq_some_iff.1 hj).1
              have hle := List.getElem?_eq_none_iff.1 htask
              change j < t.batch.tasks.length at hlt
              omega
            · rw [hcall] at hnone
              cases hnone
        | some task =>
            simp only [htask, Option.some.injEq] at h
            subst h
            refine finishTask_move _ _ htask hbusy (by simp) fun hfailing => ?_
            rw [hcode hfailing] at hcall ⊢
            exact ⟨hcall, rfl⟩

theorem threadStep_move {s s' : Completion} {k : Nat} (h : threadStep s k = some s') :
    ∃ t t', s.threads[k]? = some t ∧ ThreadMove s s' k t t' := by
  unfold threadStep at h
  cases ht : s.threads[k]? with
  | none => simp [ht] at h
  | some t =>
      simp only [ht] at h
      refine ⟨t, ?_⟩
      cases hfinishing : t.finishing with
      | no =>
          simp only [hfinishing] at h
          obtain ⟨t', hmove⟩ := callStep_move h
          exact ⟨t', rfl, hmove⟩
      | storing p code =>
          have hbusy : t.idle = false := by simp [BatchThread.idle, hfinishing]
          simp only [hfinishing, storeStep] at h
          split at h
          · cases h
            exact ⟨_, rfl, rfl, rfl, rfl, rfl, hbusy, fun h => h, rfl, fun _ _ h => h⟩
          · cases h
      | decrementing p =>
          have hbusy : t.idle = false := by simp [BatchThread.idle, hfinishing]
          simp only [hfinishing, decrementStep] at h
          split at h
          · cases h
            exact ⟨_, rfl, rfl, rfl, rfl, rfl, hbusy, fun h => h, rfl, fun _ _ h => h⟩
          · cases h
      | pushing p =>
          have hbusy : t.idle = false := by simp [BatchThread.idle, hfinishing]
          simp only [hfinishing, pushStep] at h
          split at h
          · cases h
            exact ⟨_, rfl, rfl, rfl, rfl, rfl, hbusy, fun h => h, rfl, fun _ _ h => h⟩
          · cases h

/-! ## The batches that were not handed over -/

/-- What is known of a batch that was not handed over. -/
def Kept : Dispatch → Nat → BatchThread → Prop
  | .dispatching _, _, t => t.idle = true
  | .draining _ current todo, k, t =>
      (current = some k ∧ t.Failing) ∨
        (current ≠ some k ∧ t.idle = true ∧ (k ∈ todo ∨ t.AllFinished))
  | .returned _, _, t => t.idle = true ∧ t.AllFinished

/-- The batches that were not handed over, and what is left to drain. -/
structure DrainInv (s : Completion) : Prop where
  workload_lt : ∀ (k : Nat) (t : BatchThread), s.threads[k]? = some t →
    t.workload < s.numWorkloads
  kept : ∀ (k : Nat) (t : BatchThread), s.threads[k]? = some t →
    s.dispatch.handedOver t.workload = false → Kept s.dispatch k t
  todo : ∀ start current todo, s.dispatch = .draining start current todo →
    (∀ k ∈ todo, ∃ t : BatchThread, s.threads[k]? = some t ∧ start ≤ t.workload) ∧
      ∀ k, current = some k → ∃ t : BatchThread, s.threads[k]? = some t ∧ start ≤ t.workload

/-- A thread that moves keeps the invariant when it is handed over or being drained. -/
theorem DrainInv.move {s s' : Completion} (h : DrainInv s) {k : Nat} {t t' : BatchThread}
    (ht : s.threads[k]? = some t) (hthreads : s'.threads = s.threads.set k t')
    (hdispatch : s'.dispatch = s.dispatch) (hnum : s'.numWorkloads = s.numWorkloads)
    (hworkload : t'.workload = t.workload)
    (hkept : s.dispatch.handedOver t.workload = false → Kept s.dispatch k t') :
    DrainInv s' := by
  have hget : ∀ (j : Nat) (u : BatchThread), s'.threads[j]? = some u →
      (j = k ∧ u = t') ∨ (j ≠ k ∧ s.threads[j]? = some u) := by
    intro j u hu
    rw [hthreads] at hu
    exact setThread_cases ht hu
  refine ⟨?_, ?_, ?_⟩
  · intro j u hu
    rw [hnum]
    rcases hget j u hu with ⟨rfl, rfl⟩ | ⟨-, hold⟩
    · rw [hworkload]
      exact h.workload_lt j t ht
    · exact h.workload_lt j u hold
  · intro j u hu hhanded
    rw [hdispatch] at hhanded ⊢
    rcases hget j u hu with ⟨rfl, rfl⟩ | ⟨-, hold⟩
    · rw [hworkload] at hhanded
      exact hkept hhanded
    · exact h.kept j u hold hhanded
  · intro start current todo hdrain
    rw [hdispatch] at hdrain
    have hexists : ∀ j : Nat, (∃ u : BatchThread, s.threads[j]? = some u ∧ start ≤ u.workload) →
        ∃ u : BatchThread, s'.threads[j]? = some u ∧ start ≤ u.workload := by
      rintro j ⟨u, hu, hle⟩
      rw [hthreads]
      by_cases hj : j = k
      · subst hj
        obtain rfl := Option.some.inj (ht.symm.trans hu)
        exact ⟨t', setThread_self ht, hworkload ▸ hle⟩
      · exact ⟨u, (setThread_other ht hj).trans hu, hle⟩
    obtain ⟨htodo, hcurrent⟩ := h.todo start current todo hdrain
    exact ⟨fun j hj => hexists j (htodo j hj), fun j hj => hexists j (hcurrent j hj)⟩

/-- A worker only enters operations of batches that were handed over. -/
theorem DrainInv.beginCall {s s' : Completion} (h : DrainInv s) {k : Nat}
    {allowed : BatchThread → Bool} {call : BatchThread → BatchCall}
    (hcall : beginCall s k allowed call = some s')
    (hallowed : ∀ t, allowed t = true → s.dispatch.handedOver t.workload = true) :
    DrainInv s' := by
  obtain ⟨t, ht, -, hallow, rfl⟩ := beginCall_some hcall
  refine h.move ht rfl rfl rfl rfl fun hnot => ?_
  rw [hallowed t hallow] at hnot
  cases hnot

/-- A step of a thread keeps the batches that were not handed over as they should be. -/
theorem DrainInv.threadStep {s s' : Completion} (h : DrainInv s) {k : Nat}
    (hstep : threadStep s k = some s') : DrainInv s' := by
  obtain ⟨t, t', ht, hmove⟩ := threadStep_move hstep
  refine h.move ht hmove.threads_eq hmove.dispatch_eq hmove.numWorkloads_eq
    hmove.workload_eq fun hnot => ?_
  have hkept := h.kept k t ht hnot
  have hbusy := hmove.busy
  cases hdispatch : s.dispatch with
  | dispatching next =>
      rw [hdispatch] at hkept
      rw [show t.idle = true from hkept] at hbusy
      cases hbusy
  | draining start current todo =>
      rw [hdispatch] at hkept
      rcases hkept with ⟨hcurrent, hfailing⟩ | ⟨-, hidle, -⟩
      · exact Or.inl ⟨hcurrent, hmove.failing hfailing⟩
      · rw [hidle] at hbusy
        cases hbusy
  | returned handed =>
      rw [hdispatch] at hkept
      rw [hkept.1] at hbusy
      cases hbusy

theorem mem_undispatched {threads : List BatchThread} {start k : Nat} :
    k ∈ undispatched threads start ↔ ∃ t, threads[k]? = some t ∧ start ≤ t.workload := by
  simp only [undispatched, List.mem_filter, List.mem_range]
  constructor
  · rintro ⟨hlt, hstart⟩
    rw [List.getElem?_eq_getElem hlt] at hstart ⊢
    exact ⟨_, rfl, by simpa using hstart⟩
  · rintro ⟨t, ht, hle⟩
    refine ⟨(List.getElem?_eq_some_iff.1 ht).1, ?_⟩
    rw [ht]
    simpa using hle

/-- One step of the drain. -/
theorem DrainInv.drainStep {s s' : Completion} (h : DrainInv s)
    (hstep : drainStep s = some s') : DrainInv s' := by
  unfold Streamer.drainStep at hstep
  split at hstep
  · rename_i start k todo hdispatch
    obtain ⟨s₁, hs₁, rfl⟩ := Option.map_eq_some_iff.1 hstep
    obtain ⟨t, ht, -, -, rfl⟩ := beginCall_some hs₁
    obtain ⟨htodo, -⟩ := h.todo _ _ _ hdispatch
    have hexists : ∀ j : Nat, (∃ u : BatchThread, s.threads[j]? = some u ∧ start ≤ u.workload) →
        ∃ u : BatchThread, (s.setThread k
          { t with call := .handleError .unknownError 0 }).threads[j]? = some u ∧
            start ≤ u.workload := by
      rintro j ⟨u, hu, hle⟩
      by_cases hj : j = k
      · subst hj
        obtain rfl := Option.some.inj (ht.symm.trans hu)
        exact ⟨_, setThread_self ht, hle⟩
      · exact ⟨u, (setThread_other ht hj).trans hu, hle⟩
    refine ⟨?_, ?_, ?_⟩
    · intro j u hu
      rcases setThread_cases ht hu with ⟨rfl, rfl⟩ | ⟨-, hold⟩
      · exact h.workload_lt j t ht
      · exact h.workload_lt j u hold
    · intro j u hu hhanded
      rcases setThread_cases ht hu with ⟨rfl, rfl⟩ | ⟨hne, hold⟩
      · exact Or.inl ⟨rfl, Or.inl ⟨0, rfl, fun i _ hi => absurd hi (Nat.not_lt_zero i)⟩⟩
      · have hkept := h.kept j u hold (by rw [hdispatch]; exact hhanded)
        rw [hdispatch] at hkept
        rcases hkept with ⟨hcurrent, -⟩ | ⟨-, hidle, hrest⟩
        · cases hcurrent
        · refine Or.inr ⟨fun heq => hne (Option.some.inj heq).symm, hidle, ?_⟩
          rcases hrest with hmem | hall
          · rcases List.mem_cons.1 hmem with heq | hmem
            · exact absurd heq hne
            · exact Or.inl hmem
          · exact Or.inr hall
    · rintro start' current' todo' hdrain
      cases hdrain
      refine ⟨fun j hj => hexists j (htodo j (List.mem_cons_of_mem _ hj)), ?_⟩
      intro j hj
      cases hj
      exact hexists k (htodo k List.mem_cons_self)
  · rename_i start k todo hdispatch
    cases ht : s.threads[k]? with
    | none => simp [ht] at hstep
    | some t =>
        simp only [ht] at hstep
        split at hstep
        · rename_i hidle
          cases hstep
          refine ⟨h.workload_lt, ?_, ?_⟩
          · intro j u hu hhanded
            have hkept := h.kept j u hu (by rw [hdispatch]; exact hhanded)
            rw [hdispatch] at hkept
            refine Or.inr ⟨by simp, ?_⟩
            rcases hkept with ⟨hcurrent, hfailing⟩ | ⟨-, huidle, hrest⟩
            · cases hcurrent
              obtain rfl := Option.some.inj (ht.symm.trans hu)
              refine ⟨hidle, Or.inr ?_⟩
              rcases hfailing with ⟨i, hcall, -⟩ | ⟨-, hall⟩
              · rw [(BatchThread.idle_iff.1 hidle).1] at hcall
                cases hcall
              · exact hall
            · exact ⟨huidle, hrest⟩
          · rintro start' current' todo' hdrain
            cases hdrain
            exact ⟨(h.todo _ _ _ hdispatch).1, by simp⟩
        · cases hstep
  · rename_i start hdispatch
    cases hstep
    refine ⟨h.workload_lt, ?_, ?_⟩
    · intro j u hu hhanded
      have hkept := h.kept j u hu (by rw [hdispatch]; exact hhanded)
      rw [hdispatch] at hkept
      rcases hkept with ⟨hcurrent, -⟩ | ⟨-, hidle, hrest⟩
      · cases hcurrent
      · exact ⟨hidle, hrest.resolve_left (by simp)⟩
    · intro start' current' todo' hdrain
      cases hdrain
  · cases hstep

/-- Every step of the system keeps the batches that were not handed over as they should be. -/
theorem DrainInv.step {s s' : Completion} {action : Action} (h : DrainInv s)
    (hstep : completionStep s action = some s') : DrainInv s' := by
  cases action with
  | finishedUntil k fileOffset ret => exact h.beginCall hstep fun t ht => ht
  | handleTaskResponse k code i =>
      refine h.beginCall hstep fun t ht => ?_
      simp only [Bool.and_eq_true] at ht
      exact ht.1
  | handleError k code => exact h.beginCall hstep fun t ht => ht
  | step k => exact h.threadStep hstep
  | dispatch =>
      simp only [completionStep] at hstep
      split at hstep
      · rename_i next hdispatch
        have hidle : ∀ (k : Nat) (t : BatchThread), s.threads[k]? = some t →
            next ≤ t.workload → t.idle = true := by
          intro k t ht hle
          have hkept := h.kept k t ht (by simp [hdispatch, Dispatch.handedOver, hle])
          rw [hdispatch] at hkept
          exact hkept
        split at hstep
        · cases hstep
          refine ⟨h.workload_lt, ?_, by simp⟩
          intro k t ht hhanded
          simp only [Dispatch.handedOver, decide_eq_false_iff_not, not_lt] at hhanded
          exact hidle k t ht (by omega)
        · rename_i hdone
          cases hstep
          refine ⟨h.workload_lt, ?_, by simp⟩
          intro k t ht hhanded
          simp only [Dispatch.handedOver, decide_eq_false_iff_not, not_lt] at hhanded
          have hlt := h.workload_lt k t ht
          omega
      · cases hstep
  | throwing =>
      simp only [completionStep] at hstep
      split at hstep
      · rename_i next hdispatch
        split at hstep
        · cases hstep
          refine ⟨h.workload_lt, ?_, ?_⟩
          · intro k t ht hhanded
            have hkept := h.kept k t ht (by rw [hdispatch]; exact hhanded)
            rw [hdispatch] at hkept
            simp only [Dispatch.handedOver, decide_eq_false_iff_not, not_lt] at hhanded
            exact Or.inr ⟨by simp, hkept, Or.inl (mem_undispatched.2 ⟨t, ht, hhanded⟩)⟩
          · rintro start' current' todo' hdrain
            cases hdrain
            exact ⟨fun k hk => mem_undispatched.1 hk, by simp⟩
        · cases hstep
      · cases hstep
  | drain => exact h.drainStep hstep

/-! ## Progress -/

/-- A response is only handled for a task of the batch. -/
def CallInv (s : Completion) : Prop :=
  ∀ (k : Nat) (t : BatchThread) (code : ResponseCode) (i : Nat), s.threads[k]? = some t →
    t.call = .handleTaskResponse code i → i < t.batch.tasks.length

theorem CallInv.beginCall {s s' : Completion} (h : CallInv s) {k : Nat}
    {allowed : BatchThread → Bool} {call : BatchThread → BatchCall}
    (hcall : beginCall s k allowed call = some s')
    (hallowed : ∀ t code i, allowed t = true → call t = .handleTaskResponse code i →
      i < t.batch.tasks.length) : CallInv s' := by
  obtain ⟨t, ht, -, hallow, rfl⟩ := beginCall_some hcall
  intro j u code i hu hucall
  rcases setThread_cases ht hu with ⟨-, rfl⟩ | ⟨-, hold⟩
  · exact hallowed t code i hallow hucall
  · exact h j u code i hold hucall

theorem CallInv.step {s s' : Completion} {action : Action} (h : CallInv s)
    (hstep : completionStep s action = some s') : CallInv s' := by
  cases action with
  | finishedUntil k fileOffset ret =>
      exact h.beginCall hstep fun t code i _ hcall => by cases hcall
  | handleTaskResponse k code i =>
      refine h.beginCall hstep fun t c j hallow hcall => ?_
      cases hcall
      simp only [Bool.and_eq_true, decide_eq_true_eq] at hallow
      exact hallow.2
  | handleError k code => exact h.beginCall hstep fun t c j _ hcall => by cases hcall
  | step k =>
      obtain ⟨t, t', ht, hmove⟩ := threadStep_move hstep
      intro j u code i hu hucall
      rw [hmove.threads_eq] at hu
      rcases setThread_cases ht hu with ⟨rfl, rfl⟩ | ⟨-, hold⟩
      · rw [hmove.length_eq]
        exact h j t code i ht (hmove.call_of code i hucall)
      · exact h j u code i hold hucall
  | dispatch =>
      simp only [completionStep] at hstep
      split at hstep
      · split at hstep <;> cases hstep <;> exact h
      · cases hstep
  | throwing =>
      simp only [completionStep] at hstep
      split at hstep
      · split at hstep <;> cases hstep
        exact h
      · cases hstep
  | drain =>
      simp only [completionStep, Streamer.drainStep] at hstep
      split at hstep
      · obtain ⟨s₁, hs₁, rfl⟩ := Option.map_eq_some_iff.1 hstep
        have h₁ : CallInv s₁ := h.beginCall hs₁ fun t c j _ hcall => by cases hcall
        exact h₁
      · rename_i start k todo _
        cases ht : s.threads[k]? with
        | none => simp [ht] at hstep
        | some t =>
            simp only [ht] at hstep
            split at hstep <;> cases hstep
            exact h
      · cases hstep
        exact h
      · cases hstep

/-- A thread in an operation can always take its next step. -/
theorem threadStep_isSome {s : Completion} (hpointer : PointerInv s) (hcalls : CallInv s)
    {k : Nat} {t : BatchThread} (ht : s.threads[k]? = some t) (hbusy : t.idle = false) :
    (Streamer.threadStep s k).isSome := by
  simp only [Streamer.threadStep, ht]
  cases hfinishing : t.finishing with
  | no =>
      simp only [callStep]
      cases hcall : t.call with
      | none =>
          rw [BatchThread.idle_iff.2 ⟨hcall, hfinishing⟩] at hbusy
          cases hbusy
      | finishedUntil fileOffset ret i =>
          simp only
          split
          · split <;> rfl
          · rfl
      | handleTaskResponse code i =>
          have hlt := hcalls k t code i ht hcall
          simp [List.getElem?_eq_getElem hlt]
      | handleError code i =>
          simp only
          split
          · rfl
          · split <;> rfl
  | storing p code =>
      obtain ⟨r, hr, -⟩ := hpointer k t p ht (Or.inl (by rw [hfinishing]; rfl))
      simp [storeStep, hr]
  | decrementing p =>
      obtain ⟨r, hr, -⟩ := hpointer k t p ht (Or.inl (by rw [hfinishing]; rfl))
      simp [decrementStep, hr]
  | pushing p =>
      obtain ⟨r, hr, -⟩ := hpointer k t p ht (Or.inl (by rw [hfinishing]; rfl))
      simp [pushStep, hr]

/-- The drain goes on, or waits for the batch that it is failing. -/
theorem drain_progress {s : Completion} (h : DrainInv s) {start : Nat} {current : Option Nat}
    {todo : List Nat} (hdispatch : s.dispatch = .draining start current todo) :
    (Streamer.drainStep s).isSome ∨
      ∃ k t, current = some k ∧ s.threads[k]? = some t ∧ t.idle = false := by
  obtain ⟨htodo, hcurrent⟩ := h.todo start current todo hdispatch
  cases current with
  | some k =>
      obtain ⟨t, ht, -⟩ := hcurrent k rfl
      by_cases hidle : t.idle = true
      · exact Or.inl (by simp [Streamer.drainStep, hdispatch, ht, hidle])
      · exact Or.inr ⟨k, t, rfl, ht, by simpa using hidle⟩
  | none =>
      cases todo with
      | nil => exact Or.inl (by simp [Streamer.drainStep, hdispatch])
      | cons k todo =>
          obtain ⟨t, ht, hle⟩ := htodo k List.mem_cons_self
          have hkept := h.kept k t ht (by simp [hdispatch, Dispatch.handedOver, hle])
          rw [hdispatch] at hkept
          rcases hkept with ⟨hcurrent, -⟩ | ⟨-, hidle, -⟩
          · cases hcurrent
          · exact Or.inl (by simp [Streamer.drainStep, hdispatch, Streamer.beginCall, ht, hidle])

end Streamer
end ModelStreamer
