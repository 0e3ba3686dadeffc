import ModelStreamer.Streamer.Completion
import ModelStreamer.Streamer.SubmissionTiling

/-!
# What a step of a submission can do

Every step of the system has one of six effects, and the invariant about counters is proved
once per effect.  It says, for every request, what its counter still stands for: the tasks
whose flag is not set and the threads between the flag and the decrement.  A counter at zero
has exactly one push, made or about to be made.

Main results:

- Theorem {lit}`completionStep_effect`: what one step of the system can do.
- Theorem {lit}`CounterInv.effect`: every effect keeps what the counters stand for.
-/

namespace ModelStreamer
namespace Streamer

open Common Lib

/-! ## What a thread contributes to a request -/

/-- The tasks of the request whose flag is not set. -/
def openFor (p : Nat) (t : BatchThread) : Nat :=
  t.batch.tasks.countP fun task => task.request = p && !task.finished

/-- The thread is between the flag and the decrement for the request. -/
def insideFor (p : Nat) : Finishing → Nat
  | .storing q _ => if q = p then 1 else 0
  | .decrementing q => if q = p then 1 else 0
  | _ => 0

/-- The thread is about to push the response of the request. -/
def pushesNext (p : Nat) : Finishing → Nat
  | .pushing q => if q = p then 1 else 0
  | _ => 0

/-- The pushes of the request that the thread is about to make. -/
def pushingFor (p : Nat) (t : BatchThread) : Nat :=
  pushesNext p t.finishing

/-- What the thread still owes to the counter of the request. -/
def owedFor (p : Nat) (t : BatchThread) : Nat :=
  openFor p t + insideFor p t.finishing

/-- A sum over all threads. -/
def Completion.total (s : Completion) (f : BatchThread → Nat) : Nat :=
  (s.threads.map f).sum

/-- The responses pushed for a request. -/
def Completion.responses (s : Completion) (p : Nat) : List Pushed :=
  s.pushed.filter fun e => e.request = p

theorem total_setThread {s : Completion} {k : Nat} {t : BatchThread}
    (ht : s.threads[k]? = some t) (t' : BatchThread) (f : BatchThread → Nat) :
    (s.setThread k t').total f + f t = s.total f + f t' :=
  sum_map_set ht t' f

/-! ## What a step can do -/

/-- The thread keeps its tasks and its place in the finishing of a task. -/
structure SameWork (t t' : BatchThread) : Prop where
  workload_eq : t'.workload = t.workload
  tasks_eq : t'.batch.tasks = t.batch.tasks
  finishing_eq : t'.finishing = t.finishing
  fileIndex_eq : t'.batch.fileIndex = t.batch.fileIndex
  submissionId_eq : t'.batch.submissionId = t.batch.submissionId

/-- The effects of a step on requests, tasks and responses. -/
inductive Effect (s : Completion) : Completion → Prop
  /-- Only the dispatching thread moved. -/
  | control (d : Dispatch) : Effect s { s with dispatch := d }
  /-- An operation was entered, moved on or left. -/
  | quiet {k : Nat} {t t' : BatchThread} (d : Dispatch) :
      s.threads[k]? = some t → SameWork t t' →
      Effect s { s.setThread k t' with dispatch := d }
  /-- The flag of a task was set. -/
  | flag {k i : Nat} {t : BatchThread} {task : Task} (code : ResponseCode)
      (next : BatchCall) :
      s.threads[k]? = some t → t.finishing = .no → t.batch.tasks[i]? = some task →
      task.finished = false → Effect s (finishTask s k t i task code next)
  /-- An error was stored. -/
  | store {k p : Nat} {t : BatchThread} {r : Request} {code : ResponseCode} :
      s.threads[k]? = some t → t.finishing = .storing p code → s.heap[p]? = some r →
      Effect s ((s.setRequest p { r with ret := code }).setThread k
        { t with finishing := .decrementing p })
  /-- A counter was decremented. -/
  | decrement {k p : Nat} {t : BatchThread} {r : Request} :
      s.threads[k]? = some t → t.finishing = .decrementing p → s.heap[p]? = some r →
      Effect s ((s.setRequest p { r with tasks := wordSub 32 r.tasks 1 }).setThread k
        { t with finishing := if r.tasks = 1 then .pushing p else .no })
  /-- A response was pushed. -/
  | push {k p : Nat} {t : BatchThread} {r : Request} :
      s.threads[k]? = some t → t.finishing = .pushing p → s.heap[p]? = some r →
      Effect s { s.setThread k { t with finishing := .no } with
        pushed := s.pushed ++ [⟨p, t.batch.response r, r.bytesize⟩] }

/-- Setting one thread and keeping the dispatch is a quiet effect. -/
theorem Effect.ofSetThread {s : Completion} {k : Nat} {t t' : BatchThread}
    (ht : s.threads[k]? = some t) (hsame : SameWork t t') : Effect s (s.setThread k t') :=
  Effect.quiet s.dispatch ht hsame

theorem finishTask_effect {s : Completion} {k i : Nat} {t : BatchThread} {task : Task}
    (code : ResponseCode) (next : BatchCall) (ht : s.threads[k]? = some t)
    (hno : t.finishing = .no) (htask : t.batch.tasks[i]? = some task) :
    Effect s (finishTask s k t i task code next) := by
  by_cases hfinished : task.finished = true
  · rw [finishTask, if_pos hfinished]
    exact Effect.ofSetThread ht ⟨rfl, rfl, rfl, rfl, rfl⟩
  · exact Effect.flag code next ht hno htask (by simpa using hfinished)

theorem callStep_effect {s s' : Completion} {k : Nat} {t : BatchThread}
    (ht : s.threads[k]? = some t) (hno : t.finishing = .no)
    (h : callStep s k t = some s') : Effect s s' := by
  unfold callStep at h
  split at h
  · cases h
  · rename_i fileOffset ret i _
    cases htask : t.batch.tasks[i]? with
    | none =>
        simp only [htask, Option.some.injEq] at h
        subst h
        exact Effect.ofSetThread ht ⟨rfl, rfl, rfl, rfl, rfl⟩
    | some task =>
        simp only [htask] at h
        split at h
        · cases h
          exact Effect.ofSetThread ht ⟨rfl, rfl, rfl, rfl, rfl⟩
        · cases h
          exact finishTask_effect ret _ ht hno htask
  · rename_i code i _
    cases htask : t.batch.tasks[i]? with
    | none => simp [htask] at h
    | some task =>
        simp only [htask, Option.some.injEq] at h
        subst h
        exact finishTask_effect code _ ht hno htask
  · rename_i code i _
    split at h
    · cases h
      exact Effect.ofSetThread ht ⟨rfl, rfl, rfl, rfl, rfl⟩
    · cases htask : t.batch.tasks[i]? with
      | none =>
          simp only [htask, Option.some.injEq] at h
          subst h
          exact Effect.ofSetThread ht ⟨rfl, rfl, rfl, rfl, rfl⟩
      | some task =>
          simp only [htask, Option.some.injEq] at h
          subst h
          exact finishTask_effect code _ ht hno htask

theorem threadStep_effect {s s' : Completion} {k : Nat} (h : threadStep s k = some s') :
    Effect s s' := by
  unfold threadStep at h
  cases ht : s.threads[k]? with
  | none => simp [ht] at h
  | some t =>
      simp only [ht] at h
      cases hfinishing : t.finishing with
      | no =>
          simp only [hfinishing] at h
          exact callStep_effect ht hfinishing h
      | storing p code =>
          simp only [hfinishing, storeStep] at h
          cases hr : s.heap[p]? with
          | none => simp [hr] at h
          | some r =>
              simp only [hr, Option.some.injEq] at h
              subst h
              exact Effect.store ht hfinishing hr
      | decrementing p =>
          simp only [hfinishing, decrementStep] at h
          cases hr : s.heap[p]? with
          | none => simp [hr] at h
          | some r =>
              simp only [hr, Option.some.injEq] at h
              subst h
              exact Effect.decrement ht hfinishing hr
      | pushing p =>
          simp only [hfinishing, pushStep] at h
          cases hr : s.heap[p]? with
          | none => simp [hr] at h
          | some r =>
              simp only [hr, Option.some.injEq] at h
              subst h
              exact Effect.push ht hfinishing hr

theorem beginCall_some {s s' : Completion} {k : Nat} {allowed : BatchThread → Bool}
    {call : BatchThread → BatchCall} (h : beginCall s k allowed call = some s') :
    ∃ t, s.threads[k]? = some t ∧ t.idle = true ∧ allowed t = true ∧
      s' = s.setThread k { t with call := call t } := by
  unfold beginCall at h
  cases ht : s.threads[k]? with
  | none => simp [ht] at h
  | some t =>
      simp only [ht] at h
      split at h
      · rename_i hcond
        simp only [Bool.and_eq_true] at hcond
        cases h
        exact ⟨t, rfl, hcond.1, hcond.2, rfl⟩
      · cases h

/-- Every step of the system has one of the effects. -/
theorem completionStep_effect {s s' : Completion} {action : Action}
    (h : completionStep s action = some s') : Effect s s' := by
  have hbegin : ∀ {k : Nat} {allowed : BatchThread → Bool} {call : BatchThread → BatchCall},
      beginCall s k allowed call = some s' → Effect s s' := by
    intro k allowed call hcall
    obtain ⟨t, ht, -, -, rfl⟩ := beginCall_some hcall
    exact Effect.ofSetThread ht ⟨rfl, rfl, rfl, rfl, rfl⟩
  cases action with
  | finishedUntil k fileOffset ret => exact hbegin h
  | handleTaskResponse k code i => exact hbegin h
  | handleError k code => exact hbegin h
  | step k => exact threadStep_effect h
  | dispatch =>
      simp only [completionStep] at h
      split at h
      · split at h <;> cases h <;> exact Effect.control _
      · cases h
  | throwing =>
      simp only [completionStep] at h
      split at h
      · split at h <;> cases h
        exact Effect.control _
      · cases h
  | drain =>
      simp only [completionStep, drainStep] at h
      split at h
      · obtain ⟨s₁, hs₁, rfl⟩ := Option.map_eq_some_iff.1 h
        obtain ⟨t, ht, -, -, rfl⟩ := beginCall_some hs₁
        exact Effect.quiet _ ht ⟨rfl, rfl, rfl, rfl, rfl⟩
      · rename_i start k todo _
        cases ht : s.threads[k]? with
        | none => simp [ht] at h
        | some t =>
            simp only [ht] at h
            split at h <;> cases h
            exact Effect.control _
      · cases h
        exact Effect.control _
      · cases h

/-! ## Contributions along a step -/

theorem SameWork.owedFor_eq {t t' : BatchThread} (h : SameWork t t') (p : Nat) :
    owedFor p t' = owedFor p t := by
  rw [owedFor, owedFor, openFor, openFor, h.tasks_eq, h.finishing_eq]

/-- Setting a flag moves one open task of the request between flag and decrement. -/
theorem owedFor_flag {t : BatchThread} {i : Nat} {task : Task} (code : ResponseCode)
    (next : BatchCall) (hno : t.finishing = .no) (htask : t.batch.tasks[i]? = some task)
    (hopen : task.finished = false) (p : Nat) :
    owedFor p { t with
      batch := t.batch.flag i task
      call := next
      finishing := Finishing.start task.request code } = owedFor p t := by
  have hcount := countP_set htask { task with finished := true }
    fun task => task.request = p && !task.finished
  have hinside : insideFor p (Finishing.start task.request code) =
      if task.request = p then 1 else 0 := by
    unfold Finishing.start
    split <;> rfl
  rw [owedFor, owedFor, hno]
  simp only [openFor, Batch.flag, hinside]
  simp only [insideFor]
  simp only [hopen, Bool.not_false, Bool.and_true, decide_eq_true_eq, Bool.not_true,
    Bool.and_false, Bool.false_eq_true, if_false] at hcount
  omega

/-- The state after a flag was set. -/
theorem finishTask_eq {s : Completion} {k i : Nat} {t : BatchThread} {task : Task}
    (code : ResponseCode) (next : BatchCall) (hopen : task.finished = false) :
    finishTask s k t i task code next =
      { s.setThread k
          { t with
            batch := t.batch.flag i task
            call := next
            finishing := Finishing.start task.request code } with
        finishes := s.finishes ++ [⟨k, i, task.request, code⟩] } := by
  simp [finishTask, hopen]

/-! ## Counters and pushes -/

/-- What the counter of a request stands for, and when its response is pushed. -/
structure CounterInv (s : Completion) : Prop where
  counter_lt : ∀ (p : Nat) (r : Request), s.heap[p]? = some r → r.tasks < 2 ^ 32
  counter_eq : ∀ (p : Nat) (r : Request), s.heap[p]? = some r →
    r.tasks = s.total (owedFor p)
  pushes : ∀ (p : Nat) (r : Request), s.heap[p]? = some r →
    (s.responses p).length + s.total (pushingFor p) = if r.tasks = 0 then 1 else 0

/-- Counting the push of one more response. -/
theorem length_responses_concat (s : Completion) (e : Pushed) (p : Nat) :
    ((s.pushed ++ [e]).filter fun e => e.request = p).length =
      (s.responses p).length + if e.request = p then 1 else 0 := by
  simp only [Completion.responses, List.filter_append, List.length_append]
  by_cases h : e.request = p <;> simp [h]

/-- A thread between flag and decrement owes the counter something. -/
theorem one_le_total_owedFor {s : Completion} {k p : Nat} {t : BatchThread}
    (ht : s.threads[k]? = some t) (hinside : insideFor p t.finishing = 1) :
    1 ≤ s.total (owedFor p) := by
  have hle := le_sum_map_of_getElem? ht (owedFor p)
  have howed : owedFor p t = openFor p t + 1 := by rw [owedFor, hinside]
  unfold Completion.total
  omega

/-- A step that changes no counter and no contribution keeps the invariant. -/
theorem CounterInv.keep {s s' : Completion} (h : CounterInv s)
    (hheap : ∀ (p : Nat) (r : Request), s'.heap[p]? = some r →
      ∃ r₀, s.heap[p]? = some r₀ ∧ r.tasks = r₀.tasks)
    (howed : ∀ p, s'.total (owedFor p) = s.total (owedFor p))
    (hpushing : ∀ p, s'.total (pushingFor p) = s.total (pushingFor p))
    (hpushed : s'.pushed = s.pushed) : CounterInv s' := by
  refine ⟨?_, ?_, ?_⟩
  · intro p r hr
    obtain ⟨r₀, hr₀, heq⟩ := hheap p r hr
    rw [heq]
    exact h.counter_lt p r₀ hr₀
  · intro p r hr
    obtain ⟨r₀, hr₀, heq⟩ := hheap p r hr
    rw [heq, howed]
    exact h.counter_eq p r₀ hr₀
  · intro p r hr
    obtain ⟨r₀, hr₀, heq⟩ := hheap p r hr
    rw [heq, hpushing, Completion.responses, hpushed]
    exact h.pushes p r₀ hr₀

/-- Storing an error changes no counter and no contribution. -/
theorem CounterInv.store {s : Completion} (h : CounterInv s) {k p : Nat} {t : BatchThread}
    {r : Request} {code : ResponseCode} (ht : s.threads[k]? = some t)
    (hstoring : t.finishing = .storing p code) (hr : s.heap[p]? = some r) :
    CounterInv ((s.setRequest p { r with ret := code }).setThread k
      { t with finishing := .decrementing p }) := by
  refine h.keep ?_ ?_ ?_ rfl
  · intro q r' hr'
    simp only [Completion.setThread, Completion.setRequest, getElem?_set_of_some hr] at hr'
    by_cases hq : q = p
    · rw [if_pos hq, Option.some.injEq] at hr'
      exact ⟨r, hq ▸ hr, by rw [← hr']⟩
    · rw [if_neg hq] at hr'
      exact ⟨r', hr', rfl⟩
  · intro q
    have hsum := total_setThread ht { t with finishing := .decrementing p } (owedFor q)
    have hsame : owedFor q { t with finishing := .decrementing p } = owedFor q t := by
      rw [owedFor, owedFor, hstoring]
      rfl
    exact Nat.add_right_cancel (hsame ▸ hsum)
  · intro q
    have hsum := total_setThread ht { t with finishing := .decrementing p } (pushingFor q)
    have hsame : pushingFor q { t with finishing := .decrementing p } = pushingFor q t := by
      rw [pushingFor, pushingFor, hstoring]
      rfl
    exact Nat.add_right_cancel (hsame ▸ hsum)

/-- A decrement takes off what the thread owed; the last one announces the push. -/
theorem CounterInv.decrement {s : Completion} (h : CounterInv s) {k p : Nat}
    {t : BatchThread} {r : Request} (ht : s.threads[k]? = some t)
    (hdecrementing : t.finishing = .decrementing p) (hr : s.heap[p]? = some r) :
    CounterInv ((s.setRequest p { r with tasks := wordSub 32 r.tasks 1 }).setThread k
      { t with finishing := if r.tasks = 1 then .pushing p else .no }) := by
  have hinside : ∀ q, insideFor q t.finishing = if p = q then 1 else 0 := by
    intro q
    rw [hdecrementing]
    rfl
  have hone := one_le_total_owedFor ht (p := p) (by rw [hinside]; exact if_pos rfl)
  have hcounter := h.counter_eq p r hr
  have hlt := h.counter_lt p r hr
  have hword : wordSub 32 r.tasks 1 = r.tasks - 1 := wordSub_of_le (by omega) hlt
  generalize ht' : { t with finishing := if r.tasks = 1 then Finishing.pushing p else .no } = t'
  have howed : ∀ q, owedFor q t = owedFor q t' + if p = q then 1 else 0 := by
    intro q
    have hnext : insideFor q t'.finishing = 0 := by
      rw [← ht']
      simp only
      split <;> rfl
    rw [owedFor, owedFor, hinside, hnext, ← ht']
    rfl
  have hpushing : ∀ q, pushingFor q t = 0 := by
    intro q
    rw [pushingFor, hdecrementing]
    rfl
  have hpushing' : ∀ q, pushingFor q t' = if r.tasks = 1 ∧ p = q then 1 else 0 := by
    intro q
    rw [← ht', pushingFor]
    by_cases h1 : r.tasks = 1 <;> simp [h1, pushesNext]
  have howedsum := fun q => total_setThread ht t' (owedFor q)
  have hpushsum := fun q => total_setThread ht t' (pushingFor q)
  have hget : ∀ (q : Nat) (r' : Request),
      ((s.setRequest p { r with tasks := wordSub 32 r.tasks 1 }).setThread k t').heap[q]? =
        some r' → (q = p ∧ r'.tasks = r.tasks - 1) ∨ (q ≠ p ∧ s.heap[q]? = some r') := by
    intro q r' hr'
    simp only [Completion.setThread, Completion.setRequest, getElem?_set_of_some hr] at hr'
    by_cases hq : q = p
    · rw [if_pos hq, Option.some.injEq] at hr'
      exact Or.inl ⟨hq, by rw [← hr', ← hword]⟩
    · rw [if_neg hq] at hr'
      exact Or.inr ⟨hq, hr'⟩
  refine ⟨?_, ?_, ?_⟩
  · intro q r' hr'
    rcases hget q r' hr' with ⟨-, htasks⟩ | ⟨-, hold⟩
    · omega
    · exact h.counter_lt q r' hold
  · intro q r' hr'
    have hsum := howedsum q
    have hq := howed q
    change r'.tasks = (s.setThread k t').total (owedFor q)
    rcases hget q r' hr' with ⟨rfl, htasks⟩ | ⟨hne, hold⟩
    · rw [if_pos rfl] at hq
      omega
    · have hold' := h.counter_eq q r' hold
      rw [if_neg (Ne.symm hne)] at hq
      omega
  · intro q r' hr'
    have hsum := hpushsum q
    have hq := hpushing q
    have hq' := hpushing' q
    change (s.responses q).length + (s.setThread k t').total (pushingFor q) = _
    rcases hget q r' hr' with ⟨rfl, htasks⟩ | ⟨hne, hold⟩
    · have hpushes := h.pushes q r hr
      rw [if_neg (by omega)] at hpushes
      rw [htasks]
      by_cases h1 : r.tasks = 1
      · rw [if_pos ⟨h1, rfl⟩] at hq'
        rw [if_pos (by omega)]
        omega
      · rw [if_neg (fun hand => h1 hand.1)] at hq'
        rw [if_neg (by omega)]
        omega
    · have hpushes := h.pushes q r' hold
      rw [if_neg (fun hand => hne hand.2.symm)] at hq'
      omega

/-- A push turns the announced response into a response. -/
theorem CounterInv.push {s : Completion} (h : CounterInv s) {k p : Nat} {t : BatchThread}
    (response : Response) (bytesize : Nat) (ht : s.threads[k]? = some t)
    (hpushing : t.finishing = .pushing p) :
    CounterInv { s.setThread k { t with finishing := .no } with
      pushed := s.pushed ++ [⟨p, response, bytesize⟩] } := by
  refine ⟨h.counter_lt, ?_, ?_⟩
  · intro q r hr
    have hsum := total_setThread ht { t with finishing := .no } (owedFor q)
    have hsame : owedFor q { t with finishing := .no } = owedFor q t := by
      rw [owedFor, owedFor, hpushing]
      rfl
    have hold := h.counter_eq q r hr
    change r.tasks = (s.setThread k { t with finishing := .no }).total (owedFor q)
    omega
  · intro q r hr
    have hsum := total_setThread ht { t with finishing := .no } (pushingFor q)
    have hbefore : pushingFor q t = if p = q then 1 else 0 := by
      rw [pushingFor, hpushing]
      rfl
    have hafter : pushingFor q { t with finishing := .no } = 0 := rfl
    have hpushes := h.pushes q r hr
    have hlength := length_responses_concat s ⟨p, response, bytesize⟩ q
    change ((s.pushed ++ [Pushed.mk p response bytesize]).filter fun e : Pushed =>
      e.request = q).length + (s.setThread k { t with finishing := .no }).total (pushingFor q) = _
    simp only at hlength
    omega

/-- Every effect keeps what the counters stand for. -/
theorem CounterInv.effect {s s' : Completion} (h : CounterInv s) (heffect : Effect s s') :
    CounterInv s' := by
  cases heffect with
  | control d => exact ⟨h.counter_lt, h.counter_eq, h.pushes⟩
  | @quiet k t t' d ht hsame =>
      refine h.keep (fun p r hr => ⟨r, hr, rfl⟩) ?_ ?_ rfl
      · intro p
        have hsum := total_setThread ht t' (owedFor p)
        exact Nat.add_right_cancel (hsame.owedFor_eq p ▸ hsum)
      · intro p
        have hsum := total_setThread ht t' (pushingFor p)
        have heq : pushingFor p t' = pushingFor p t := by
          rw [pushingFor, pushingFor, hsame.finishing_eq]
        exact Nat.add_right_cancel (heq ▸ hsum)
  | @flag k i t task code next ht hno htask hopen =>
      rw [finishTask_eq code next hopen]
      refine h.keep (fun p r hr => ⟨r, hr, rfl⟩) ?_ ?_ rfl
      · intro p
        have hsum := total_setThread ht { t with
          batch := t.batch.flag i task
          call := next
          finishing := Finishing.start task.request code } (owedFor p)
        exact Nat.add_right_cancel (owedFor_flag code next hno htask hopen p ▸ hsum)
      · intro p
        have hsum := total_setThread ht { t with
          batch := t.batch.flag i task
          call := next
          finishing := Finishing.start task.request code } (pushingFor p)
        have hbefore : pushingFor p t = 0 := by
          rw [pushingFor, hno]
          rfl
        have hafter : pushesNext p (Finishing.start task.request code) = 0 := by
          unfold Finishing.start
          split <;> rfl
        rw [hbefore] at hsum
        simp only [pushingFor, hafter] at hsum
        exact hsum
  | store ht hstoring hr => exact h.store ht hstoring hr
  | decrement ht hdecrementing hr => exact h.decrement ht hdecrementing hr
  | push ht hpushing _ => exact h.push _ _ ht hpushing

end Streamer
end ModelStreamer
