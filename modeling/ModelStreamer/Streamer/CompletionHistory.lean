import ModelStreamer.Streamer.CompletionSpec

/-!
# What was finished, and with which code

The history of first finishes along a run.  Each task has at most one entry, exactly the
flagged tasks have one, and the code kept in a request is the code of one of its entries.
A response is read from its request only when no thread can still store a code there.

Main results:

- Theorem {lit}`HistoryInv.effect`: flags and history agree along every step.
- Theorem {lit}`CodeInv.effect`: so do stored codes and history.
- Theorem {lit}`PointerInv.effect`: threads work for requests of their own file.
- Theorem {lit}`AnswerInv.effect`: an answered request no longer changes.
-/

namespace ModelStreamer
namespace Streamer

open Common Lib

/-! ## Reading a state back after a change -/

theorem setThread_cases {s : Completion} {k j : Nat} {t t' u : BatchThread}
    (ht : s.threads[k]? = some t) (hu : (s.setThread k t').threads[j]? = some u) :
    (j = k ∧ u = t') ∨ (j ≠ k ∧ s.threads[j]? = some u) := by
  simp only [Completion.setThread, getElem?_set_of_some ht] at hu
  by_cases hj : j = k
  · rw [if_pos hj, Option.some.injEq] at hu
    exact Or.inl ⟨hj, hu.symm⟩
  · rw [if_neg hj] at hu
    exact Or.inr ⟨hj, hu⟩

theorem setThread_self {s : Completion} {k : Nat} {t t' : BatchThread}
    (ht : s.threads[k]? = some t) : (s.setThread k t').threads[k]? = some t' := by
  simp [Completion.setThread, getElem?_set_of_some ht]

theorem setThread_other {s : Completion} {k j : Nat} {t t' : BatchThread}
    (ht : s.threads[k]? = some t) (hj : j ≠ k) :
    (s.setThread k t').threads[j]? = s.threads[j]? := by
  simp [Completion.setThread, getElem?_set_of_some ht, hj]

theorem setRequest_cases {s : Completion} {p q : Nat} {r r' x : Request}
    (hr : s.heap[p]? = some r) (hx : (s.setRequest p r').heap[q]? = some x) :
    (q = p ∧ x = r') ∨ (q ≠ p ∧ s.heap[q]? = some x) := by
  simp only [Completion.setRequest, getElem?_set_of_some hr] at hx
  by_cases hq : q = p
  · rw [if_pos hq, Option.some.injEq] at hx
    exact Or.inl ⟨hq, hx.symm⟩
  · rw [if_neg hq] at hx
    exact Or.inr ⟨hq, hx⟩

theorem setRequest_self {s : Completion} {p : Nat} {r r' : Request}
    (hr : s.heap[p]? = some r) : (s.setRequest p r').heap[p]? = some r' := by
  simp [Completion.setRequest, getElem?_set_of_some hr]

theorem setRequest_other {s : Completion} {p q : Nat} {r r' : Request}
    (hr : s.heap[p]? = some r) (hq : q ≠ p) :
    (s.setRequest p r').heap[q]? = s.heap[q]? := by
  simp [Completion.setRequest, getElem?_set_of_some hr, hq]

/-! ## Tasks along a step -/

/-- The task at a position of a thread's batch. -/
def TaskAt (s : Completion) (k i : Nat) (task : Task) : Prop :=
  ∃ t, s.threads[k]? = some t ∧ t.batch.tasks[i]? = some task

theorem TaskAt.unique {s : Completion} {k i : Nat} {task task' : Task}
    (h : TaskAt s k i task) (h' : TaskAt s k i task') : task = task' := by
  obtain ⟨t, ht, htask⟩ := h
  obtain ⟨t', ht', htask'⟩ := h'
  obtain rfl : t = t' := Option.some.inj (ht.symm.trans ht')
  exact Option.some.inj (htask.symm.trans htask')

/-- A thread that keeps its tasks keeps the tasks of the state. -/
theorem taskAt_setThread {s : Completion} {k : Nat} {t t' : BatchThread}
    (ht : s.threads[k]? = some t) (htasks : t'.batch.tasks = t.batch.tasks) (j i : Nat)
    (task : Task) : TaskAt (s.setThread k t') j i task ↔ TaskAt s j i task := by
  by_cases hj : j = k
  · subst hj
    constructor
    · rintro ⟨u, hu, htask⟩
      obtain rfl := Option.some.inj ((setThread_self ht).symm.trans hu)
      exact ⟨t, ht, htasks ▸ htask⟩
    · rintro ⟨u, hu, htask⟩
      obtain rfl := Option.some.inj (ht.symm.trans hu)
      exact ⟨t', setThread_self ht, htasks ▸ htask⟩
  · simp only [TaskAt, setThread_other ht hj]

/-- A step sets the flag of one task, and records it, or leaves all tasks alone. -/
inductive TaskEffect (s s' : Completion) : Prop
  | same : (∀ k i task, TaskAt s' k i task ↔ TaskAt s k i task) →
      s'.finishes = s.finishes → TaskEffect s s'
  | flagged (k i : Nat) (task : Task) (code : ResponseCode) : TaskAt s k i task →
      task.finished = false → s'.finishes = s.finishes ++ [⟨k, i, task.request, code⟩] →
      TaskAt s' k i { task with finished := true } →
      (∀ j l x, ¬ (j = k ∧ l = i) → (TaskAt s' j l x ↔ TaskAt s j l x)) → TaskEffect s s'

/-- The tasks after one flag was set. -/
theorem taskAt_flag {s : Completion} {k i : Nat} {t : BatchThread} {task : Task}
    (call : BatchCall) (finishing : Finishing) (ht : s.threads[k]? = some t)
    (htask : t.batch.tasks[i]? = some task) :
    TaskAt (s.setThread k
        { t with batch := t.batch.flag i task, call := call, finishing := finishing }) k i
        { task with finished := true } ∧
      ∀ j l x, ¬ (j = k ∧ l = i) →
        (TaskAt (s.setThread k
          { t with batch := t.batch.flag i task, call := call, finishing := finishing }) j l x ↔
            TaskAt s j l x) := by
  have hset : ∀ l, (t.batch.flag i task).tasks[l]? =
      if l = i then some { task with finished := true } else t.batch.tasks[l]? :=
    fun l => getElem?_set_of_some htask _ l
  refine ⟨⟨_, setThread_self ht, by rw [hset, if_pos rfl]⟩, ?_⟩
  intro j l x hne
  by_cases hj : j = k
  · subst hj
    have hl : l ≠ i := fun hl => hne ⟨rfl, hl⟩
    constructor
    · rintro ⟨u, hu, hx⟩
      obtain rfl := Option.some.inj ((setThread_self ht).symm.trans hu)
      rw [hset, if_neg hl] at hx
      exact ⟨t, ht, hx⟩
    · rintro ⟨u, hu, hx⟩
      obtain rfl := Option.some.inj (ht.symm.trans hu)
      exact ⟨_, setThread_self ht, by rw [hset, if_neg hl]; exact hx⟩
  · simp only [TaskAt, setThread_other ht hj]

/-- What a step does to the tasks. -/
theorem Effect.taskEffect {s s' : Completion} (h : Effect s s') : TaskEffect s s' := by
  cases h with
  | control d => exact TaskEffect.same (fun _ _ _ => Iff.rfl) rfl
  | quiet d ht hsame => exact TaskEffect.same (taskAt_setThread ht hsame.tasks_eq) rfl
  | @flag k i t task code next ht hno htask hopen =>
      rw [finishTask_eq code next hopen]
      obtain ⟨hself, hother⟩ := taskAt_flag next (Finishing.start task.request code) ht htask
      exact TaskEffect.flagged k i task code ⟨t, ht, htask⟩ hopen rfl hself hother
  | @store k p t r code ht hstoring hr =>
      exact TaskEffect.same
        (taskAt_setThread (s := s.setRequest p { r with ret := code }) ht rfl) rfl
  | @decrement k p t r ht hdecrementing hr =>
      exact TaskEffect.same
        (taskAt_setThread (s := s.setRequest p { r with tasks := wordSub 32 r.tasks 1 }) ht rfl)
        rfl
  | push ht hpushing hr => exact TaskEffect.same (taskAt_setThread ht rfl) rfl

/-! ## Flags and history -/

/-- Exactly the flagged tasks are in the history, each of them once. -/
structure HistoryInv (s : Completion) : Prop where
  recorded : ∀ k i task, TaskAt s k i task → task.finished = true →
    ∃ code, ⟨k, i, task.request, code⟩ ∈ s.finishes
  flagged : ∀ f ∈ s.finishes, ∃ task, TaskAt s f.thread f.task task ∧
    task.finished = true ∧ task.request = f.request
  once : s.finishes.Pairwise fun f g => ¬ (f.thread = g.thread ∧ f.task = g.task)

theorem HistoryInv.effect {s s' : Completion} (h : HistoryInv s) (heffect : Effect s s') :
    HistoryInv s' := by
  cases heffect.taskEffect with
  | same htasks hfinishes =>
      refine ⟨?_, ?_, by rw [hfinishes]; exact h.once⟩
      · intro k i task hat hflag
        rw [hfinishes]
        exact h.recorded k i task ((htasks k i task).1 hat) hflag
      · intro f hf
        rw [hfinishes] at hf
        obtain ⟨task, hat, hrest⟩ := h.flagged f hf
        exact ⟨task, (htasks _ _ _).2 hat, hrest⟩
  | flagged k i task code hat hopen hfinishes hself hother =>
      refine ⟨?_, ?_, ?_⟩
      · intro j l x hx hflag
        rw [hfinishes]
        by_cases hsame : j = k ∧ l = i
        · obtain ⟨rfl, rfl⟩ := hsame
          obtain rfl := hx.unique hself
          exact ⟨code, by simp⟩
        · obtain ⟨c, hc⟩ := h.recorded j l x ((hother j l x hsame).1 hx) hflag
          exact ⟨c, List.mem_append_left _ hc⟩
      · intro f hf
        rw [hfinishes, List.mem_append, List.mem_singleton] at hf
        rcases hf with hf | rfl
        · obtain ⟨x, hx, hflag, hrequest⟩ := h.flagged f hf
          have hne : ¬ (f.thread = k ∧ f.task = i) := by
            rintro ⟨hk, hi⟩
            rw [hk, hi] at hx
            rw [hx.unique hat, hopen] at hflag
            cases hflag
          exact ⟨x, (hother _ _ _ hne).2 hx, hflag, hrequest⟩
        · exact ⟨_, hself, rfl, rfl⟩
      · rw [hfinishes]
        refine List.pairwise_append.2 ⟨h.once, List.pairwise_singleton _ _, ?_⟩
        intro f hf g hg
        rw [List.mem_singleton] at hg
        subst hg
        rintro ⟨hk, hi⟩
        obtain ⟨x, hx, hflag, -⟩ := h.flagged f hf
        rw [show f.thread = k from hk, show f.task = i from hi] at hx
        rw [hx.unique hat, hopen] at hflag
        cases hflag

/-- An entry of the history is determined by its task. -/
theorem HistoryInv.unique {s : Completion} (h : HistoryInv s) {f g : Finish}
    (hf : f ∈ s.finishes) (hg : g ∈ s.finishes) (hthread : f.thread = g.thread)
    (htask : f.task = g.task) : f = g := by
  by_contra hne
  have hsymm : Std.Symm fun f g : Finish => ¬ (f.thread = g.thread ∧ f.task = g.task) :=
    ⟨fun _ _ hne hand => hne ⟨hand.1.symm, hand.2.symm⟩⟩
  exact h.once.forall hf hg hne ⟨hthread, htask⟩

/-! ## Codes -/

/-- The codes in the requests and those still to be stored come from the history. -/
structure CodeInv (s : Completion) : Prop where
  ret_of : ∀ (p : Nat) (r : Request), s.heap[p]? = some r → r.ret ≠ .success →
    ∃ f ∈ s.finishes, f.request = p ∧ f.code = r.ret
  stored : ∀ f ∈ s.finishes, f.code ≠ .success →
    (∀ r : Request, s.heap[f.request]? = some r → r.ret ≠ .success) ∨
      ∃ t : BatchThread, s.threads[f.thread]? = some t ∧
        t.finishing = .storing f.request f.code
  storing : ∀ (k : Nat) (t : BatchThread) (p : Nat) (code : ResponseCode),
    s.threads[k]? = some t → t.finishing = .storing p code →
    code ≠ .success ∧ ∃ f ∈ s.finishes, f.request = p ∧ f.code = code

/-- A thread that is not storing, before and after, keeps the codes. -/
theorem CodeInv.setThread {s : Completion} (h : CodeInv s) {k : Nat} {t t' : BatchThread}
    (ht : s.threads[k]? = some t)
    (hsame : ∀ p code, t'.finishing = .storing p code ↔ t.finishing = .storing p code) :
    CodeInv (s.setThread k t') := by
  refine ⟨h.ret_of, ?_, ?_⟩
  · intro f hf hcode
    rcases h.stored f hf hcode with hret | ⟨u, hu, hstoring⟩
    · exact Or.inl hret
    · refine Or.inr ?_
      by_cases hk : f.thread = k
      · rw [hk] at hu ⊢
        obtain rfl := Option.some.inj (ht.symm.trans hu)
        exact ⟨t', setThread_self ht, (hsame _ _).2 hstoring⟩
      · exact ⟨u, by rw [setThread_other ht hk]; exact hu, hstoring⟩
  · intro j u p code hu hstoring
    rcases setThread_cases ht hu with ⟨-, rfl⟩ | ⟨-, hold⟩
    · exact h.storing k t p code ht ((hsame p code).1 hstoring)
    · exact h.storing j u p code hold hstoring

/-- Setting a flag records the code that is stored next. -/
theorem CodeInv.flag {s : Completion} (h : CodeInv s) {k i : Nat} {t : BatchThread}
    {task : Task} (code : ResponseCode) (next : BatchCall) (ht : s.threads[k]? = some t)
    (hno : t.finishing = .no) (hopen : task.finished = false) :
    CodeInv (finishTask s k t i task code next) := by
  rw [finishTask_eq code next hopen]
  refine ⟨?_, ?_, ?_⟩
  · intro p r hr hret
    obtain ⟨f, hf, hrest⟩ := h.ret_of p r hr hret
    exact ⟨f, List.mem_append_left _ hf, hrest⟩
  · intro f hf hcode
    rcases List.mem_append.1 hf with hmem | hmem
    · rcases h.stored f hmem hcode with hret | ⟨u, hu, hstoring⟩
      · exact Or.inl hret
      · have hk : f.thread ≠ k := by
          intro hk
          rw [hk] at hu
          obtain rfl := Option.some.inj (ht.symm.trans hu)
          rw [hno] at hstoring
          cases hstoring
        exact Or.inr ⟨u, by rw [← hu]; exact setThread_other ht hk, hstoring⟩
    · rw [List.mem_singleton] at hmem
      subst hmem
      exact Or.inr ⟨_, setThread_self ht, if_neg hcode⟩
  · intro j u p c hu hstoring
    rcases setThread_cases ht hu with ⟨-, rfl⟩ | ⟨-, hold⟩
    · simp only [Finishing.start] at hstoring
      split at hstoring
      · cases hstoring
      · rename_i hcode
        cases hstoring
        exact ⟨hcode, _, List.mem_append_right _ (List.mem_singleton.2 rfl), rfl, rfl⟩
    · obtain ⟨hc, f, hf, hrest⟩ := h.storing j u p c hold hstoring
      exact ⟨hc, f, List.mem_append_left _ hf, hrest⟩

/-- Storing an error puts a code of the history into the request. -/
theorem CodeInv.store {s : Completion} (h : CodeInv s) {k p : Nat} {t : BatchThread}
    {r : Request} {code : ResponseCode} (ht : s.threads[k]? = some t)
    (hstoring : t.finishing = .storing p code) (hr : s.heap[p]? = some r) :
    CodeInv ((s.setRequest p { r with ret := code }).setThread k
      { t with finishing := .decrementing p }) := by
  obtain ⟨hcode, hentry⟩ := h.storing k t p code ht hstoring
  have hheap : ∀ (q : Nat) (x : Request),
      (s.setRequest p { r with ret := code }).heap[q]? = some x →
        (q = p ∧ x.ret = code) ∨ s.heap[q]? = some x := by
    intro q x hx
    rcases setRequest_cases hr hx with ⟨hq, rfl⟩ | ⟨-, hold⟩
    · exact Or.inl ⟨hq, rfl⟩
    · exact Or.inr hold
  refine ⟨?_, ?_, ?_⟩
  · intro q x hx hret
    rcases hheap q x hx with ⟨rfl, hxret⟩ | hold
    · rw [hxret]
      exact hentry
    · exact h.ret_of q x hold hret
  · intro f hf hfcode
    have hkeeps : (∀ x : Request, s.heap[f.request]? = some x → x.ret ≠ .success) →
        ∀ x : Request, (s.setRequest p { r with ret := code }).heap[f.request]? = some x →
          x.ret ≠ .success := by
      intro hret x hx
      rcases hheap f.request x hx with ⟨-, hxret⟩ | hold
      · rw [hxret]
        exact hcode
      · exact hret x hold
    rcases h.stored f hf hfcode with hret | ⟨u, hu, hustoring⟩
    · exact Or.inl (hkeeps hret)
    · by_cases hk : f.thread = k
      · rw [hk] at hu
        obtain rfl := Option.some.inj (ht.symm.trans hu)
        rw [hstoring] at hustoring
        injection hustoring with hp hc
        refine Or.inl fun x hx => ?_
        rw [← hp] at hx
        obtain rfl := Option.some.inj ((setRequest_self hr).symm.trans hx)
        exact hcode
      · exact Or.inr ⟨u, by rw [← hu]; exact setThread_other ht hk, hustoring⟩
  · intro j u q c hu hustoring
    rcases setThread_cases (s := s.setRequest p _) ht hu with ⟨-, rfl⟩ | ⟨-, hold⟩
    · cases hustoring
    · exact h.storing j u q c hold hustoring

/-- A step that keeps the codes in the requests keeps where they come from. -/
theorem CodeInv.congr {s s' : Completion} (h : CodeInv s)
    (hret : ∀ (p : Nat) (r : Request), s'.heap[p]? = some r →
      ∃ r₀ : Request, s.heap[p]? = some r₀ ∧ r.ret = r₀.ret)
    (hthreads : s'.threads = s.threads) (hfinishes : s'.finishes = s.finishes) :
    CodeInv s' := by
  refine ⟨?_, ?_, ?_⟩
  · intro p r hr hne
    obtain ⟨r₀, hr₀, heq⟩ := hret p r hr
    rw [hfinishes, heq]
    exact h.ret_of p r₀ hr₀ (heq ▸ hne)
  · intro f hf hcode
    rw [hfinishes] at hf
    rw [hthreads]
    rcases h.stored f hf hcode with hstored | hstoring
    · refine Or.inl fun r hr => ?_
      obtain ⟨r₀, hr₀, heq⟩ := hret f.request r hr
      rw [heq]
      exact hstored r₀ hr₀
    · exact Or.inr hstoring
  · rw [hthreads, hfinishes]
    exact h.storing

theorem CodeInv.effect {s s' : Completion} (h : CodeInv s) (heffect : Effect s s') :
    CodeInv s' := by
  have hsame : ∀ (p : Nat) (r : Request), s.heap[p]? = some r →
      ∃ r₀ : Request, s.heap[p]? = some r₀ ∧ r.ret = r₀.ret :=
    fun p r hr => ⟨r, hr, rfl⟩
  cases heffect with
  | control d => exact h.congr hsame rfl rfl
  | quiet d ht hwork =>
      exact (h.setThread ht fun p code => by rw [hwork.finishing_eq]).congr hsame rfl rfl
  | flag code next ht hno _ hopen => exact h.flag code next ht hno hopen
  | store ht hstoring hr => exact h.store ht hstoring hr
  | @decrement k p t r ht hdecrementing hr =>
      have hcodes : CodeInv (s.setRequest p { r with tasks := wordSub 32 r.tasks 1 }) := by
        refine h.congr ?_ rfl rfl
        intro q x hx
        rcases setRequest_cases hr hx with ⟨rfl, rfl⟩ | ⟨-, hold⟩
        · exact ⟨r, hr, rfl⟩
        · exact ⟨x, hold, rfl⟩
      refine hcodes.setThread ht fun q code => ?_
      rw [hdecrementing]
      split <;> simp
  | push ht hpushing _ =>
      exact (h.setThread ht fun p code => by rw [hpushing]; simp).congr hsame rfl rfl

/-! ## Requests along a step -/

/-- The same range: everything but the counter and the code. -/
def SameRange (r r' : Request) : Prop :=
  r' = { r with tasks := r'.tasks, ret := r'.ret }

theorem SameRange.refl (r : Request) : SameRange r r :=
  rfl

theorem SameRange.trans {a b c : Request} (hab : SameRange a b) (hbc : SameRange b c) :
    SameRange a c := by
  unfold SameRange at *
  rw [hbc, hab]

/-- A step keeps the ranges of the requests. -/
theorem Effect.sameRange {s s' : Completion} (h : Effect s s') {p : Nat} {r : Request}
    (hr : s.heap[p]? = some r) : ∃ r', s'.heap[p]? = some r' ∧ SameRange r r' := by
  have hset : ∀ {q : Nat} {x x' : Request}, s.heap[q]? = some x → SameRange x x' →
      ∃ r', (s.setRequest q x').heap[p]? = some r' ∧ SameRange r r' := by
    intro q x x' hx hsame
    by_cases hp : p = q
    · subst hp
      obtain rfl := Option.some.inj (hr.symm.trans hx)
      exact ⟨x', setRequest_self hr, hsame⟩
    · exact ⟨r, (setRequest_other hx hp).trans hr, SameRange.refl r⟩
  cases h with
  | control d => exact ⟨r, hr, SameRange.refl r⟩
  | quiet d ht hwork => exact ⟨r, hr, SameRange.refl r⟩
  | flag code next ht hno _ hopen =>
      rw [finishTask_eq code next hopen]
      exact ⟨r, hr, SameRange.refl r⟩
  | store ht hstoring hq => exact hset hq rfl
  | decrement ht hdecrementing hq => exact hset hq rfl
  | push ht hpushing _ => exact ⟨r, hr, SameRange.refl r⟩

/-- The request a thread is finishing a task of. -/
def Finishing.target : Finishing → Option Nat
  | .no => none
  | .storing p _ => some p
  | .decrementing p => some p
  | .pushing p => some p

/-- The thread works for the request: a task of its batch belongs to it. -/
def WorksFor (t : BatchThread) (p : Nat) : Prop :=
  t.finishing.target = some p ∨ ∃ task ∈ t.batch.tasks, task.request = p

/-- The batch of a later thread state belongs to the same file and works for no more. -/
structure SameJob (t t' : BatchThread) : Prop where
  fileIndex_eq : t'.batch.fileIndex = t.batch.fileIndex
  works : ∀ p, WorksFor t' p → WorksFor t p

theorem SameJob.refl (t : BatchThread) : SameJob t t :=
  ⟨rfl, fun _ h => h⟩

/-- A step keeps what the threads work for. -/
theorem Effect.sameJob {s s' : Completion} (h : Effect s s') {j : Nat} {u' : BatchThread}
    (hu' : s'.threads[j]? = some u') : ∃ u, s.threads[j]? = some u ∧ SameJob u u' := by
  have hset : ∀ {k : Nat} {t t' : BatchThread}, s.threads[k]? = some t →
      (s.setThread k t').threads[j]? = some u' → SameJob t t' →
      ∃ u, s.threads[j]? = some u ∧ SameJob u u' := by
    intro k t t' ht hu hjob
    rcases setThread_cases ht hu with ⟨rfl, rfl⟩ | ⟨-, hold⟩
    · exact ⟨t, ht, hjob⟩
    · exact ⟨u', hold, SameJob.refl u'⟩
  cases h with
  | control d => exact ⟨u', hu', SameJob.refl u'⟩
  | @quiet k t t' d ht hwork =>
      refine hset ht hu' ⟨hwork.fileIndex_eq, ?_⟩
      intro p hp
      rw [WorksFor, hwork.finishing_eq, hwork.tasks_eq] at hp
      exact hp
  | @flag k i t task code next ht hno htask hopen =>
      rw [finishTask_eq code next hopen] at hu'
      refine hset ht hu' ⟨rfl, ?_⟩
      rintro p (htarget | ⟨x, hx, hxp⟩)
      · refine Or.inr ⟨task, List.mem_of_getElem? htask, ?_⟩
        simp only [Finishing.start] at htarget
        split at htarget <;> exact Option.some.inj htarget
      · rcases List.mem_or_eq_of_mem_set hx with hmem | rfl
        · exact Or.inr ⟨x, hmem, hxp⟩
        · exact Or.inr ⟨task, List.mem_of_getElem? htask, hxp⟩
  | @store k p t r code ht hstoring hr =>
      refine hset ht hu' ⟨rfl, ?_⟩
      rintro q (htarget | htask)
      · exact Or.inl (by rw [hstoring]; exact htarget)
      · exact Or.inr htask
  | @decrement k p t r ht hdecrementing hr =>
      refine hset ht hu' ⟨rfl, ?_⟩
      rintro q (htarget | htask)
      · refine Or.inl ?_
        rw [hdecrementing]
        simp only at htarget
        split at htarget
        · exact htarget
        · cases htarget
      · exact Or.inr htask
  | @push k p t r ht hpushing hr =>
      refine hset ht hu' ⟨rfl, ?_⟩
      rintro q (htarget | htask)
      · cases htarget
      · exact Or.inr htask

/-- A thread works for requests of the file of its batch. -/
def PointerInv (s : Completion) : Prop :=
  ∀ (k : Nat) (t : BatchThread) (p : Nat), s.threads[k]? = some t → WorksFor t p →
    ∃ r : Request, s.heap[p]? = some r ∧ r.fileIndex = t.batch.fileIndex

theorem PointerInv.effect {s s' : Completion} (h : PointerInv s) (heffect : Effect s s') :
    PointerInv s' := by
  intro k t' p ht' hworks
  obtain ⟨t, ht, hjob⟩ := heffect.sameJob ht'
  obtain ⟨r, hr, hfile⟩ := h k t p ht (hjob.works p hworks)
  obtain ⟨r', hr', hsame⟩ := heffect.sameRange hr
  refine ⟨r', hr', ?_⟩
  rw [hjob.fileIndex_eq, ← hfile, hsame]

/-! ## Answers -/

/-- A pushed response names its request and carries its final code. -/
structure AnsweredBy (e : Pushed) (r : Request) : Prop where
  tasks_eq : r.tasks = 0
  ret_eq : e.response.ret = r.ret
  fileIndex_eq : e.response.fileIndex = r.fileIndex
  index_eq : e.response.index = r.index
  bytesize_eq : e.bytesize = r.bytesize

/-- Every response answers its request, which no longer changes. -/
def AnswerInv (s : Completion) : Prop :=
  ∀ e ∈ s.pushed, ∃ r, s.heap[e.request]? = some r ∧ AnsweredBy e r

/-- A request at zero has no thread between flag and decrement. -/
theorem CounterInv.not_inside {s : Completion} (h : CounterInv s) {k p : Nat}
    {t : BatchThread} {r : Request} (ht : s.threads[k]? = some t) (hr : s.heap[p]? = some r)
    (hzero : r.tasks = 0) : insideFor p t.finishing ≠ 1 := by
  intro hinside
  have hone := one_le_total_owedFor ht hinside
  have hcounter := h.counter_eq p r hr
  omega

/-- Replacing a request that is still counted keeps the answers. -/
theorem AnswerInv.setRequest {s : Completion} (h : AnswerInv s) (hcounter : CounterInv s)
    {k p : Nat} {t : BatchThread} {r : Request} (r' : Request)
    (ht : s.threads[k]? = some t) (hr : s.heap[p]? = some r)
    (hinside : insideFor p t.finishing = 1) : AnswerInv (s.setRequest p r') := by
  intro e he
  obtain ⟨x, hx, hanswered⟩ := h e he
  have hne : e.request ≠ p := by
    intro heq
    rw [heq] at hx
    exact hcounter.not_inside ht hx hanswered.tasks_eq hinside
  exact ⟨x, (setRequest_other hr hne).trans hx, hanswered⟩

theorem AnswerInv.effect {s s' : Completion} (h : AnswerInv s) (hcounter : CounterInv s)
    (hpointer : PointerInv s) (heffect : Effect s s') : AnswerInv s' := by
  cases heffect with
  | control d => exact h
  | quiet d ht hwork => exact h
  | flag code next ht hno _ hopen =>
      rw [finishTask_eq code next hopen]
      exact h
  | @store k p t r code ht hstoring hr =>
      exact h.setRequest hcounter _ ht hr (by rw [hstoring]; exact if_pos rfl)
  | @decrement k p t r ht hdecrementing hr =>
      exact h.setRequest hcounter _ ht hr (by rw [hdecrementing]; exact if_pos rfl)
  | @push k p t r ht hpushing hr =>
      intro e he
      rcases List.mem_append.1 he with hmem | hmem
      · exact h e hmem
      · rw [List.mem_singleton] at hmem
        subst hmem
        obtain ⟨r', hr', hfile⟩ := hpointer k t p ht (Or.inl (by rw [hpushing]; rfl))
        obtain rfl := Option.some.inj (hr.symm.trans hr')
        refine ⟨r, hr, ?_, rfl, hfile.symm, rfl, rfl⟩
        have hle := le_sum_map_of_getElem? ht (pushingFor p)
        have hone : pushingFor p t = 1 := by
          rw [pushingFor, hpushing]
          exact if_pos rfl
        have hpushes := hcounter.pushes p r hr
        by_contra hne
        rw [if_neg hne] at hpushes
        unfold Completion.total at hpushes
        omega

end Streamer
end ModelStreamer
