import ModelStreamer.Streamer.AccountingSpec

/-!
# The responder's expected count

The responder counts the ranges that were committed and not answered in an {lit}`unsigned`.
A submission is checked to fit such a count on its own; the count is over all submissions that
are outstanding.

Main results:

- Theorem {lit}`responder_counts_owed`: while the outstanding ranges fit, the count is their
  number and no answer is refused; the first submission that makes them pass the limit breaks it.
- Theorem {lit}`count_wraps_halves`: two submissions that fit on their own make an answer of the
  first one unexpected.
-/

namespace ModelStreamer
namespace Streamer

open Common Lib

/-! ## The count -/

/-- The committed ranges that were not answered. -/
def Accounting.owed (s : Accounting) : Nat :=
  (s.accepted.map Accepted.expected).sum - s.answered.length

/-- What the responder should know: how many answers are owed, and all those it was given. -/
structure CountsOwed (s : Accounting) : Prop where
  running_eq : s.responder.running = s.owed
  none_refused : s.responder.unexpectedPushError = false
  none_lost : s.answered = s.delivered.map (fun d => d.entry.ticket) ++
    s.responder.responses.map Tracked.ticket

/-- The condition on a step: an accepted submission and what is owed already fit the count. -/
def OwedFits (s : Accounting) : AccountingAction → Prop
  | .submit request =>
      totalRanges request < 2 ^ 32 → s.owed + totalRanges request < 2 ^ 32
  | _ => True

instance (s : Accounting) : (action : AccountingAction) → Decidable (OwedFits s action)
  | .submit request =>
      inferInstanceAs
        (Decidable (totalRanges request < 2 ^ 32 → s.owed + totalRanges request < 2 ^ 32))
  | .answer _ _ => inferInstanceAs (Decidable True)
  | .respond _ => inferInstanceAs (Decidable True)

/-- The invariant of the runs whose submissions fit. -/
structure CountInv (s : Accounting) : Prop where
  accounting : AccountingInv s
  none_refused : s.responder.unexpectedPushError = false
  running_lt : s.responder.running < 2 ^ 32

/-- What the invariant says of the count. -/
theorem CountInv.countsOwed {s : Accounting} (h : CountInv s) : CountsOwed s := by
  have hrunning := h.accounting.running
  refine ⟨?_, h.none_refused, h.accounting.flow⟩
  unfold Accounting.owed
  omega

/-- A new streamer owes nothing. -/
theorem countInv_start : CountInv Accounting.start :=
  ⟨accountingInv_start, rfl, by decide⟩

/-! ## Steps -/

/-- What a submission changes. -/
theorem submitStep_cases {s s' : Accounting} {request : List FileRanges}
    (h : submitStep s request = some s') :
    (s' = s ∧ 2 ^ 32 ≤ totalRanges request) ∨
      (∃ registry, s' = { s with registry } ∧ totalRanges request = 0) ∨
      ∃ registry id, totalRanges request < 2 ^ 32 ∧ 0 < totalRanges request ∧
        s' =
          { s with
            registry
            responder := s.responder.increment (totalRanges request)
            accepted := s.accepted ++ [⟨id, request⟩] } := by
  unfold submitStep at h
  split at h
  · rename_i hlarge
    cases h
    exact .inl ⟨rfl, hlarge⟩
  · rename_i hsmall
    split at h
    · cases h
    · split at h
      · rename_i hzero
        cases h
        exact .inr (.inl ⟨_, rfl, hzero⟩)
      · rename_i hpos
        split at h
        · cases h
        · cases h
          exact .inr (.inr ⟨_, _, by omega, by omega, rfl⟩)

/-- A submission that is accepted adds its ranges to what is owed. -/
theorem owed_concat {s : Accounting} (h : AccountingInv s) (registry : SubmissionsMgr)
    (responder : SharedQueue Tracked) (id : Nat) (request : List FileRanges) :
    ({ s with registry, responder, accepted := s.accepted ++ [⟨id, request⟩] } :
      Accounting).owed = s.owed + totalRanges request := by
  have hrunning := h.running
  unfold Accounting.owed
  simp only [List.map_append, List.map_cons, List.map_nil, List.sum_append, List.sum_cons,
    List.sum_nil, Accepted.expected]
  omega

/-- An answer is pushed while it is owed. -/
theorem answerStep_refused {s s' : Accounting} {ticket : Ticket} {outcome : RangeOutcome}
    (h : CountInv s) (hstep : answerStep s ticket outcome = some s')
    (hafter : AccountingInv s') :
    s'.responder.unexpectedPushError = false ∧ s'.responder.running ≤ s.responder.running := by
  unfold answerStep at hstep
  split at hstep
  · split at hstep
    · split at hstep
      · cases hstep
      · cases hstep
        have hrunning := hafter.running
        have hbefore := h.accounting.running
        have hpos : 0 < s.responder.running := by
          by_contra hzero
          have hnone : s.responder.running = 0 := by omega
          simp only [SharedQueue.push, h.accounting.alive.1, hnone, Bool.false_eq_true, if_false,
            Nat.lt_irrefl, List.length_append, List.length_singleton] at hrunning
          omega
        rw [SharedQueue.push_of_running _ h.accounting.alive.1 hpos]
        exact ⟨h.none_refused, Nat.sub_le _ _⟩
    · cases hstep
  · cases hstep

/-- A pop leaves the count alone. -/
theorem respondStep_refused {s s' : Accounting} {timeoutMs : Nat} (h : CountInv s)
    (hstep : respondStep s timeoutMs = some s') :
    s'.responder.unexpectedPushError = false ∧ s'.responder.running = s.responder.running := by
  obtain rfl | ⟨x, rest, -, hcase⟩ := respondStep_cases h.accounting hstep
  · exact ⟨h.none_refused, rfl⟩
  · cases hcase with
    | inl hsentinel =>
        rw [hsentinel.2]
        exact ⟨h.none_refused, rfl⟩
    | inr hcounted =>
        obtain ⟨-, done, registry, -, rfl⟩ := hcounted
        exact ⟨h.none_refused, rfl⟩

/-- A step whose submission fits keeps the count. -/
theorem CountInv.step {s s' : Accounting} {action : AccountingAction} (h : CountInv s)
    (hfits : OwedFits s action) (hstep : accountingStep s action = some s') : CountInv s' := by
  cases action with
  | submit request =>
      have hcases := submitStep_cases hstep
      have hsame := h.countsOwed.running_eq
      rcases hcases with ⟨rfl, -⟩ | ⟨registry, rfl, hzero⟩ | ⟨registry, id, hlt, hpos, rfl⟩
      · exact h
      · have hcap : s.responder.running + totalRanges request < 2 ^ 32 := by
          have hlt := h.running_lt
          omega
        exact ⟨h.accounting.submitStep hcap hstep, h.none_refused, h.running_lt⟩
      · have hcap : s.responder.running + totalRanges request < 2 ^ 32 := by
          rw [hsame]
          exact hfits hlt
        refine ⟨h.accounting.submitStep hcap hstep, h.none_refused, ?_⟩
        change wordAdd 32 s.responder.running (totalRanges request) < 2 ^ 32
        rw [wordAdd_of_lt hcap]
        exact hcap
  | answer ticket outcome =>
      have hafter := h.accounting.answerStep hstep
      obtain ⟨hrefused, hle⟩ := answerStep_refused h hstep hafter
      exact ⟨hafter, hrefused, lt_of_le_of_lt hle h.running_lt⟩
  | respond timeoutMs =>
      obtain ⟨hrefused, hsame⟩ := respondStep_refused h hstep
      exact ⟨h.accounting.respondStep hstep, hrefused, by rw [hsame]; exact h.running_lt⟩

/-- A submission that does not fit breaks the count. -/
theorem CountInv.submit_iff {s s' : Accounting} {request : List FileRanges} (h : CountInv s)
    (hstep : submitStep s request = some s') :
    CountsOwed s' ↔ OwedFits s (.submit request) := by
  constructor
  · intro hcounts hlt
    have howed := h.countsOwed.running_eq
    have hrunning := h.running_lt
    rcases submitStep_cases hstep with ⟨-, hlarge⟩ | ⟨-, -, hzero⟩ | ⟨registry, id, -, -, rfl⟩
    · omega
    · omega
    · have heq := hcounts.running_eq
      rw [owed_concat h.accounting] at heq
      have hword : wordAdd 32 s.responder.running (totalRanges request) < 2 ^ 32 :=
        Nat.mod_lt _ (by decide)
      change wordAdd 32 s.responder.running (totalRanges request) = _ at heq
      omega
  · intro hfits
    exact (@CountInv.step s s' (.submit request) h hfits hstep).countsOwed

/-- The count after a run whose submissions all fit. -/
theorem countInv_run {actions : List AccountingAction} {s : Accounting}
    (hall : EachStep accountingStep OwedFits Accounting.start actions)
    (hrun : run accountingStep Accounting.start actions = some s) : CountInv s :=
  run_invariant_of (fun _ _ _ h hfits hstep => h.step hfits hstep) countInv_start hall hrun

/--
In every run whose submissions fit, every state has the exact count and no answer was refused;
the next submission keeps it so if and only if it fits.
-/
theorem responder_counts_owed {actions : List AccountingAction} {s : Accounting}
    (hall : EachStep accountingStep OwedFits Accounting.start actions)
    (hrun : run accountingStep Accounting.start actions = some s) :
    CountsOwed s ∧ ∀ request s', accountingStep s (.submit request) = some s' →
      (CountsOwed s' ↔ OwedFits s (.submit request)) := by
  have h := countInv_run hall hrun
  exact ⟨h.countsOwed, fun request s' hstep => h.submit_iff hstep⟩

/-- One file with many empty ranges. -/
def manyRanges (n : Nat) : List FileRanges :=
  [{ path := ['a'], ranges := List.replicate n ⟨0, 0, 0⟩ }]

/-- Submissions that overlap: an answer and a response come before the last one, and the second one
fails before the first one is over. -/
def overlappingActions : List AccountingAction :=
  [.submit (manyRanges 2), .submit oneRange, .answer ⟨0, 1⟩ (.finished .success), .respond 100,
    .submit oneRange, .answer ⟨1, 0⟩ (.finished .eofError)]

theorem responder_counts_overlapping :
    ∃ s, run accountingStep Accounting.start overlappingActions = some s ∧ CountsOwed s ∧
      s.owed = 2 ∧ s.responder.running = 2 ∧ s.delivered.length = 1 ∧
      ∀ s', accountingStep s (.submit oneRange) = some s' → CountsOwed s' := by
  have hends : ((run accountingStep Accounting.start overlappingActions).map fun s =>
      (s.owed, s.responder.running, s.delivered.length)) = some (2, 2, 1) := by
    decide +kernel
  obtain ⟨s, hrun, heq⟩ := Option.map_eq_some_iff.1 hends
  simp only [Prod.mk.injEq] at heq
  have hall : EachStep accountingStep OwedFits Accounting.start overlappingActions := by
    decide +kernel
  obtain ⟨hcounts, hnext⟩ := responder_counts_owed hall hrun
  refine ⟨s, hrun, hcounts, heq.1, heq.2.1, heq.2.2, fun s' hstep => (hnext oneRange s' hstep).2 ?_⟩
  intro _
  rw [heq.1]
  decide

/-! ## Submissions that fit on their own -/

@[simp]
theorem totalRanges_manyRanges (n : Nat) : totalRanges (manyRanges n) = n := by
  simp [totalRanges, manyRanges]

/-- The next id is minted when it is free. -/
theorem generate_of_free {m : SubmissionsMgr} (hpos : m.nextId ≠ 0)
    (hfree : m.nextId ∉ m.submissions) :
    m.generate = some (m.nextId, { m with nextId := wordAdd 64 m.nextId 1 }) := by
  unfold SubmissionsMgr.generate
  rw [show 2 ^ 64 = (2 ^ 64 - 1) + 1 from rfl, SubmissionsMgr.generateFrom, if_neg hpos,
    if_neg hfree]
  rfl

/-- The state after a submission that commits under the next id. -/
def Accounting.afterSubmit (s : Accounting) (request : List FileRanges) : Accounting :=
  { s with
    registry :=
      { nextId := wordAdd 64 s.registry.nextId 1
        submissions := s.registry.submissions.insert s.registry.nextId (totalRanges request) }
    responder := s.responder.increment (totalRanges request)
    accepted := s.accepted ++ [⟨s.registry.nextId, request⟩] }

/-- A submission under a free id. -/
theorem submitStep_of_free {s : Accounting} {request : List FileRanges}
    (hpos : s.registry.nextId ≠ 0) (hfree : s.registry.nextId ∉ s.registry.submissions)
    (hlt : totalRanges request < 2 ^ 32) (hranges : 0 < totalRanges request) :
    submitStep s request = some (s.afterSubmit request) := by
  unfold submitStep
  rw [if_neg (by omega), generate_of_free hpos hfree]
  simp only [if_neg (Nat.ne_of_gt hranges), SubmissionsMgr.add, if_neg hfree,
    Accounting.afterSubmit]

/-- The second submission of an accounting finds the id 2 free. -/
theorem afterSubmit_free (request : List FileRanges) :
    (Accounting.start.afterSubmit request).registry.nextId ∉
      (Accounting.start.afterSubmit request).registry.submissions := by
  intro hmem
  cases (AList.mem_insert _).1 hmem with
  | inl heq => cases heq
  | inr hold => cases hold

/-- Two submissions whose ranges make {lit}`2 ^ 32`: both commit. -/
theorem two_submissions {n m : Nat} (hn : 0 < n) (hm : 0 < m) (hsum : n + m = 2 ^ 32) :
    run accountingStep Accounting.start
        [.submit (manyRanges n), .submit (manyRanges m)] =
      some ((Accounting.start.afterSubmit (manyRanges n)).afterSubmit (manyRanges m)) := by
  have hfirst := @submitStep_of_free Accounting.start (manyRanges n) (by decide) (by decide)
    (by rw [totalRanges_manyRanges]; omega) (by rw [totalRanges_manyRanges]; exact hn)
  have hsecond := @submitStep_of_free (Accounting.start.afterSubmit (manyRanges n))
    (manyRanges m) (ne_of_eq_of_ne rfl (by decide : (2 : Nat) ≠ 0)) (afterSubmit_free _)
    (by rw [totalRanges_manyRanges]; omega) (by rw [totalRanges_manyRanges]; exact hm)
  rw [run_cons]
  exact ⟨_, hfirst, run_cons.2 ⟨_, hsecond, rfl⟩⟩

/-- The two submissions leave the count at zero. -/
theorem running_two_submissions {n m : Nat} (hm : 0 < m) (hsum : n + m = 2 ^ 32) :
    ((Accounting.start.afterSubmit (manyRanges n)).afterSubmit
      (manyRanges m)).responder.running = 0 := by
  change wordAdd 32 (wordAdd 32 0 (totalRanges (manyRanges n)))
    (totalRanges (manyRanges m)) = 0
  rw [totalRanges_manyRanges, totalRanges_manyRanges,
    wordAdd_of_lt (show 0 + n < 2 ^ 32 by omega), Nat.zero_add, wordAdd, toWord, hsum,
    Nat.mod_self]

/-- The answer of a committed range is refused after two such submissions. -/
theorem refused_answer {n m : Nat} (hn : 0 < n) (hm : 0 < m) (hsum : n + m = 2 ^ 32) :
    ∃ s, run accountingStep Accounting.start
        [.submit (manyRanges n), .submit (manyRanges m), .answer ⟨0, 0⟩ (.finished .success)] =
          some s ∧ s.responder.unexpectedPushError = true ∧ s.responder.responses = [] ∧
      s.responder.running ≠ s.owed := by
  have hrun := two_submissions hn hm hsum
  have hrunning := @running_two_submissions n m hm hsum
  have haccepted : ((Accounting.start.afterSubmit (manyRanges n)).afterSubmit
      (manyRanges m)).accepted = [⟨1, manyRanges n⟩, ⟨2, manyRanges m⟩] := rfl
  have hanswered : ((Accounting.start.afterSubmit (manyRanges n)).afterSubmit
      (manyRanges m)).answered = [] := rfl
  have hstopped : ((Accounting.start.afterSubmit (manyRanges n)).afterSubmit
      (manyRanges m)).responder.stopped = false := rfl
  have hqueue : ((Accounting.start.afterSubmit (manyRanges n)).afterSubmit
      (manyRanges m)).responder.responses = [] := rfl
  generalize (Accounting.start.afterSubmit (manyRanges n)).afterSubmit (manyRanges m) = s at *
  have hplaced : ∃ placed, (placedFiles 0 (manyRanges n))[0]? = some placed := by
    have hlt : 0 < (placedFiles 0 (manyRanges n)).length := by
      rw [length_placedFiles, totalRanges_manyRanges]
      exact hn
    exact ⟨_, List.getElem?_eq_getElem hlt⟩
  obtain ⟨placed, hplaced⟩ := hplaced
  have hstep : answerStep s ⟨0, 0⟩ (.finished .success) = some
      { s with
        answered := [⟨0, 0⟩]
        responder := { s.responder with
          successful := s.responder.successful && true
          unexpectedPushError := true } } := by
    unfold answerStep
    simp only [haccepted, List.getElem?_cons_zero, RangeOutcome.code, hplaced, hanswered,
      List.not_mem_nil, if_false, List.nil_append, SharedQueue.push, hstopped, hrunning,
      Bool.false_eq_true, Nat.lt_irrefl, decide_true]
  refine ⟨{ s with
    answered := [⟨0, 0⟩]
    responder := { s.responder with
      successful := s.responder.successful && true
      unexpectedPushError := true } }, ?_, rfl, hqueue, ?_⟩
  · have hlast : run accountingStep s [.answer ⟨0, 0⟩ (.finished .success)] = _ :=
      run_cons.2 ⟨_, hstep, rfl⟩
    exact run_append.2 ⟨s, hrun, hlast⟩
  · unfold Accounting.owed
    simp only [haccepted, hrunning, List.map_cons, List.map_nil, List.sum_cons, List.sum_nil,
      Accepted.expected, totalRanges_manyRanges, List.length_singleton]
    omega

/-- Two submissions of {lit}`2 ^ 31` ranges each: the first answer is refused. -/
theorem count_wraps_halves :
    ∃ s, run accountingStep Accounting.start
        [.submit (manyRanges (2 ^ 31)), .submit (manyRanges (2 ^ 31)),
          .answer ⟨0, 0⟩ (.finished .success)] = some s ∧
      s.responder.unexpectedPushError = true ∧ s.responder.responses = [] ∧
      s.responder.running ≠ s.owed :=
  refused_answer (by decide) (by decide) (by decide)

end Streamer
end ModelStreamer
