import ModelStreamer.Streamer.Accounting

/-!
# When submissions are accounted for

A response is counted against its submission unless it carries one of the codes that
{lit}`Streamer::response` takes for its own.  The workers can answer a range with such a
code while the streamer is alive, and then the submission is never reported done.

Main results:

- Theorem {lit}`AccountingInv.step`: what the registry knows, whatever the codes are.
- Theorem {lit}`submission_accounting`: submissions are accounted for in every run whose
  ranges are answered with other codes, and exactly then.
- Theorem {lit}`cancelled_read_not_accounted`: a cancelled read, or an object storage client
  that ends, leaves its submission live.
-/

namespace ModelStreamer
namespace Streamer

open Common Lib PosixIo SharedQueue

/-! ## Tickets -/

/-- All ranges of the accepted submissions, numbered from {lit}`k` on. -/
def allTickets : Nat → List Accepted → List Ticket
  | _, [] => []
  | k, sub :: subs => (List.range sub.expected).map (Ticket.mk k) ++ allTickets (k + 1) subs

theorem length_allTickets (k : Nat) (subs : List Accepted) :
    (allTickets k subs).length = (subs.map Accepted.expected).sum := by
  induction subs generalizing k with
  | nil => rfl
  | cons sub subs ih => simp [allTickets, ih]

theorem mem_allTickets {k : Nat} {subs : List Accepted} {ticket : Ticket} {sub : Accepted}
    (hsub : subs[ticket.submission - k]? = some sub) (hk : k ≤ ticket.submission)
    (hrange : ticket.range < sub.expected) : ticket ∈ allTickets k subs := by
  induction subs generalizing k with
  | nil => simp at hsub
  | cons first subs ih =>
      by_cases heq : ticket.submission = k
      · refine List.mem_append_left _ (List.mem_map.2 ⟨ticket.range, ?_, ?_⟩)
        · rw [heq, Nat.sub_self, List.getElem?_cons_zero, Option.some.injEq] at hsub
          rw [hsub]
          exact List.mem_range.2 hrange
        · rw [← heq]
      · refine List.mem_append_right _ (ih ?_ (by omega))
        rw [show ticket.submission - k = ticket.submission - (k + 1) + 1 by omega] at hsub
        exact hsub

/-- The ticket names a range of an accepted submission. -/
def Ticket.Valid (accepted : List Accepted) (ticket : Ticket) : Prop :=
  ∃ sub, accepted[ticket.submission]? = some sub ∧ ticket.range < sub.expected

/-- There are at most as many valid tickets as ranges. -/
theorem length_le_sum_expected {accepted : List Accepted} {tickets : List Ticket}
    (hnodup : tickets.Nodup) (hvalid : ∀ ticket ∈ tickets, ticket.Valid accepted) :
    tickets.length ≤ (accepted.map Accepted.expected).sum := by
  rw [← length_allTickets 0]
  refine (hnodup.subperm ?_).length_le
  intro ticket hticket
  obtain ⟨sub, hsub, hrange⟩ := hvalid ticket hticket
  exact mem_allTickets hsub (Nat.zero_le _) hrange

/-- At most as many tickets of one submission as it has ranges. -/
theorem length_filter_le_expected {accepted : List Accepted} {tickets : List Ticket}
    (hnodup : tickets.Nodup) (hvalid : ∀ ticket ∈ tickets, ticket.Valid accepted) {k : Nat}
    {sub : Accepted} (hsub : accepted[k]? = some sub) :
    (tickets.filter fun ticket => ticket.submission = k).length ≤ sub.expected := by
  have hsubset : (tickets.filter fun ticket => ticket.submission = k) ⊆
      (List.range sub.expected).map (Ticket.mk k) := by
    intro ticket hticket
    obtain ⟨hmem, hk⟩ := List.mem_filter.1 hticket
    simp only [decide_eq_true_eq] at hk
    obtain ⟨sub', hsub', hrange⟩ := hvalid ticket hmem
    rw [hk] at hsub'
    obtain rfl := Option.some.inj (hsub.symm.trans hsub')
    refine List.mem_map.2 ⟨ticket.range, List.mem_range.2 hrange, ?_⟩
    rw [← hk]
  have hle := ((hnodup.filter _).subperm hsubset).length_le
  simpa using hle

/-! ## Counting the deliveries of a submission -/

/-- The responses received for a submission. -/
def Accounting.deliveredOf (s : Accounting) (k : Nat) : List Delivered :=
  s.delivered.filter fun d => d.entry.ticket.submission = k

/-- The response was counted against its submission. -/
def Delivered.counted (d : Delivered) : Bool :=
  decide (¬ IsSentinel d.entry.response.ret)

/-- The responses counted against a submission. -/
def Accounting.counted (s : Accounting) (k : Nat) : Nat :=
  (s.deliveredOf k).countP Delivered.counted

theorem counted_le (s : Accounting) (k : Nat) : s.counted k ≤ (s.deliveredOf k).length :=
  List.countP_le_length

/-- What is known of a tracked response. -/
structure Tracked.Genuine (accepted : List Accepted) (x : Tracked) : Prop where
  owner : ∃ sub, accepted[x.ticket.submission]? = some sub ∧
    x.response.submissionId = sub.id
  code_eq : x.outcome.code = some x.response.ret

/-- What holds of a streamer that is alive, whatever the codes of the responses. -/
structure AccountingInv (s : Accounting) : Prop where
  alive : s.responder.stopped = false ∧ s.responder.mode = .persistent
  nodup : s.answered.Nodup
  valid : ∀ ticket ∈ s.answered, ticket.Valid s.accepted
  flow : s.answered = s.delivered.map (fun d => d.entry.ticket) ++
    s.responder.responses.map Tracked.ticket
  genuine : ∀ x, x ∈ s.delivered.map Delivered.entry ∨ x ∈ s.responder.responses →
    x.Genuine s.accepted
  running : s.responder.running + s.answered.length = (s.accepted.map Accepted.expected).sum
  expected : ∀ sub ∈ s.accepted, 0 < sub.expected ∧ sub.expected < 2 ^ 32
  entry : ∀ (k : Nat) (sub : Accepted), s.accepted[k]? = some sub →
    s.counted k < sub.expected →
    s.registry.submissions.lookup sub.id = some (sub.expected - s.counted k)
  registered : ∀ id remaining, s.registry.submissions.lookup id = some remaining →
    ∃ (k : Nat) (sub : Accepted), s.accepted[k]? = some sub ∧ sub.id = id ∧
      s.counted k < sub.expected
  reused : ∀ (j k : Nat) (x y : Accepted), j < k → s.accepted[j]? = some x →
    s.accepted[k]? = some y → x.id = y.id → x.expected ≤ s.counted j
  quiet : ∀ (k : Nat) (sub : Accepted), s.accepted[k]? = some sub →
    s.counted k < sub.expected → ∀ d ∈ s.deliveredOf k, d.done = false
  reported : ∀ (k : Nat) (sub : Accepted), s.accepted[k]? = some sub →
    sub.expected ≤ s.counted k →
    (s.deliveredOf k).map Delivered.done = List.replicate (sub.expected - 1) false ++ [true]

/-- The responses of a submission that were received or wait in the responder. -/
theorem AccountingInv.length_deliveredOf_add {s : Accounting} (h : AccountingInv s)
    {k : Nat} {sub : Accepted} (hsub : s.accepted[k]? = some sub) :
    (s.deliveredOf k).length +
      (s.responder.responses.filter fun x => x.ticket.submission = k).length ≤
        sub.expected := by
  have hle := length_filter_le_expected h.nodup h.valid hsub
  rw [h.flow, List.filter_append, List.length_append, List.filter_map, List.filter_map,
    List.length_map, List.length_map] at hle
  exact hle

/-- A response that waits belongs to a submission that is still counting. -/
theorem AccountingInv.open_of_head {s : Accounting} (h : AccountingInv s) {x : Tracked}
    {rest : List Tracked} (hqueue : s.responder.responses = x :: rest) {sub : Accepted}
    (hsub : s.accepted[x.ticket.submission]? = some sub) :
    (s.deliveredOf x.ticket.submission).length < sub.expected := by
  have hle := h.length_deliveredOf_add hsub
  rw [hqueue, List.filter_cons_of_pos (by simp), List.length_cons] at hle
  omega

/-- Two submissions that are still counting have different ids. -/
theorem AccountingInv.unique_open {s : Accounting} (h : AccountingInv s) {j k : Nat}
    {x y : Accepted} (hx : s.accepted[j]? = some x) (hy : s.accepted[k]? = some y)
    (hxopen : s.counted j < x.expected) (hyopen : s.counted k < y.expected)
    (hid : x.id = y.id) : j = k := by
  rcases Nat.lt_trichotomy j k with hlt | heq | hlt
  · have hdone := h.reused j k x y hlt hx hy hid
    omega
  · exact heq
  · have hdone := h.reused k j y x hlt hy hx hid.symm
    omega

/-! ## One step -/

/-- The condition on a step: the responder can count the ranges that are outstanding. -/
def Counts (s : Accounting) : AccountingAction → Prop
  | .submit request => s.responder.running + totalRanges request < 2 ^ 32
  | _ => True

/-- Minting an id changes nothing the invariant speaks of. -/
theorem AccountingInv.setNextId {s : Accounting} (h : AccountingInv s)
    {registry : SubmissionsMgr} (hsame : registry.submissions = s.registry.submissions) :
    AccountingInv { s with registry } :=
  { h with
    entry := by
      intro k sub hsub hopen
      change registry.submissions.lookup sub.id = _
      rw [hsame]
      exact h.entry k sub hsub hopen
    registered := by
      intro id remaining hlookup
      change registry.submissions.lookup id = _ at hlookup
      rw [hsame] at hlookup
      exact h.registered id remaining hlookup }

theorem Ticket.Valid.concat {accepted : List Accepted} {ticket : Ticket}
    (h : ticket.Valid accepted) (new : Accepted) : ticket.Valid (accepted ++ [new]) := by
  obtain ⟨sub, hsub, hrange⟩ := h
  exact ⟨sub, getElem?_concat_of_some hsub new, hrange⟩

theorem Tracked.Genuine.concat {accepted : List Accepted} {x : Tracked}
    (h : x.Genuine accepted) (new : Accepted) : x.Genuine (accepted ++ [new]) := by
  obtain ⟨sub, hsub, hid⟩ := h.owner
  exact ⟨⟨sub, getElem?_concat_of_some hsub new, hid⟩, h.code_eq⟩

/-- Nothing was received for a submission that was not accepted. -/
theorem AccountingInv.deliveredOf_eq_nil {s : Accounting} (h : AccountingInv s) {k : Nat}
    (hk : s.accepted.length ≤ k) : s.deliveredOf k = [] := by
  refine List.filter_eq_nil_iff.2 fun d hd => ?_
  obtain ⟨sub, hsub, -⟩ := (h.genuine d.entry (Or.inl (List.mem_map_of_mem hd))).owner
  have hlt := (List.getElem?_eq_some_iff.1 hsub).1
  simp only [decide_eq_true_eq]
  omega

/-- Registering a submission under a fresh id. -/
theorem AccountingInv.register {s : Accounting} (h : AccountingInv s) {registry : SubmissionsMgr}
    {id : Nat} {request : List FileRanges} (hfresh : id ∉ s.registry.submissions)
    (hinsert : registry.submissions = s.registry.submissions.insert id (totalRanges request))
    (hpos : 0 < totalRanges request)
    (hcap : s.responder.running + totalRanges request < 2 ^ 32) :
    AccountingInv
      { s with
        registry
        responder := s.responder.increment (totalRanges request)
        accepted := s.accepted ++ [⟨id, request⟩] } := by
  have hcounted : ∀ k, s.accepted.length ≤ k → s.counted k = 0 := by
    intro k hk
    rw [Accounting.counted, h.deliveredOf_eq_nil hk]
    rfl
  have hnone : s.registry.submissions.lookup id = none := AList.lookup_eq_none.2 hfresh
  refine
    { alive := h.alive
      nodup := h.nodup
      valid := fun ticket ht => (h.valid ticket ht).concat _
      flow := h.flow
      genuine := fun x hx => (h.genuine x hx).concat _
      running := ?_
      expected := ?_
      entry := ?_
      registered := ?_
      reused := ?_
      quiet := ?_
      reported := ?_ }
  · have hrunning := h.running
    simp only [increment, List.map_append, List.sum_append, List.map_cons, List.map_nil,
      List.sum_cons, List.sum_nil, wordAdd_of_lt hcap]
    change s.responder.running + totalRanges request + s.answered.length =
      _ + (totalRanges request + 0)
    omega
  · intro sub hsub
    rcases List.mem_append.1 hsub with hmem | hmem
    · exact h.expected sub hmem
    · rw [List.mem_singleton] at hmem
      subst hmem
      refine ⟨hpos, ?_⟩
      change totalRanges request < _
      omega
  · intro k sub hsub hopen
    change registry.submissions.lookup sub.id = _
    rw [hinsert]
    rcases getElem?_concat_cases hsub with hold | ⟨rfl, rfl⟩
    · have hlookup := h.entry k sub hold hopen
      have hne : sub.id ≠ id := by
        intro heq
        rw [heq, hnone] at hlookup
        cases hlookup
      rw [AList.lookup_insert_ne hne]
      exact hlookup
    · rw [AList.lookup_insert]
      change some (totalRanges request) = some (totalRanges request - s.counted _)
      rw [hcounted _ le_rfl, Nat.sub_zero]
  · intro i remaining hlookup
    change registry.submissions.lookup i = _ at hlookup
    rw [hinsert] at hlookup
    by_cases hi : i = id
    · refine ⟨s.accepted.length, ⟨id, request⟩, by simp, hi.symm, ?_⟩
      change s.counted _ < totalRanges request
      rw [hcounted _ le_rfl]
      exact hpos
    · rw [AList.lookup_insert_ne hi] at hlookup
      obtain ⟨k, sub, hsub, hid, hopen⟩ := h.registered i remaining hlookup
      exact ⟨k, sub, getElem?_concat_of_some hsub _, hid, hopen⟩
  · intro j k x y hlt hx hy hid
    have hjold : s.accepted[j]? = some x := by
      rcases getElem?_concat_cases hx with hold | ⟨hj, -⟩
      · exact hold
      · have hk := (List.getElem?_eq_some_iff.1 hy).1
        simp only [List.length_append, List.length_singleton] at hk
        omega
    rcases getElem?_concat_cases hy with hold | ⟨-, rfl⟩
    · exact h.reused j k x y hlt hjold hold hid
    · by_contra hopen
      have hlookup := h.entry j x hjold (Nat.lt_of_not_le hopen)
      rw [show x.id = id from hid, hnone] at hlookup
      cases hlookup
  · intro k sub hsub hopen
    rcases getElem?_concat_cases hsub with hold | ⟨rfl, rfl⟩
    · exact h.quiet k sub hold hopen
    · intro d hd
      change d ∈ s.deliveredOf _ at hd
      rw [h.deliveredOf_eq_nil le_rfl] at hd
      cases hd
  · intro k sub hsub hfull
    rcases getElem?_concat_cases hsub with hold | ⟨rfl, rfl⟩
    · exact h.reported k sub hold hfull
    · change totalRanges request ≤ s.counted _ at hfull
      rw [hcounted _ le_rfl] at hfull
      omega

theorem AccountingInv.submitStep {s s' : Accounting} (h : AccountingInv s)
    {request : List FileRanges} (hcap : s.responder.running + totalRanges request < 2 ^ 32)
    (hstep : submitStep s request = some s') : AccountingInv s' := by
  unfold Streamer.submitStep at hstep
  split at hstep
  · cases hstep
    exact h
  · split at hstep
    · cases hstep
    · rename_i id registry hgenerate
      obtain ⟨hfresh, hsame⟩ := SubmissionsMgr.generate_fresh hgenerate
      split at hstep
      · cases hstep
        exact h.setNextId hsame
      · rename_i hpos
        have hadd : registry.add id (totalRanges request) =
            .ok { registry with
              submissions := registry.submissions.insert id (totalRanges request) } := by
          rw [SubmissionsMgr.add, if_neg (by rw [hsame]; exact hfresh)]
        rw [hadd] at hstep
        simp only [Option.some.injEq] at hstep
        subst hstep
        refine h.register hfresh ?_ (by omega) hcap
        rw [hsame]

theorem AccountingInv.answerStep {s s' : Accounting} (h : AccountingInv s) {ticket : Ticket}
    {outcome : RangeOutcome} (hstep : answerStep s ticket outcome = some s') :
    AccountingInv s' := by
  unfold Streamer.answerStep at hstep
  split at hstep
  · rename_i sub code hsub hcode
    split at hstep
    · rename_i placed hplaced
      split at hstep
      · cases hstep
      · rename_i hnew
        simp only [Option.some.injEq] at hstep
        subst hstep
        have hvalid : ticket.Valid s.accepted := by
          refine ⟨sub, hsub, ?_⟩
          rw [Accepted.expected, ← length_placedFiles 0]
          exact (List.getElem?_eq_some_iff.1 hplaced).1
        have hnodup : (s.answered ++ [ticket]).Nodup :=
          List.nodup_append.2 ⟨h.nodup, List.nodup_singleton _, by
            intro x hx y hy
            rw [List.mem_singleton] at hy
            rintro rfl
            exact hnew (hy ▸ hx)⟩
        have hall : ∀ x ∈ s.answered ++ [ticket], x.Valid s.accepted := by
          intro x hx
          rcases List.mem_append.1 hx with hmem | hmem
          · exact h.valid x hmem
          · rw [List.mem_singleton.1 hmem]
            exact hvalid
        have hrunning : 0 < s.responder.running := by
          have hle := length_le_sum_expected hnodup hall
          have heq := h.running
          rw [List.length_append, List.length_singleton] at hle
          omega
        rw [push_of_running _ h.alive.1 hrunning]
        exact
          { h with
            nodup := hnodup
            valid := hall
            flow := by
              change s.answered ++ [ticket] = _ ++ (s.responder.responses ++ _).map _
              rw [h.flow, List.map_append, List.append_assoc]
              rfl
            genuine := by
              rintro x (hx | hx)
              · exact h.genuine x (Or.inl hx)
              · rcases List.mem_append.1 hx with hmem | hmem
                · exact h.genuine x (Or.inr hmem)
                · rw [List.mem_singleton.1 hmem]
                  exact ⟨⟨sub, hsub, rfl⟩, hcode⟩
            running := by
              have heq := h.running
              simp only [List.length_append, List.length_singleton]
              omega }
    · cases hstep
  · cases hstep

/-- What consuming a response of a counted submission does to the registry. -/
theorem consume_of_lookup {m : SubmissionsMgr} {id remaining : Nat}
    (hlookup : m.submissions.lookup id = some remaining) (hpos : 0 < remaining)
    (hlt : remaining < 2 ^ 32) :
    m.consume id = .ok (decide (remaining = 1),
      { m with submissions :=
          if remaining = 1 then m.submissions.erase id
          else m.submissions.insert id (remaining - 1) }) := by
  have hword : wordSub 32 remaining 1 = remaining - 1 := wordSub_of_le hpos hlt
  simp only [SubmissionsMgr.consume, hlookup, hword]
  by_cases hone : remaining = 1
  · simp [hone]
  · have hne : remaining - 1 ≠ 0 := by omega
    simp [hone, hne]

/-- The state after the caller received a response that waited first. -/
def Accounting.receive (s : Accounting) (registry : SubmissionsMgr) (x : Tracked)
    (rest : List Tracked) (done : Bool) : Accounting :=
  { s with
    registry
    responder := { s.responder with responses := rest }
    delivered := s.delivered ++ [⟨x, done⟩] }

/-- The deliveries of a submission after one more. -/
theorem deliveredOf_receive (s : Accounting) (registry : SubmissionsMgr) (x : Tracked)
    (rest : List Tracked) (done : Bool) (k : Nat) :
    (s.receive registry x rest done).deliveredOf k =
      if x.ticket.submission = k then s.deliveredOf k ++ [⟨x, done⟩] else s.deliveredOf k := by
  simp only [Accounting.deliveredOf, Accounting.receive, List.filter_append]
  by_cases hk : x.ticket.submission = k <;> simp [hk]

/-- The count of a submission after one more delivery. -/
theorem counted_receive (s : Accounting) (registry : SubmissionsMgr) (x : Tracked)
    (rest : List Tracked) (done : Bool) (k : Nat) :
    (s.receive registry x rest done).counted k =
      s.counted k + if x.ticket.submission = k ∧ ¬ IsSentinel x.response.ret then 1 else 0 := by
  rw [Accounting.counted, deliveredOf_receive, Accounting.counted]
  by_cases hk : x.ticket.submission = k
  · by_cases hcode : IsSentinel x.response.ret <;>
      simp [hk, hcode, List.countP_append, Delivered.counted]
  · simp [hk]

/-- The caller receives the first response that waits. -/
theorem AccountingInv.receive {s : Accounting} (h : AccountingInv s) {x : Tracked}
    {rest : List Tracked} (hqueue : s.responder.responses = x :: rest) (done : Bool)
    {registry : SubmissionsMgr}
    (hentry : ∀ (k : Nat) (sub : Accepted), s.accepted[k]? = some sub →
      (s.receive registry x rest done).counted k < sub.expected →
      registry.submissions.lookup sub.id =
        some (sub.expected - (s.receive registry x rest done).counted k))
    (hregistered : ∀ id remaining, registry.submissions.lookup id = some remaining →
      ∃ (k : Nat) (sub : Accepted), s.accepted[k]? = some sub ∧ sub.id = id ∧
        (s.receive registry x rest done).counted k < sub.expected)
    (hdone : ∀ sub, s.accepted[x.ticket.submission]? = some sub →
      (done = true ↔ ¬ IsSentinel x.response.ret ∧
        s.counted x.ticket.submission + 1 = sub.expected)) :
    AccountingInv (s.receive registry x rest done) := by
  have hlist := deliveredOf_receive s registry x rest done
  have hcounted := counted_receive s registry x rest done
  refine
    { alive := h.alive
      nodup := h.nodup
      valid := h.valid
      flow := ?_
      genuine := ?_
      running := h.running
      expected := h.expected
      entry := hentry
      registered := hregistered
      reused := ?_
      quiet := ?_
      reported := ?_ }
  · have hflow := h.flow
    rw [hqueue] at hflow
    simp only [Accounting.receive, List.map_append, List.map_cons, List.map_nil,
      List.append_assoc, List.singleton_append] at hflow ⊢
    exact hflow
  · rintro y (hy | hy)
    · simp only [Accounting.receive, List.map_append, List.mem_append] at hy
      rcases hy with hmem | hmem
      · exact h.genuine y (Or.inl hmem)
      · rw [List.map_cons, List.map_nil, List.mem_singleton] at hmem
        rw [hmem]
        exact h.genuine x (Or.inr (by simp [hqueue]))
    · exact h.genuine y (Or.inr (by rw [hqueue]; exact List.mem_cons_of_mem _ hy))
  · intro j k a b hlt ha hb hid
    have hold := h.reused j k a b hlt ha hb hid
    rw [hcounted]
    omega
  · intro k sub hsub hopen d hd
    rw [hcounted] at hopen
    rw [hlist] at hd
    split at hd
    · rename_i hk
      subst hk
      rcases List.mem_append.1 hd with hmem | hmem
      · exact h.quiet _ sub hsub (by omega) d hmem
      · rw [List.mem_singleton] at hmem
        subst hmem
        simp only
        by_contra htrue
        obtain ⟨hcode, hlast⟩ := (hdone sub hsub).1 (by simpa using htrue)
        rw [if_pos ⟨rfl, hcode⟩] at hopen
        omega
    · exact h.quiet k sub hsub (by omega) d hd
  · intro k sub hsub hfull
    rw [hcounted] at hfull
    rw [hlist]
    split
    · rename_i hk
      subst hk
      have hwait := h.open_of_head hqueue hsub
      have hle := counted_le s x.ticket.submission
      have hcode : ¬ IsSentinel x.response.ret := by
        intro hcode
        rw [if_neg (fun hand => hand.2 hcode)] at hfull
        omega
      rw [if_pos ⟨rfl, hcode⟩] at hfull
      have htrue : done = true := (hdone sub hsub).2 ⟨hcode, by omega⟩
      have hflags : (s.deliveredOf x.ticket.submission).map Delivered.done =
          List.replicate (sub.expected - 1) false := by
        refine List.eq_replicate_iff.2 ⟨by rw [List.length_map]; omega, ?_⟩
        intro flag hflag
        obtain ⟨d, hd, rfl⟩ := List.mem_map.1 hflag
        exact h.quiet _ sub hsub (by omega) d hd
      rw [List.map_append, hflags, htrue]
      rfl
    · rename_i hk
      rw [if_neg (fun hand => hk hand.1)] at hfull
      exact h.reported k sub hsub hfull

/-- A call of {lit}`response` that returns a response of a worker. -/
theorem respondStep_cases {s s' : Accounting} (h : AccountingInv s) {timeoutMs : Nat}
    (hstep : respondStep s timeoutMs = some s') :
    s' = s ∨ ∃ x rest, s.responder.responses = x :: rest ∧
      ((IsSentinel x.response.ret ∧ s' = s.receive s.registry x rest false) ∨
        (¬ IsSentinel x.response.ret ∧ ∃ done registry,
          s.registry.consume x.response.submissionId = .ok (done, registry) ∧
          s' = s.receive registry x rest done)) := by
  unfold respondStep response at hstep
  rw [pop_of_persistent h.alive.1 h.alive.2] at hstep
  cases hqueue : s.responder.responses with
  | nil =>
      rw [hqueue] at hstep
      simp only at hstep
      by_cases htimeout : timeoutMs = 0
      · simp [htimeout] at hstep
      · left
        simp [htimeout, poppedRet, IsSentinel, deliver] at hstep
        exact hstep.symm
  | cons x rest =>
      right
      refine ⟨x, rest, rfl, ?_⟩
      rw [hqueue] at hstep
      simp only [Option.map_some, poppedRet, poppedId] at hstep
      by_cases hcode : IsSentinel x.response.ret
      · simp only [hcode, if_true, deliver, Option.some.injEq] at hstep
        exact Or.inl ⟨hcode, hstep.symm⟩
      · simp only [hcode, if_false] at hstep
        cases hconsume : s.registry.consume x.response.submissionId with
        | error e => simp [hconsume, bind, Except.bind] at hstep
        | ok result =>
            obtain ⟨done, registry⟩ := result
            simp only [hconsume, bind, Except.bind, pure, Except.pure, deliver,
              Option.some.injEq] at hstep
            exact Or.inr ⟨hcode, done, registry, rfl, hstep.symm⟩

theorem AccountingInv.respondStep {s s' : Accounting} (h : AccountingInv s) {timeoutMs : Nat}
    (hstep : respondStep s timeoutMs = some s') : AccountingInv s' := by
  rcases respondStep_cases h hstep with rfl | ⟨x, rest, hqueue, hcase⟩
  · exact h
  · obtain ⟨owner, howner, hid⟩ := (h.genuine x (Or.inr (by simp [hqueue]))).owner
    have hwait := h.open_of_head hqueue howner
    have hle := counted_le s x.ticket.submission
    rcases hcase with ⟨hcode, rfl⟩ | ⟨hcode, done, registry, hconsume, rfl⟩
    · have hsame : ∀ k, (s.receive s.registry x rest false).counted k = s.counted k := by
        intro k
        rw [counted_receive, if_neg (fun hand => hand.2 hcode), Nat.add_zero]
      refine h.receive hqueue false ?_ ?_ ?_
      · intro k sub hsub hopen
        rw [hsame] at hopen ⊢
        exact h.entry k sub hsub hopen
      · intro id remaining hlookup
        obtain ⟨k, sub, hsub, hsubid, hopen⟩ := h.registered id remaining hlookup
        exact ⟨k, sub, hsub, hsubid, by rw [hsame]; exact hopen⟩
      · intro sub _
        simp [hcode]
    · have hlookup := h.entry _ owner howner (by omega)
      have hbounds := h.expected owner (List.mem_of_getElem? howner)
      rw [hid, consume_of_lookup hlookup (by omega) (by omega)] at hconsume
      simp only [Except.ok.injEq, Prod.mk.injEq] at hconsume
      obtain ⟨hdone, hregistry⟩ := hconsume
      have hcounted : ∀ k, (s.receive registry x rest done).counted k =
          s.counted k + if x.ticket.submission = k then 1 else 0 := by
        intro k
        rw [counted_receive]
        simp [hcode]
      have hlookups : ∀ i, registry.submissions.lookup i =
          if i = owner.id then
            if s.counted x.ticket.submission + 1 = owner.expected then none
            else some (owner.expected - (s.counted x.ticket.submission + 1))
          else s.registry.submissions.lookup i := by
        intro i
        rw [← hregistry]
        by_cases hi : i = owner.id
        · subst hi
          by_cases hlast : s.counted x.ticket.submission + 1 = owner.expected
          · have hone : owner.expected - s.counted x.ticket.submission = 1 := by omega
            simp [hlast, hone]
          · have hone : owner.expected - s.counted x.ticket.submission ≠ 1 := by omega
            simp [hlast, hone, Nat.sub_sub]
        · by_cases hone : owner.expected - s.counted x.ticket.submission = 1
          · simp [hi, hone, AList.lookup_erase_ne hi]
          · simp [hi, hone, AList.lookup_insert_ne hi]
      refine h.receive hqueue done ?_ ?_ ?_
      · intro k sub hsub hopen
        rw [hcounted] at hopen ⊢
        rw [hlookups]
        by_cases hk : x.ticket.submission = k
        · subst hk
          obtain rfl := Option.some.inj (howner.symm.trans hsub)
          rw [if_pos rfl] at hopen
          rw [if_pos rfl, if_neg (by omega), if_pos rfl]
        · rw [if_neg hk] at hopen
          rw [if_neg hk, Nat.add_zero, if_neg]
          · exact h.entry k sub hsub hopen
          · intro heq
            exact hk (h.unique_open howner hsub (by omega) hopen heq.symm)
      · intro i remaining hlook
        rw [hlookups] at hlook
        by_cases hi : i = owner.id
        · rw [if_pos hi] at hlook
          split at hlook
          · cases hlook
          · rename_i hlast
            refine ⟨_, owner, howner, hi.symm, ?_⟩
            rw [hcounted, if_pos rfl]
            omega
        · rw [if_neg hi] at hlook
          obtain ⟨k, sub, hsub, hsubid, hopen⟩ := h.registered i remaining hlook
          refine ⟨k, sub, hsub, hsubid, ?_⟩
          rw [hcounted, if_neg, Nat.add_zero]
          · exact hopen
          · rintro rfl
            obtain rfl := Option.some.inj (howner.symm.trans hsub)
            exact hi hsubid.symm
      · intro sub hsub
        obtain rfl := Option.some.inj (howner.symm.trans hsub)
        rw [← hdone, decide_eq_true_eq]
        constructor
        · intro hone
          exact ⟨hcode, by omega⟩
        · rintro ⟨-, hlast⟩
          omega

/-- One step keeps what holds of a live streamer. -/
theorem AccountingInv.step {s s' : Accounting} {action : AccountingAction}
    (h : AccountingInv s) (hcounts : Counts s action)
    (hstep : accountingStep s action = some s') : AccountingInv s' := by
  cases action with
  | submit request => exact h.submitStep hcounts hstep
  | answer ticket outcome => exact h.answerStep hstep
  | respond timeoutMs => exact h.respondStep hstep

/-- A new streamer. -/
theorem accountingInv_start : AccountingInv Accounting.start := by
  refine ⟨⟨rfl, rfl⟩, List.nodup_nil, ?_, rfl, ?_, rfl, ?_, ?_, ?_, ?_, ?_, ?_⟩ <;>
    simp [Accounting.start, SubmissionsMgr.make, SharedQueue.make]

/-! ## The contract -/

/-- The call of {lit}`response` returns without a failed assertion. -/
theorem AccountingInv.response_ok {s : Accounting} (h : AccountingInv s) (timeoutMs : Nat)
    (e : Failure) : response s.registry s.responder timeoutMs ≠ some (.error e) := by
  unfold response
  rw [pop_of_persistent h.alive.1 h.alive.2]
  cases hqueue : s.responder.responses with
  | nil =>
      simp only
      split <;> simp [poppedRet, IsSentinel]
  | cons x rest =>
      simp only [Option.map_some, poppedRet, poppedId]
      by_cases hcode : IsSentinel x.response.ret
      · simp [hcode]
      · obtain ⟨owner, howner, hid⟩ := (h.genuine x (Or.inr (by simp [hqueue]))).owner
        have hwait := h.open_of_head hqueue howner
        have hle := counted_le s x.ticket.submission
        have hlookup := h.entry _ owner howner (by omega)
        have hbounds := h.expected owner (List.mem_of_getElem? howner)
        rw [hid, consume_of_lookup hlookup (by omega) (by omega)]
        simp [hcode, bind, Except.bind, pure, Except.pure]

/--
The accounting of a submission: the caller is told that it is done by its last response and
by no other, its entry counts what is left, and after the last response the entry is gone
unless the id was minted again.
-/
structure Accounted (s : Accounting) (k : Nat) (sub : Accepted) : Prop where
  done_last : (s.deliveredOf k).map Delivered.done =
    if (s.deliveredOf k).length = sub.expected then
      List.replicate (sub.expected - 1) false ++ [true]
    else List.replicate (s.deliveredOf k).length false
  entry_left : (s.deliveredOf k).length < sub.expected →
    s.registry.submissions.lookup sub.id =
      some (sub.expected - (s.deliveredOf k).length)
  entry_gone : (s.deliveredOf k).length = sub.expected → ∀ remaining,
    s.registry.submissions.lookup sub.id = some remaining →
      ∃ (j : Nat) (other : Accepted), k < j ∧ s.accepted[j]? = some other ∧ other.id = sub.id

/-- The outcome is a teardown: a cancelled read, or an abort with a code of that kind. -/
def RangeOutcome.Teardown : RangeOutcome → Prop
  | .completion res _ => res = -eCANCELED
  | .objectAbort turn => turn.ret = .success ∨ turn.ret = .finishedError ∨ turn.ret = .timedOut
  | .finished ret => ret = .finishedError ∨ ret = .timedOut

/-- The outcomes that are taken for no answer are the teardowns. -/
theorem isSentinel_iff_teardown {outcome : RangeOutcome} {code : ResponseCode}
    (h : outcome.code = some code) : IsSentinel code ↔ outcome.Teardown := by
  cases outcome with
  | completion res file =>
      simp only [RangeOutcome.code, Option.some.injEq] at h
      subst h
      rw [IsSentinel, mapCompletion_eq_finishedError, RangeOutcome.Teardown]
      simp [mapCompletion_ne_timedOut]
  | objectAbort turn =>
      simp only [RangeOutcome.code, DrainTurn.abortCode] at h
      simp only [IsSentinel, RangeOutcome.Teardown]
      split_ifs at h with hret hfinished hholding hdry
      · simp only [Option.some.injEq] at h
        subst h
        simp [hret]
      · simp only [ne_eq, Decidable.not_not] at hfinished
        simp only [Option.some.injEq] at h
        subst h
        simp [hfinished]
      · simp only [ne_eq, Decidable.not_not] at hret
        simp only [Option.some.injEq] at h
        subst h
        simp [hret]
  | finished ret =>
      simp only [RangeOutcome.code, Option.some.injEq] at h
      subst h
      rfl

/-- Every response of a submission was counted exactly when none of them is a teardown. -/
theorem AccountingInv.counted_eq_iff {s : Accounting} (h : AccountingInv s) (k : Nat) :
    s.counted k = (s.deliveredOf k).length ↔
      ∀ d ∈ s.deliveredOf k, ¬ d.entry.outcome.Teardown := by
  rw [Accounting.counted, List.countP_eq_length]
  refine forall₂_congr fun d hd => ?_
  have hmem : d.entry ∈ s.delivered.map Delivered.entry :=
    List.mem_map_of_mem (List.mem_filter.1 hd).1
  have hcode := (h.genuine d.entry (Or.inl hmem)).code_eq
  rw [Delivered.counted, decide_eq_true_eq, isSentinel_iff_teardown hcode]

/-- A submission whose responses were all counted is accounted for. -/
theorem AccountingInv.accounted {s : Accounting} (h : AccountingInv s) {k : Nat}
    {sub : Accepted} (hsub : s.accepted[k]? = some sub)
    (hall : ∀ d ∈ s.deliveredOf k, ¬ d.entry.outcome.Teardown) : Accounted s k sub := by
  have hcounted := (h.counted_eq_iff k).2 hall
  have hle := h.length_deliveredOf_add hsub
  refine ⟨?_, ?_, ?_⟩
  · split
    · rename_i hfull
      exact h.reported k sub hsub (by omega)
    · rename_i hopen
      refine List.eq_replicate_iff.2 ⟨List.length_map _, ?_⟩
      intro flag hflag
      obtain ⟨d, hd, rfl⟩ := List.mem_map.1 hflag
      exact h.quiet k sub hsub (by omega) d hd
  · intro hopen
    rw [← hcounted]
    exact h.entry k sub hsub (by omega)
  · intro hfull remaining hlookup
    obtain ⟨j, other, hother, hid, hopen⟩ := h.registered _ _ hlookup
    refine ⟨j, other, ?_, hother, hid⟩
    rcases Nat.lt_trichotomy j k with hlt | heq | hlt
    · have hdone := h.reused j k other sub hlt hother hsub hid
      omega
    · subst heq
      obtain rfl := Option.some.inj (hsub.symm.trans hother)
      omega
    · exact hlt

/-- A submission with a response that was not counted is not accounted for at its end. -/
theorem AccountingInv.not_accounted {s : Accounting} (h : AccountingInv s) {k : Nat}
    {sub : Accepted} (hsub : s.accepted[k]? = some sub)
    (hfull : (s.deliveredOf k).length = sub.expected) (hacc : Accounted s k sub) :
    ∀ d ∈ s.deliveredOf k, ¬ d.entry.outcome.Teardown := by
  rw [← h.counted_eq_iff k]
  by_contra hne
  have hle := counted_le s k
  have hquiet := h.quiet k sub hsub (by omega)
  have hflags := hacc.done_last
  rw [if_pos hfull] at hflags
  have hmem : true ∈ (s.deliveredOf k).map Delivered.done := by simp [hflags]
  obtain ⟨d, hd, hdone⟩ := List.mem_map.1 hmem
  rw [hquiet d hd] at hdone
  cases hdone

/-- The condition under which submissions are accounted for, step by step. -/
def AnswersCounted (s : Accounting) : AccountingAction → Prop
  | .submit request => s.responder.running + totalRanges request < 2 ^ 32
  | .answer _ outcome => ¬ outcome.Teardown
  | .respond _ => True

theorem AnswersCounted.counts {s : Accounting} {action : AccountingAction}
    (h : AnswersCounted s action) : Counts s action := by
  cases action with
  | submit request => exact h
  | answer ticket outcome => trivial
  | respond timeoutMs => trivial

/-- No response that was answered is a teardown. -/
def NoTeardown (s : Accounting) : Prop :=
  ∀ x, x ∈ s.delivered.map Delivered.entry ∨ x ∈ s.responder.responses →
    ¬ x.outcome.Teardown

/-- A step under the condition adds no teardown. -/
theorem NoTeardown.step {s s' : Accounting} {action : AccountingAction} (h : NoTeardown s)
    (hinv : AccountingInv s) (hcond : AnswersCounted s action)
    (hstep : accountingStep s action = some s') : NoTeardown s' := by
  cases action with
  | submit request =>
      simp only [accountingStep, submitStep] at hstep
      split at hstep
      · cases hstep
        exact h
      · split at hstep
        · cases hstep
        · split at hstep
          · cases hstep
            exact h
          · split at hstep
            · cases hstep
            · cases hstep
              exact h
  | answer ticket outcome =>
      simp only [accountingStep, answerStep] at hstep
      split at hstep
      · split at hstep
        · split_ifs at hstep
          cases hstep
          rintro x (hx | hx)
          · exact h x (Or.inl hx)
          · unfold SharedQueue.push at hx
            split_ifs at hx
            · exact h x (Or.inr hx)
            · rcases List.mem_append.1 hx with hmem | hmem
              · exact h x (Or.inr hmem)
              · rw [List.mem_singleton.1 hmem]
                exact hcond
            · exact h x (Or.inr hx)
        · cases hstep
      · cases hstep
  | respond timeoutMs =>
      have hreceive : ∀ (x : Tracked) (rest : List Tracked) (registry : SubmissionsMgr)
          (done : Bool), s.responder.responses = x :: rest →
          NoTeardown (s.receive registry x rest done) := by
        intro x rest registry done hqueue y hy
        rcases hy with hmem | hmem
        · simp only [Accounting.receive, List.map_append, List.mem_append] at hmem
          rcases hmem with hmem | hmem
          · exact h y (Or.inl hmem)
          · rw [List.map_cons, List.map_nil, List.mem_singleton] at hmem
            rw [hmem]
            exact h x (Or.inr (by simp [hqueue]))
        · exact h y (Or.inr (by rw [hqueue]; exact List.mem_cons_of_mem _ hmem))
      rcases respondStep_cases hinv hstep with rfl | ⟨x, rest, hqueue, hcase⟩
      · exact h
      · rcases hcase with ⟨-, rfl⟩ | ⟨-, done, registry, -, rfl⟩
        · exact hreceive x rest s.registry false hqueue
        · exact hreceive x rest registry done hqueue

/--
In every run in which no range is answered by a teardown and the responder can count what
is outstanding, every submission is accounted for in every state, and no call of
{lit}`response` fails an assertion.  In every run that keeps the responder's count, a
submission that received all of its responses is accounted for exactly when none of them
was a teardown.
-/
theorem submission_accounting {actions : List AccountingAction} {s : Accounting}
    (hrun : run accountingStep Accounting.start actions = some s) :
    (EachStep accountingStep AnswersCounted Accounting.start actions →
      (∀ (k : Nat) (sub : Accepted), s.accepted[k]? = some sub → Accounted s k sub) ∧
        ∀ timeoutMs e, response s.registry s.responder timeoutMs ≠ some (.error e)) ∧
    (EachStep accountingStep Counts Accounting.start actions →
      ∀ (k : Nat) (sub : Accepted), s.accepted[k]? = some sub →
        (s.deliveredOf k).length = sub.expected →
        (Accounted s k sub ↔ ∀ d ∈ s.deliveredOf k, ¬ d.entry.outcome.Teardown)) := by
  constructor
  · intro hall
    have hstart : AccountingInv Accounting.start ∧ NoTeardown Accounting.start :=
      ⟨accountingInv_start, by simp [NoTeardown, Accounting.start, SharedQueue.make]⟩
    have hstep : ∀ s action s', AccountingInv s ∧ NoTeardown s → AnswersCounted s action →
        accountingStep s action = some s' → AccountingInv s' ∧ NoTeardown s' := by
      intro s action s' hinv hcond hstep
      exact ⟨hinv.1.step hcond.counts hstep, hinv.2.step hinv.1 hcond hstep⟩
    have hinv := run_invariant_of hstep hstart hall hrun
    refine ⟨?_, fun timeoutMs e => hinv.1.response_ok timeoutMs e⟩
    intro k sub hsub
    refine hinv.1.accounted hsub fun d hd => ?_
    exact hinv.2 d.entry (Or.inl (List.mem_map_of_mem (List.mem_filter.1 hd).1))
  · intro hall k sub hsub hfull
    have hinv : AccountingInv s :=
      run_invariant_of (fun s action s' hinv hcond hstep => hinv.step hcond hstep)
        accountingInv_start hall hrun
    exact ⟨hinv.not_accounted hsub hfull, hinv.accounted hsub⟩

/-- A request of one range. -/
def oneRange : List FileRanges :=
  [{ path := ['a'], ranges := [⟨0, 8, 4096⟩] }]

/-- Submit one range, answer it so, and receive the response. -/
def oneRangeActions (outcome : RangeOutcome) : List AccountingAction :=
  [.submit oneRange, .answer ⟨0, 0⟩ outcome, .respond 100]

theorem submission_accounting_oneRange :
    ∃ s, run accountingStep Accounting.start
        (oneRangeActions (.completion (-5) ⟨3, false⟩)) = some s ∧
      s.delivered = [⟨⟨⟨0, 0⟩, .completion (-5) ⟨3, false⟩, ⟨1, 0, 0, .fileAccessError⟩⟩, true⟩] ∧
      Accounted s 0 ⟨1, oneRange⟩ := by
  have hrun : (run accountingStep Accounting.start
      (oneRangeActions (.completion (-5) ⟨3, false⟩))).isSome := by decide +kernel
  obtain ⟨s, hs⟩ := Option.isSome_iff_exists.1 hrun
  have hstate : ∀ s', run accountingStep Accounting.start
      (oneRangeActions (.completion (-5) ⟨3, false⟩)) = some s' →
        s'.delivered =
          [⟨⟨⟨0, 0⟩, .completion (-5) ⟨3, false⟩, ⟨1, 0, 0, .fileAccessError⟩⟩, true⟩] ∧
        s'.accepted = [⟨1, oneRange⟩] := by decide +kernel
  obtain ⟨hdelivered, haccepted⟩ := hstate s hs
  refine ⟨s, hs, hdelivered, ?_⟩
  refine ((submission_accounting hs).1 ?_).1 0 ⟨1, oneRange⟩ (by rw [haccepted]; rfl)
  refine ⟨?_, fun s₁ _ => ⟨?_, fun s₂ _ => ⟨trivial, fun _ _ => trivial⟩⟩⟩
  · change Accounting.start.responder.running + totalRanges oneRange < 2 ^ 32
    decide
  change ¬ ((-5 : Int) = -eCANCELED)
  decide

/-- The only response of a submission was received without being counted. -/
def LeftLive (outcome : RangeOutcome) (s : Accounting) : Prop :=
  s.accepted = [⟨1, oneRange⟩] ∧
    s.delivered = [⟨⟨⟨0, 0⟩, outcome, ⟨1, 0, 0, .finishedError⟩⟩, false⟩] ∧
    s.registry.submissions.lookup 1 = some 1

theorem LeftLive.not_accounted {outcome : RangeOutcome} {s : Accounting}
    (h : LeftLive outcome s) : ¬ Accounted s 0 ⟨1, oneRange⟩ := by
  intro hacc
  have hlist : s.deliveredOf 0 = [⟨⟨⟨0, 0⟩, outcome, ⟨1, 0, 0, .finishedError⟩⟩, false⟩] := by
    simp [Accounting.deliveredOf, h.2.1]
  have hexpected : (Accepted.mk 1 oneRange).expected = 1 := by decide
  have hlast := hacc.done_last
  rw [hlist, hexpected] at hlast
  simp at hlast

/--
A range whose read was cancelled, and one that was in flight when its object storage client
ended, are each delivered on a live streamer without being counted: the submission is not
reported done and stays in the registry.
-/
theorem cancelled_read_not_accounted :
    (∃ s, run accountingStep Accounting.start
        (oneRangeActions (.completion (-125) ⟨3, false⟩)) = some s ∧
      LeftLive (.completion (-125) ⟨3, false⟩) s ∧ ¬ Accounted s 0 ⟨1, oneRange⟩) ∧
    (∃ s, run accountingStep Accounting.start
        (oneRangeActions (.objectAbort ⟨.finishedError, [], false, false⟩)) = some s ∧
      LeftLive (.objectAbort ⟨.finishedError, [], false, false⟩) s ∧
        ¬ Accounted s 0 ⟨1, oneRange⟩) := by
  have hrun : ∀ o ∈ [RangeOutcome.completion (-125) ⟨3, false⟩,
        .objectAbort ⟨.finishedError, [], false, false⟩],
      (run accountingStep Accounting.start (oneRangeActions o)).isSome := by decide +kernel
  have hstate : ∀ o ∈ [RangeOutcome.completion (-125) ⟨3, false⟩,
        .objectAbort ⟨.finishedError, [], false, false⟩],
      ∀ s', run accountingStep Accounting.start (oneRangeActions o) = some s' →
        s'.accepted = [⟨1, oneRange⟩] ∧
        s'.delivered = [⟨⟨⟨0, 0⟩, o, ⟨1, 0, 0, .finishedError⟩⟩, false⟩] ∧
        s'.registry.submissions.lookup 1 = some 1 := by decide +kernel
  constructor
  · obtain ⟨s, hs⟩ := Option.isSome_iff_exists.1 (hrun (.completion (-125) ⟨3, false⟩) (by simp))
    have hleft := hstate _ List.mem_cons_self s hs
    exact ⟨s, hs, hleft, LeftLive.not_accounted hleft⟩
  · obtain ⟨s, hs⟩ := Option.isSome_iff_exists.1
      (hrun (.objectAbort ⟨.finishedError, [], false, false⟩) (by simp))
    have hleft := hstate _ (List.mem_cons_of_mem _ List.mem_cons_self) s hs
    exact ⟨s, hs, hleft, LeftLive.not_accounted hleft⟩

end Streamer
end ModelStreamer
