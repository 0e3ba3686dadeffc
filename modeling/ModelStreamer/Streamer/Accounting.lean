import Mathlib.Data.List.AList
import ModelStreamer.Common.SharedQueue
import ModelStreamer.Lib.Run
import ModelStreamer.PosixIo.CompletionMapper
import ModelStreamer.Streamer.Completion
import ModelStreamer.Streamer.SubmissionTiling

/-!
# Submission accounting

The streamer's registry of submissions and the call that hands responses to the caller.  A
submission is registered with the number of its ranges; {lit}`Streamer::response` counts
the responses it hands out against their submission and reports the last one.

Workers answer ranges in any order.  The code of a range comes from the completion of a
read, from the end of an object storage client, or from the reader that failed.
-/

namespace ModelStreamer
namespace Streamer

open Common Lib PosixIo

/-! ## The registry -/

/-- {lit}`SubmissionsMgr`: the responses still to be consumed, for each live submission. -/
structure SubmissionsMgr where
  nextId : Nat
  submissions : AList fun _ : Nat => Nat
deriving DecidableEq

namespace SubmissionsMgr

/-- A registry without submissions; the id zero is reserved. -/
def make : SubmissionsMgr :=
  { nextId := 1, submissions := ∅ }

/-- The loop of {lit}`generate`, with a bound on the number of its turns. -/
def generateFrom (m : SubmissionsMgr) : Nat → Nat → Option (Nat × Nat)
  | 0, _ => none
  | fuel + 1, next =>
      let id := if next = 0 then wordAdd 64 next 1 else next
      if id ∈ m.submissions then m.generateFrom fuel (wordAdd 64 id 1)
      else some (id, wordAdd 64 id 1)

/-- {lit}`generate`: an id that is not zero and not live. -/
def generate (m : SubmissionsMgr) : Option (Nat × SubmissionsMgr) :=
  (m.generateFrom (2 ^ 64) m.nextId).map fun (id, next) => (id, { m with nextId := next })

/-- {lit}`add`. -/
def add (m : SubmissionsMgr) (submissionId expected : Nat) : Except Failure SubmissionsMgr :=
  if submissionId ∈ m.submissions then .error .assertion
  else .ok { m with submissions := m.submissions.insert submissionId expected }

/-- {lit}`consume`: whether this was the submission's last response. -/
def consume (m : SubmissionsMgr) (submissionId : Nat) : Except Failure (Bool × SubmissionsMgr) :=
  match m.submissions.lookup submissionId with
  | none => .error .assertion
  | some remaining =>
      if wordSub 32 remaining 1 = 0 then
        .ok (true, { m with submissions := m.submissions.erase submissionId })
      else
        .ok (false, { m with
          submissions := m.submissions.insert submissionId (wordSub 32 remaining 1) })

/-- A minted id is not live. -/
theorem generateFrom_fresh {m : SubmissionsMgr} {fuel next id next' : Nat}
    (h : m.generateFrom fuel next = some (id, next')) : id ∉ m.submissions := by
  induction fuel generalizing next with
  | zero => simp [generateFrom] at h
  | succ fuel ih =>
      simp only [generateFrom] at h
      generalize (if next = 0 then wordAdd 64 next 1 else next) = i at h
      split at h
      · exact ih h
      · rename_i hfresh
        simp only [Option.some.injEq, Prod.mk.injEq] at h
        rw [← h.1]
        exact hfresh

theorem generate_fresh {m m' : SubmissionsMgr} {id : Nat} (h : m.generate = some (id, m')) :
    id ∉ m.submissions ∧ m'.submissions = m.submissions := by
  obtain ⟨⟨i, next⟩, hfrom, heq⟩ := Option.map_eq_some_iff.1 h
  simp only [Prod.mk.injEq] at heq
  obtain ⟨rfl, rfl⟩ := heq
  exact ⟨generateFrom_fresh hfrom, rfl⟩

end SubmissionsMgr

/-! ## What a range is answered with -/

/-- One event that an object storage client handed out. -/
structure DrainEvent where
  ret : ResponseCode
  /-- The handle belongs to a chunk that is still in flight. -/
  known : Bool
deriving DecidableEq, Repr

/-- A turn of {lit}`ObjectStorageWorker::drain_batch` that has chunks in flight. -/
structure DrainTurn where
  /-- What {lit}`async_response` returned. -/
  ret : ResponseCode
  responses : List DrainEvent
  /-- {lit}`holding_work()`. -/
  holdingWork : Bool
  /-- {lit}`_queue->idle()`. -/
  idle : Bool
deriving DecidableEq, Repr

/-- The loop over the events: whether one made progress, and whether the responder ran dry. -/
def scanEvents : List DrainEvent → Bool → Bool → Bool × Bool
  | [], progressed, drained => (progressed, drained)
  | event :: events, progressed, drained =>
      if event.ret = .finishedError then (progressed, true)
      else if event.known then scanEvents events true drained
      else scanEvents events progressed drained

/-- The code that {lit}`ObjectStorageWorker::drain_batch` aborts everything in flight with. -/
def DrainTurn.abortCode (turn : DrainTurn) : Option ResponseCode :=
  if turn.ret ≠ .success then
    if turn.ret ≠ .finishedError then some turn.ret
    else if turn.holdingWork then none
    else some turn.ret
  else
    let (progressed, drained) := scanEvents turn.responses false turn.responses.isEmpty
    if !progressed && drained && !turn.holdingWork && !turn.idle then some .finishedError
    else none

/-- What happened to a range, as its worker saw it. -/
inductive RangeOutcome where
  /-- The read of an asynchronous engine completed with this result. -/
  | completion (res : Int) (file : FileRef)
  /-- The range was in flight when the object storage worker aborted. -/
  | objectAbort (turn : DrainTurn)
  /-- A reader finished the range with this code of its own. -/
  | finished (ret : ResponseCode)
deriving DecidableEq, Repr

/-- The code of the range, if the outcome answers it at all. -/
def RangeOutcome.code : RangeOutcome → Option ResponseCode
  | .completion res file => some (mapCompletion res file)
  | .objectAbort turn => turn.abortCode
  | .finished ret => some ret

/-- The codes that {lit}`Streamer::response` takes for no answer to a range. -/
def IsSentinel (code : ResponseCode) : Prop :=
  code = .finishedError ∨ code = .timedOut

instance (code : ResponseCode) : Decidable (IsSentinel code) :=
  inferInstanceAs (Decidable (_ ∨ _))

/-! ## The streamer's side of the responses -/

/-- History: a range of the submission accepted at this position. -/
structure Ticket where
  submission : Nat
  range : Nat
deriving DecidableEq, Repr

/-- A response in the responder, with the range it answers and how it came about. -/
structure Tracked where
  ticket : Ticket
  outcome : RangeOutcome
  response : Response
deriving DecidableEq, Repr

/-- The code of what was popped. -/
def poppedRet : SharedQueue.Popped Tracked → ResponseCode
  | .response x => x.response.ret
  | .sentinel code => code

/-- The submission id of what was popped; a sentinel carries zero. -/
def poppedId : SharedQueue.Popped Tracked → Nat
  | .response x => x.response.submissionId
  | .sentinel _ => 0

/-- What one call of {lit}`Streamer::response` gives. -/
structure Responded where
  popped : SharedQueue.Popped Tracked
  submissionDone : Bool
  registry : SubmissionsMgr
  responder : SharedQueue Tracked

/-- {lit}`Streamer::response`; nothing while it blocks. -/
def response (registry : SubmissionsMgr) (responder : SharedQueue Tracked) (timeoutMs : Nat) :
    Option (Except Failure Responded) :=
  (responder.pop timeoutMs).map fun (popped, responder) =>
    if IsSentinel (poppedRet popped) then
      .ok ⟨popped, false, registry, responder⟩
    else do
      let (done, registry) ← registry.consume (poppedId popped)
      return ⟨popped, done, registry, responder⟩

/-! ## The system -/

/-- History: an accepted submission. -/
structure Accepted where
  id : Nat
  request : List FileRanges
deriving DecidableEq, Repr

/-- The responses that a submission owes. -/
def Accepted.expected (sub : Accepted) : Nat :=
  totalRanges sub.request

/-- History: a response the caller received for a range. -/
structure Delivered where
  entry : Tracked
  done : Bool
deriving DecidableEq, Repr

/-- The accounting state of a live streamer with its history. -/
structure Accounting where
  registry : SubmissionsMgr
  responder : SharedQueue Tracked
  accepted : List Accepted
  answered : List Ticket
  delivered : List Delivered
deriving DecidableEq

/-- A streamer that was just made. -/
def Accounting.start : Accounting :=
  { registry := SubmissionsMgr.make
    responder := SharedQueue.make 0 .persistent
    accepted := []
    answered := []
    delivered := [] }

/-- What can happen next. -/
inductive AccountingAction where
  /-- The caller submits a request that is accepted. -/
  | submit (request : List FileRanges)
  /-- A worker answers a range. -/
  | answer (ticket : Ticket) (outcome : RangeOutcome)
  /-- The caller asks for a response. -/
  | respond (timeoutMs : Nat)
deriving DecidableEq, Repr

/-- The accounting part of {lit}`Streamer::async_request`. -/
def submitStep (s : Accounting) (request : List FileRanges) : Option Accounting :=
  if 2 ^ 32 ≤ totalRanges request then
    some s
  else
    match s.registry.generate with
    | none => none
    | some (id, registry) =>
        if totalRanges request = 0 then some { s with registry }
        else
          match registry.add id (totalRanges request) with
          | .error _ => none
          | .ok registry => some
              { s with
                registry
                responder := s.responder.increment (totalRanges request)
                accepted := s.accepted ++ [⟨id, request⟩] }

/-- A worker pushes the response of a range that was not answered before. -/
def answerStep (s : Accounting) (ticket : Ticket) (outcome : RangeOutcome) :
    Option Accounting :=
  match s.accepted[ticket.submission]?, outcome.code with
  | some sub, some code =>
      match (placedFiles 0 sub.request)[ticket.range]? with
      | some placed =>
          if ticket ∈ s.answered then none
          else some
            { s with
              answered := s.answered ++ [ticket]
              responder := s.responder.push (fun x => x.response.ret)
                ⟨ticket, outcome, ⟨sub.id, placed.fileIndex, placed.index, code⟩⟩ }
      | none => none
  | _, _ => none

/-- The responses received so far, after this one. -/
def deliver (delivered : List Delivered) (r : Responded) : List Delivered :=
  match r.popped with
  | .response x => delivered ++ [⟨x, r.submissionDone⟩]
  | .sentinel _ => delivered

/-- The caller receives a response. -/
def respondStep (s : Accounting) (timeoutMs : Nat) : Option Accounting :=
  match response s.registry s.responder timeoutMs with
  | some (.ok r) => some
      { s with
        registry := r.registry
        responder := r.responder
        delivered := deliver s.delivered r }
  | _ => none

/-- The transition function of the accounting. -/
def accountingStep (s : Accounting) : AccountingAction → Option Accounting
  | .submit request => submitStep s request
  | .answer ticket outcome => answerStep s ticket outcome
  | .respond timeoutMs => respondStep s timeoutMs

end Streamer
end ModelStreamer
