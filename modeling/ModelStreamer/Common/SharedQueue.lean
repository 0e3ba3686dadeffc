import ModelStreamer.Common.ResponseCode
import ModelStreamer.Lib.Word

/-!
# The responder queue

{lit}`SharedQueue`: several producers push responses, one consumer pops them.  Every push
posts the semaphore once and every pop takes one post, so a pop that is woken up finds a
response; the semaphore is the length of the queue.
-/

namespace ModelStreamer
namespace Common

open Lib

/-- {lit}`QueueMode`: who decides that the queue is finished. -/
inductive QueueMode where
  | finishOnDrain
  | persistent
deriving DecidableEq, Repr

/-- {lit}`SharedQueue`; {lit}`running` is an {lit}`unsigned`. -/
structure SharedQueue (α : Type*) where
  mode : QueueMode
  running : Nat
  responses : List α
  stopped : Bool
  successful : Bool
  unexpectedPushError : Bool
deriving DecidableEq, Repr

namespace SharedQueue

variable {α : Type*}

/-- The constructor. -/
def make (running : Nat) (mode : QueueMode) : SharedQueue α :=
  { mode, running, responses := [], stopped := false, successful := true,
    unexpectedPushError := false }

/-- {lit}`increment`: more responses are expected. -/
def increment (q : SharedQueue α) (running : Nat) : SharedQueue α :=
  { q with running := wordAdd 32 q.running running }

/-- {lit}`push`: a response that nobody expects is dropped and remembered as an error. -/
def push (ret : α → ResponseCode) (q : SharedQueue α) (response : α) : SharedQueue α :=
  if q.stopped then q
  else if 0 < q.running then
    { q with
      successful := q.successful && decide (ret response = .success)
      responses := q.responses ++ [response]
      running := q.running - 1 }
  else
    { q with
      successful := q.successful && decide (ret response = .success)
      unexpectedPushError := true }

/-- {lit}`finished`. -/
def finished (q : SharedQueue α) : Bool :=
  decide (q.running = 0) && q.responses.isEmpty

/-- What a pop returns: a response, or one that only carries a code. -/
inductive Popped (α : Type*) where
  | response (a : α)
  | sentinel (code : ResponseCode)
deriving DecidableEq, Repr

/-- {lit}`pop`; a pop without timeout returns nothing until there is a response. -/
def pop (q : SharedQueue α) (timeoutMs : Nat) : Option (Popped α × SharedQueue α) :=
  if q.stopped then some (.sentinel .finishedError, q)
  else if q.mode = .finishOnDrain ∧ q.finished then some (.sentinel .finishedError, q)
  else
    match q.responses with
    | response :: responses => some (.response response, { q with responses })
    | [] => if timeoutMs = 0 then none else some (.sentinel .timedOut, q)

/-- {lit}`stop`: terminal in both modes. -/
def stop (q : SharedQueue α) : SharedQueue α :=
  { q with stopped := true }

/-- An expected response is queued. -/
theorem push_of_running {ret : α → ResponseCode} {q : SharedQueue α} (response : α)
    (hstopped : q.stopped = false) (hrunning : 0 < q.running) :
    q.push ret response =
      { q with
        successful := q.successful && decide (ret response = .success)
        responses := q.responses ++ [response]
        running := q.running - 1 } := by
  simp [push, hstopped, hrunning]

/-- A persistent queue pops its first response. -/
theorem pop_of_persistent {q : SharedQueue α} (hstopped : q.stopped = false)
    (hmode : q.mode = .persistent) (timeoutMs : Nat) :
    q.pop timeoutMs =
      match q.responses with
      | response :: responses => some (.response response, { q with responses })
      | [] => if timeoutMs = 0 then none else some (.sentinel .timedOut, q) := by
  simp [pop, hstopped, hmode]

end SharedQueue

end Common
end ModelStreamer
