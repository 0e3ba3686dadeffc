import ModelStreamer.Lib.Counting
import ModelStreamer.Lib.Run
import ModelStreamer.Streamer.Submission

/-!
# Finishing tasks and answering ranges

The run-time side of a submission.  Every batch is worked on by one thread, and the tasks of
one range may belong to batches of different threads.  Finishing a task is not one atomic
step: the task's own flag is set, the error is stored in the shared request, the shared
counter is decremented, and the thread that saw the counter at one reads the code back and
pushes the response.  The model takes each of these steps by itself, so that the steps of
different threads interleave in every possible way.

The dispatching thread hands the workloads over one after the other.  An exception leaves
the workloads from that one on with it, and it then fails all of their batches.
-/

namespace ModelStreamer
namespace Streamer

open Common Lib

/-! ## Threads -/

/-- {lit}`common::Response`: what the caller receives for a range. -/
structure Response where
  submissionId : Nat
  fileIndex : Nat
  index : Nat
  ret : ResponseCode
deriving DecidableEq, Repr

/-- How far a thread is inside {lit}`Task::finished_request` and the push after it. -/
inductive Finishing where
  | no
  /-- The flag of the task is set; an error is about to be stored in the request. -/
  | storing (request : Nat) (code : ResponseCode)
  /-- The counter of the request is about to be decremented. -/
  | decrementing (request : Nat)
  /-- The counter was at one; the code is about to be read and the response pushed. -/
  | pushing (request : Nat)
deriving DecidableEq, Repr

/-- The operation of {lit}`Batch` a thread is in, with the task its loop has reached. -/
inductive BatchCall where
  | none
  | finishedUntil (fileOffset : Nat) (ret : ResponseCode) (i : Nat)
  | handleTaskResponse (code : ResponseCode) (i : Nat)
  | handleError (code : ResponseCode) (i : Nat)
deriving DecidableEq, Repr

/-- A batch with the thread that works on it. -/
structure BatchThread where
  workload : Nat
  batch : Batch
  call : BatchCall
  finishing : Finishing
deriving DecidableEq, Repr

/-- The thread is in no operation of its batch. -/
def BatchThread.idle (t : BatchThread) : Bool :=
  t.call = .none && t.finishing = .no

/-- How far the dispatching thread is. -/
inductive Dispatch where
  /-- The workloads before {lit}`next` were handed over. -/
  | dispatching (next : Nat)
  /-- {lit}`drain_undispatched`: the batch being failed and the batches still to fail. -/
  | draining (start : Nat) (current : Option Nat) (todo : List Nat)
  /-- The call returned, with this many workloads handed over. -/
  | returned (handed : Nat)
deriving DecidableEq, Repr

/-- The workload was handed to a pool. -/
def Dispatch.handedOver : Dispatch → Nat → Bool
  | .dispatching next, w => w < next
  | .draining start _ _, w => w < start
  | .returned handed, w => w < handed

/-- A response in the responder, with the request that it answers. -/
structure Pushed where
  request : Nat
  response : Response
  bytesize : Nat
deriving DecidableEq, Repr

/-- History: a task was finished for the first time, with this code. -/
structure Finish where
  thread : Nat
  task : Nat
  request : Nat
  code : ResponseCode
deriving DecidableEq, Repr

/-- The state of a submission at run time. {lit}`finishes` only records what happened. -/
structure Completion where
  heap : List Request
  threads : List BatchThread
  pushed : List Pushed
  finishes : List Finish
  numWorkloads : Nat
  dispatch : Dispatch
deriving DecidableEq, Repr

/-! ## Steps of one thread -/

/-- Replace the state of one thread. -/
def Completion.setThread (s : Completion) (k : Nat) (t : BatchThread) : Completion :=
  { s with threads := s.threads.set k t }

/-- Replace one request of the heap. -/
def Completion.setRequest (s : Completion) (p : Nat) (r : Request) : Completion :=
  { s with heap := s.heap.set p r }

/-- The batch with the flag of one task set. -/
def Batch.flag (batch : Batch) (i : Nat) (task : Task) : Batch :=
  { batch with tasks := batch.tasks.set i { task with finished := true } }

/-- Where {lit}`Request::finished` goes on after the flag is set. -/
def Finishing.start (request : Nat) (code : ResponseCode) : Finishing :=
  if code = .success then .decrementing request else .storing request code

/--
{lit}`Task::finished_request` up to the shared request: nothing happens to a task that is
finished already, and the operation goes on with {lit}`next`.
-/
def finishTask (s : Completion) (k : Nat) (t : BatchThread) (i : Nat) (task : Task)
    (code : ResponseCode) (next : BatchCall) : Completion :=
  if task.finished then
    s.setThread k { t with call := next }
  else
    { s.setThread k
        { t with
          batch := t.batch.flag i task
          call := next
          finishing := Finishing.start task.request code } with
      finishes := s.finishes ++ [⟨k, i, task.request, code⟩] }

/-- {lit}`Request::finished`: store an error. -/
def storeStep (s : Completion) (k : Nat) (t : BatchThread) (p : Nat) (code : ResponseCode) :
    Option Completion :=
  match s.heap[p]? with
  | some r => some
      ((s.setRequest p { r with ret := code }).setThread k
        { t with finishing := .decrementing p })
  | none => none

/-- {lit}`Request::finished`: {lit}`_tasks.fetch_sub(1)`, and whether it was the last. -/
def decrementStep (s : Completion) (k : Nat) (t : BatchThread) (p : Nat) :
    Option Completion :=
  match s.heap[p]? with
  | some r => some
      ((s.setRequest p { r with tasks := wordSub 32 r.tasks 1 }).setThread k
        { t with finishing := if r.tasks = 1 then .pushing p else .no })
  | none => none

/-- The response of a request, as the batch that finished it builds it. -/
def Batch.response (batch : Batch) (r : Request) : Response :=
  { submissionId := batch.submissionId
    fileIndex := batch.fileIndex
    index := r.index
    ret := r.ret }

/-- {lit}`responder->push` for a request that was finished last by this batch. -/
def pushStep (s : Completion) (k : Nat) (t : BatchThread) (p : Nat) : Option Completion :=
  match s.heap[p]? with
  | some r => some
      { s.setThread k { t with finishing := .no } with
        pushed := s.pushed ++ [⟨p, t.batch.response r, r.bytesize⟩] }
  | none => none

/-- The next turn of the operation a thread is in. -/
def callStep (s : Completion) (k : Nat) (t : BatchThread) : Option Completion :=
  match t.call with
  | .none => none
  | .finishedUntil fileOffset ret i =>
      let leave := s.setThread k
        { t with batch := { t.batch with unfinished := i }, call := .none }
      match t.batch.tasks[i]? with
      | some task =>
          if fileOffset < task.info.stop then some leave
          else some (finishTask s k t i task ret (.finishedUntil fileOffset ret (i + 1)))
      | none => some leave
  | .handleTaskResponse code i =>
      match t.batch.tasks[i]? with
      | some task => some (finishTask s k t i task code .none)
      | none => none
  | .handleError code i =>
      if code = .success then
        some (s.setThread k { t with call := .none })
      else
        match t.batch.tasks[i]? with
        | some task => some (finishTask s k t i task code (.handleError code (i + 1)))
        | none => some (s.setThread k { t with call := .none })

/-- One step of thread {lit}`k`. -/
def threadStep (s : Completion) (k : Nat) : Option Completion :=
  match s.threads[k]? with
  | none => none
  | some t =>
      match t.finishing with
      | .storing p code => storeStep s k t p code
      | .decrementing p => decrementStep s k t p
      | .pushing p => pushStep s k t p
      | .no => callStep s k t

/-! ## The system -/

/-- What can happen next. -/
inductive Action where
  /-- The worker of a handed-over batch calls an operation of it. -/
  | finishedUntil (k : Nat) (fileOffset : Nat) (ret : ResponseCode)
  | handleTaskResponse (k : Nat) (code : ResponseCode) (i : Nat)
  | handleError (k : Nat) (code : ResponseCode)
  /-- A thread takes one step. -/
  | step (k : Nat)
  /-- The next workload is handed over, or the call returns after the last one. -/
  | dispatch
  /-- Handing the next workload over throws. -/
  | throwing
  /-- {lit}`drain_undispatched` goes on. -/
  | drain
deriving DecidableEq, Repr

/-- Start an operation on an idle batch that satisfies the condition. -/
def beginCall (s : Completion) (k : Nat) (allowed : BatchThread → Bool)
    (call : BatchThread → BatchCall) : Option Completion :=
  match s.threads[k]? with
  | none => none
  | some t =>
      if t.idle && allowed t then some (s.setThread k { t with call := call t }) else none

/-- The batches of the workloads from {lit}`start` on, in the order they are drained. -/
def undispatched (threads : List BatchThread) (start : Nat) : List Nat :=
  (List.range threads.length).filter fun k =>
    match threads[k]? with
    | some t => start ≤ t.workload
    | none => false

/-- One step of {lit}`drain_undispatched`. -/
def drainStep (s : Completion) : Option Completion :=
  match s.dispatch with
  | .draining start none (k :: todo) =>
      (beginCall s k (fun _ => true) fun _ => .handleError .unknownError 0).map fun s =>
        { s with dispatch := .draining start (some k) todo }
  | .draining start (some k) todo =>
      match s.threads[k]? with
      | some t => if t.idle then some { s with dispatch := .draining start none todo } else none
      | none => none
  | .draining start none [] => some { s with dispatch := .returned start }
  | _ => none

/-- The transition function of the system. -/
def completionStep (s : Completion) : Action → Option Completion
  | .finishedUntil k fileOffset ret =>
      beginCall s k (fun t => s.dispatch.handedOver t.workload) fun t =>
        .finishedUntil fileOffset ret t.batch.unfinished
  | .handleTaskResponse k code i =>
      beginCall s k
        (fun t => s.dispatch.handedOver t.workload && decide (i < t.batch.tasks.length))
        fun _ => .handleTaskResponse code i
  | .handleError k code =>
      beginCall s k (fun t => s.dispatch.handedOver t.workload) fun _ => .handleError code 0
  | .step k => threadStep s k
  | .dispatch =>
      match s.dispatch with
      | .dispatching next =>
          if next < s.numWorkloads then some { s with dispatch := .dispatching (next + 1) }
          else some { s with dispatch := .returned next }
      | _ => none
  | .throwing =>
      match s.dispatch with
      | .dispatching next =>
          if next < s.numWorkloads then
            some { s with dispatch := .draining next none (undispatched s.threads next) }
          else none
      | _ => none
  | .drain => drainStep s

/-- The threads of the workloads, numbered from {lit}`w` on. -/
def threadsOf : Nat → List Workload → List BatchThread
  | _, [] => []
  | w, workload :: workloads =>
      workload.batches.map (fun batch => ⟨w, batch, .none, .no⟩) ++ threadsOf (w + 1) workloads

/-- A submission that was committed and not dispatched yet. -/
def Completion.start (heap : List Request) (workloads : List Workload) : Completion :=
  { heap
    threads := threadsOf 0 workloads
    pushed := []
    finishes := []
    numWorkloads := workloads.length
    dispatch := .dispatching 0 }

end Streamer
end ModelStreamer
