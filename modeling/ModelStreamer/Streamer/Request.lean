import ModelStreamer.Common.ResponseCode
import ModelStreamer.Lib.Word

/-!
# Ranges, requests and tasks

The data a submission is made of.  The caller lists files, each with the ranges to read
from it; the streamer turns every range into one {lit}`Request` object and cuts its bytes
into tasks.  Tasks share their request through a pointer, so the requests of a submission
live in a heap and a task holds the position of its request there.

Offsets and sizes are {lit}`size_t`, kept as natural numbers with the reduction modulo
{lit}`2 ^ 64` written where the code adds.  Pointers are 64-bit words.
-/

namespace ModelStreamer
namespace Streamer

open Common Lib

/-! ## Addresses -/

/-- A {lit}`char *` of the 64-bit process. -/
abbrev Addr := BitVec 64

/-- Pointer arithmetic: {lit}`p + n`. -/
def ptrAdd (p : Addr) (n : Nat) : Addr :=
  p + BitVec.ofNat 64 n

@[simp]
theorem ptrAdd_zero (p : Addr) : ptrAdd p 0 = p := by
  simp [ptrAdd]

/-- Two steps of a pointer are one step by the sum. -/
theorem ptrAdd_ptrAdd (p : Addr) (m n : Nat) :
    ptrAdd (ptrAdd p m) n = ptrAdd p (m + n) := by
  simp only [ptrAdd, BitVec.ofNat_add, BitVec.add_assoc]

/-! ## The caller's input -/

/-- A path as the caller wrote it, character by character. -/
abbrev Path := List Char

/-- {lit}`ReadRange`: one range of a file with its destination. -/
structure ReadRange where
  offset : Nat
  size : Nat
  dst : Addr
deriving DecidableEq, Repr

/-- {lit}`FileRanges`: one file of a submission with the ranges requested from it. -/
structure FileRanges where
  path : Path
  ranges : List ReadRange
deriving DecidableEq, Repr

/-! ## Requests and tasks -/

/--
{lit}`Request`: the streamer's object for one range.  {lit}`tasks` is the atomic counter of
tasks still to finish and {lit}`ret` the code the range will be answered with.
-/
structure Request where
  offset : Nat
  fileIndex : Nat
  index : Nat
  bytesize : Nat
  dst : Addr
  tasks : Nat
  ret : ResponseCode
deriving DecidableEq, Repr

/-- The constructor of {lit}`Request`; the counter is an {lit}`unsigned`. -/
def Request.make (offset fileIndex index tasks bytesize : Nat) (dst : Addr) : Request :=
  { offset, fileIndex, index, bytesize, dst, tasks := toWord 32 tasks, ret := .success }

/-- {lit}`Task::Info`: the bytes of one task. -/
structure TaskInfo where
  offset : Nat
  bytesize : Nat
  stop : Nat
  relativeOffset : Nat
deriving DecidableEq, Repr

/-- The constructor of {lit}`Task::Info`, which derives the end from the offset and size. -/
def TaskInfo.make (offset bytesize relativeOffset : Nat) : TaskInfo :=
  { offset, bytesize, stop := wordAdd 64 offset bytesize, relativeOffset }

/-- {lit}`Task`: a pointer to its request, its bytes, and the once-only flag. -/
structure Task where
  request : Nat
  info : TaskInfo
  finished : Bool
deriving DecidableEq, Repr

/-- A new task is unfinished. -/
def Task.make (request : Nat) (info : TaskInfo) : Task :=
  { request, info, finished := false }

/-- {lit}`Task::destination`, with the task's request looked up in the heap. -/
def Task.destination (heap : List Request) (task : Task) : Except Failure Addr :=
  match heap[task.request]? with
  | some request => .ok (ptrAdd request.dst task.info.relativeOffset)
  | none => .error .assertion

theorem Task.destination_of_getElem? {heap : List Request} {task : Task} {request : Request}
    (h : heap[task.request]? = some request) :
    task.destination heap = .ok (ptrAdd request.dst task.info.relativeOffset) := by
  simp [Task.destination, h]

end Streamer
end ModelStreamer
