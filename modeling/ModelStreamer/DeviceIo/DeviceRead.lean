import ModelStreamer.Common.SharedQueueSteps
import ModelStreamer.Streamer.SyncRead

/-!
# The synchronous reader with a device as destination

{lit}`Batch::read_to_device` reads a block into a staging buffer, submits its copy and goes on.
The lane's thread takes the copies in order and puts them on the stream of the device or fails
them; the stream's waiter takes them in order and gives the buffers back.  Either thread calls
the completion of the copy, which counts the block as landed or stores an error, and posts.

Every access to a variable that threads share is a step of its own.  The staging buffers are
memory of their own: the file is read into them, and the device writes what they hold when it
copies, so a buffer that is taken again too early would show in the destination.
-/

namespace ModelStreamer
namespace DeviceIo

open Common Lib Streamer

/-! ## The state -/

/--
A copy on its way, with the number of its block.  Staging buffers are counted in the order in
which they were taken, so one of the pool gets a new number when it is taken again.
-/
structure BlockCopy where
  block : Nat
  buffer : Nat
  offset : Nat
  bytesize : Nat
  destination : Addr
deriving DecidableEq, Repr

/-- Where a thread is inside {lit}`on_done`. -/
inductive Completing where
  | no
  /-- Called with this code. -/
  | entered (block : Nat) (code : ResponseCode)
  /-- {lit}`failure` was success; {lit}`landed` is about to be incremented. -/
  | counting (block : Nat)
  /-- The semaphore is about to be posted. -/
  | posting (block : Nat)
deriving DecidableEq, Repr

/-- Where the reading thread is. -/
inductive ReaderPc where
  | opening
  | looping
  | acquiring
  /-- It holds a staging buffer and is about to read into it. -/
  | reading (buffer : Nat)
  /-- The buffer is full. -/
  | submitting (buffer : Nat)
  /-- {lit}`submit` gave the buffer back, reported the failure itself and is about to post. -/
  | reporting (buffer : Nat)
  | answering
  /-- The guard waits this often, and then the exception goes on. -/
  | draining (left : Nat) (thrown : Option ResponseCode)
  /-- {lit}`failure` is about to be read. -/
  | checking
  | finishing
  | ending
  /-- {lit}`handle_error` is about to be called. -/
  | failing (code : ResponseCode)
  | returned
deriving DecidableEq, Repr

/-- A batch that is read to a device. -/
structure DeviceRead where
  read : BatchRead
  pc : ReaderPc
  /-- The position of the descriptor. -/
  pos : Nat
  offset : Nat
  destination : Addr
  submitted : Nat
  landed : Nat
  failure : ResponseCode
  /-- The value of the semaphore {lit}`retired`. -/
  ready : Nat
  /-- The copies in the queue of the lane, and those that the waiter has. -/
  lane : List BlockCopy
  issuing : Completing
  stream : List BlockCopy
  waiting : Completing
  stopped : Bool
  /-- The lane of the device is there; it stays. -/
  opened : Bool
  /-- The semaphore could not be posted, and an exception left a thread. -/
  terminated : Bool
  /-- The memory of the buffers of the pool. -/
  staging : Nat → Memory 64 UInt8
  /-- History: which buffer of the pool was taken each time. -/
  taken : List Nat
  /-- History: how many staging buffers were taken, and which were given back or retired. -/
  acquired : Nat
  released : List Nat
  retired : List Nat
  /-- History: the copies whose completion has posted. -/
  reported : List Nat

/-- A batch that is about to be read; the pool's buffers hold anything. -/
def DeviceRead.start (batch : Batch) (staging : Nat → Memory 64 UInt8) : DeviceRead :=
  { read := ⟨batch, []⟩, pc := .opening, pos := 0, offset := batch.start, destination := 0
    submitted := 0, landed := 0, failure := .success, ready := 0
    lane := [], issuing := .no, stream := [], waiting := .no, stopped := false
    opened := false, terminated := false, staging, taken := [], acquired := 0
    released := [], retired := [], reported := [] }

/-- {lit}`FileSystemWorker::BuffersPerThread`. -/
def buffersPerThread : Nat := 3

/-- What can happen next. -/
inductive DeviceAction where
  | stop
  /-- The reading thread goes on. -/
  | step
  /--
  {lit}`StagingPool::acquire` returns: a buffer of the pool, none when the pool stopped, or an
  error.
  -/
  | acquire (result : Except ResponseCode (Option Nat))
  /-- {lit}`DeviceIssuer::submit`, with the error of a lane that cannot be opened. -/
  | submit (failed : Option ResponseCode)
  /-- The lane's thread issues the next copy, or fails it and gives its buffer back or not. -/
  | issue (failed : Option (ResponseCode × Bool))
  /-- The device writes {lit}`count` bytes, from {lit}`first` on, of a copy on its stream. -/
  | transfer (copy first count : Nat)
  /-- The waiter's wait for the next copy ends. -/
  | land (success : Bool)
  /-- The lane's thread goes on inside a completion. -/
  | issuing
  /-- The waiter goes on inside a completion. -/
  | waiting

/-! ## Staging buffers -/

/-- The buffer of the pool behind a number. -/
def DeviceRead.bufferOf (s : DeviceRead) (buffer : Nat) : Nat :=
  s.taken.getD buffer 0

/-- What was read into a staging buffer, from its first byte on. -/
def DeviceRead.stage (s : DeviceRead) (buffer : Nat) (d : FdRead) : DeviceRead :=
  { s with
    pos := d.pos
    staging := fun k =>
      if k = s.bufferOf buffer then replay (s.staging k) d.writes else s.staging k }

/-- The write of {lit}`count` bytes of a copy, from {lit}`first` on, out of its staging buffer. -/
def DeviceRead.copyWrite (s : DeviceRead) (copy : BlockCopy) (first count : Nat) :
    Write 64 UInt8 :=
  ⟨ptrAdd copy.destination first,
    cellsFrom (fun i => s.staging (s.bufferOf copy.buffer) (ptrAdd 0 i)) first count⟩

/-! ## Completions -/

/-- {lit}`StagingPool::release`: a pool that has all its buffers drops another one. -/
def DeviceRead.release (s : DeviceRead) (buffer : Nat) : DeviceRead :=
  if s.acquired ≤ s.released.length then s else { s with released := s.released ++ [buffer] }

/-- {lit}`failure.compare_exchange_strong`: the first error stays. -/
def DeviceRead.storeFailure (s : DeviceRead) (code : ResponseCode) : DeviceRead :=
  if s.failure = .success then { s with failure := code } else s

/-- The next step inside {lit}`on_done`; a post that fails throws out of the thread. -/
def DeviceRead.complete (s : DeviceRead) : Completing → Option (DeviceRead × Completing)
  | .no => none
  | .entered block code =>
      if code ≠ .success then
        some (s.storeFailure code, .posting block)
      else if s.failure = .success then
        some (s, .counting block)
      else
        some (s, .posting block)
  | .counting block => some ({ s with landed := wordAdd 32 s.landed 1 }, .posting block)
  | .posting block =>
      if s.ready < semValueMax then
        some ({ s with ready := s.ready + 1, reported := s.reported ++ [block] }, .no)
      else
        some ({ s with terminated := true }, .posting block)

/-! ## The reading thread -/

section Reader

variable (file : Option OpenFile) (readSize block : Nat) (heap : List Request)

/-- {lit}`Batch::execute` up to the loop of {lit}`Batch::read_to_device`. -/
def DeviceRead.begin (s : DeviceRead) : DeviceRead :=
  let batch := s.read.batch
  if batch.isObjectStorage then { s with pc := .failing .unknownError }
  else
    match file with
    | none => { s with pc := .failing .fileAccessError }
    | some file =>
        match batch.tasks with
        | [] => { s with pc := .returned }
        | task :: _ =>
            match task.destination heap with
            | .error _ => { s with pc := .failing .unknownError }
            | .ok destination =>
                if file.seek batch.start ≠ .success then
                  { s with pc := .failing (file.seek batch.start) }
                else
                  { s with destination, pos := batch.start, pc := .looping }

/-- The bytes of the next block. -/
def DeviceRead.bytesize (s : DeviceRead) : Nat :=
  min block (s.read.batch.stop - s.offset)

/-- The block whose copy {lit}`submit` took over is behind the loop. -/
def DeviceRead.advance (s : DeviceRead) : DeviceRead :=
  { s with
    submitted := wordAdd 32 s.submitted 1
    offset := s.offset + s.bytesize block
    pc := .answering }

/-- The offset that the landed blocks reach. -/
def DeviceRead.landedOffset (s : DeviceRead) : Nat :=
  min (wordAdd 64 s.read.batch.start (toWord 64 (s.landed * block))) s.read.batch.stop

/-- A step of the reading thread that depends on no other component. -/
def DeviceRead.step (s : DeviceRead) : Option DeviceRead :=
  match s.pc with
  | .opening => some (s.begin file heap)
  | .looping =>
      if s.offset < s.read.batch.stop ∧ s.stopped = false then some { s with pc := .acquiring }
      else some { s with pc := .draining s.submitted none }
  | .reading buffer =>
      match file with
      | none => none
      | some file =>
          match file.readBytes readSize s.pos (s.bytesize block) 0 with
          | (.success, d) => some { s.stage buffer d with pc := .submitting buffer }
          | (code, d) =>
              some { (s.stage buffer d).release buffer with
                pc := .draining s.submitted (some code) }
  | .reporting buffer =>
      if s.ready < semValueMax then
        some ({ s with
          ready := s.ready + 1
          reported := s.reported ++ [s.submitted] }.advance block)
      else
        -- the post throws here, and the guard gives the buffer back a second time
        some { s.release buffer with pc := .draining s.submitted (some .unknownError) }
  | .answering =>
      some { s with
        read := s.read.finishedUntil (s.landedOffset block) .success
        pc := .looping }
  | .draining 0 (some code) => some { s with pc := .failing code }
  | .draining 0 none => some { s with pc := .checking }
  | .draining (left + 1) thrown =>
      if 0 < s.ready then some { s with ready := s.ready - 1, pc := .draining left thrown }
      else none
  | .checking =>
      if s.failure ≠ .success then some { s with pc := .failing s.failure }
      else some { s with pc := .finishing }
  | .finishing =>
      some { s with
        read := if s.stopped then s.read else s.read.finishedUntil s.read.batch.stop .success
        pc := .ending }
  | .ending =>
      if s.stopped then some { s with pc := .failing .finishedError }
      else some { s with pc := .returned }
  | .failing code => some { s with read := s.read.handleError code, pc := .returned }
  | _ => none

/--
{lit}`StagingPool::acquire`: one of the pool's buffers that was given back whenever it was taken
before.  A pool that has no buffer lets the thread wait.
-/
def DeviceRead.acquire (s : DeviceRead) (result : Except ResponseCode (Option Nat)) :
    Option DeviceRead :=
  match s.pc, result with
  | .acquiring, .error code =>
      if code ≠ .success then some { s with pc := .draining s.submitted (some code) } else none
  | .acquiring, .ok none =>
      some { s with pc := .draining s.submitted (some .finishedError) }
  | .acquiring, .ok (some k) =>
      if s.acquired < s.released.length + buffersPerThread ∧
          ∀ buffer ∈ List.range s.acquired, s.bufferOf buffer = k → buffer ∈ s.released then
        some { s with
          taken := s.taken ++ [k]
          acquired := s.acquired + 1
          pc := .reading s.acquired }
      else
        none
  | _, _ => none

/-- {lit}`DeviceIssuer::submit`. -/
def DeviceRead.submit (s : DeviceRead) (failed : Option ResponseCode) : Option DeviceRead :=
  match s.pc, failed with
  | .submitting buffer, none =>
      let copy : BlockCopy :=
        { block := s.submitted
          buffer
          offset := s.offset
          bytesize := s.bytesize block
          destination := ptrAdd s.destination (s.offset - s.read.batch.start) }
      some ({ s with lane := s.lane ++ [copy], opened := true }.advance block)
  | .submitting buffer, some code =>
      if code ≠ .success ∧ s.opened = false then
        some { (s.release buffer).storeFailure code with pc := .reporting buffer }
      else
        none
  | _, _ => none

end Reader

/-! ## The other threads -/

/-- {lit}`DeviceIssuer::issue`. -/
def DeviceRead.issue (s : DeviceRead) (failed : Option (ResponseCode × Bool)) :
    Option DeviceRead :=
  match s.issuing, s.lane, failed with
  | .no, copy :: lane, none => some { s with lane, stream := s.stream ++ [copy] }
  | .no, copy :: lane, some (code, retire) =>
      if code ≠ .success then
        if retire then
          some { s with
            lane
            retired := s.retired ++ [copy.buffer]
            issuing := .entered copy.block code }
        else
          some { s.release copy.buffer with lane, issuing := .entered copy.block code }
      else
        none
  | _, _, _ => none

/-- The stream of the device copies, whenever it comes to it. -/
def DeviceRead.transfer (s : DeviceRead) (copy first count : Nat) : Option DeviceRead :=
  match s.stream[copy]? with
  | none => none
  | some copy =>
      if first + count ≤ copy.bytesize then
        some { s with read := s.read.write [s.copyWrite copy first count] }
      else
        none

/-- {lit}`StreamWaiter::wait_for`: a copy that landed, or one of which nothing is known. -/
def DeviceRead.land (s : DeviceRead) (success : Bool) : Option DeviceRead :=
  match s.waiting, s.stream with
  | .no, copy :: stream =>
      if success then
        some { s.release copy.buffer with
          read := s.read.write [s.copyWrite copy 0 copy.bytesize]
          stream
          waiting := .entered copy.block .success }
      else
        some { s with
          stream
          retired := s.retired ++ [copy.buffer]
          waiting := .entered copy.block .deviceDriverError }
  | _, _ => none

/-- The transition function; an exception that leaves a thread ends the process. -/
def deviceStep (file : Option OpenFile) (readSize block : Nat) (heap : List Request)
    (s : DeviceRead) (action : DeviceAction) : Option DeviceRead :=
  if s.terminated then none
  else
    match action with
    | .stop => some { s with stopped := true }
    | .step => s.step file readSize block heap
    | .acquire result => s.acquire result
    | .submit failed => s.submit block failed
    | .issue failed => s.issue failed
    | .transfer copy first count => s.transfer copy first count
    | .land success => s.land success
    | .issuing => (s.complete s.issuing).map fun (s, issuing) => { s with issuing }
    | .waiting => (s.complete s.waiting).map fun (s, waiting) => { s with waiting }

end DeviceIo
end ModelStreamer
