import ModelStreamer.Common.ResponseCode
import ModelStreamer.Lib.Run
import ModelStreamer.Lib.Word
import ModelStreamer.Streamer.Request

/-!
# One read of an object storage client

{lit}`async_read` of the S3, GCS and Azure clients, with the callbacks of the reads it starts.
The call runs in the thread of the worker, each callback in a thread of the SDK, and
{lit}`stop` in any other thread, so the call advances one access to the stop flag, or one read
that it starts, at a time.  {lit}`stop` raises the flag and then stops the responder, whose
{lit}`SharedQueue` ignores what is pushed from then on.
-/

namespace ModelStreamer
namespace ObjectStorage

open Common Lib Streamer

/-! ## State -/

/-- {lit}`ObjectRange_t`: a range of an object, whose end is a size as well. -/
structure ObjectRange where
  offset : Nat
  length : Nat
  fits : offset + length < 2 ^ 64

/-- Where a sub-read is: still writing, or over with the code that its callback was given. -/
inductive SubReadPhase where
  /-- The SDK reads, and writes into the destination. -/
  | reading
  /-- The read is over, and the callback has not updated what the sub-reads share. -/
  | ended (code : ResponseCode)
  /-- The callback is about to push this code. -/
  | reporting (code : ResponseCode)
  /-- The callback returned. -/
  | done (code : ResponseCode)
deriving DecidableEq, Repr

/-- A read that was handed to the SDK. -/
structure SubRead where
  offset : Nat
  bytesize : Nat
  buffer : Addr
  phase : SubReadPhase
deriving DecidableEq, Repr

/-- Where the call is.  The loop counter is an {lit}`unsigned`. -/
inductive CallPhase where
  /-- About to read the stop flag, before sub-read {lit}`i`. -/
  | checking (i : Nat)
  /-- About to start sub-read {lit}`i`. -/
  | starting (i : Nat)
  /-- About to read the stop flag for the code to return. -/
  | leaving
  | returned (code : ResponseCode)
deriving DecidableEq, Repr

/-- A call of {lit}`async_read`, with the variables of its loop and what its callbacks share. -/
structure ClientRead where
  stop : Bool
  responderStopped : Bool
  call : CallPhase
  total : Nat
  offset : Nat
  buffer : Addr
  subReads : List SubRead
  counter : Nat
  isSuccess : Bool
  /-- What the callbacks pushed to the responder. -/
  pushed : List ResponseCode
  /-- What the responder has for the caller. -/
  completions : List ResponseCode
deriving DecidableEq, Repr

/--
The call at its start, with the stop flag of the client and the number of sub-reads.  The
responder of a client that is being stopped may be stopped at any later time, or never if there
was none yet.
-/
def ClientRead.start (range : ObjectRange) (destination : Addr) (size : Nat) (stop : Bool) :
    ClientRead :=
  { stop
    responderStopped := false
    call := .checking 0
    total := range.length
    offset := range.offset
    buffer := destination
    subReads := []
    counter := toWord 32 size
    isSuccess := true
    pushed := []
    completions := [] }

/-! ## The call -/

/-- Hand a sub-read to the SDK and move on. -/
def ClientRead.startSubRead (s : ClientRead) (bytesize : Nat) (next : CallPhase) : ClientRead :=
  { s with
    call := next
    total := wordSub 64 s.total bytesize
    offset := wordAdd 64 s.offset bytesize
    buffer := ptrAdd s.buffer bytesize
    subReads := s.subReads ++ [⟨s.offset, bytesize, s.buffer, .reading⟩] }

/-- The code that a call returns after it started its reads. -/
def ClientRead.leave (s : ClientRead) : ClientRead :=
  { s with call := .returned (if s.stop then .finishedError else .success) }

/-- {lit}`S3Client::async_read`: nothing is started on a stopped client, else one read. -/
def s3AsyncRead (range : ObjectRange) (s : ClientRead) : Option ClientRead :=
  match s.call with
  | .checking _ =>
      if s.stop then some { s with call := .returned .finishedError }
      else some { s with call := .starting 0 }
  | .starting _ => some (s.startSubRead range.length .leaving)
  | .leaving => some s.leave
  | .returned _ => none

/-- The loop of {lit}`async_read` over {lit}`size` sub-reads, the last of which takes the rest. -/
def splitAsyncRead (size chunkBytesize : Nat) (s : ClientRead) : Option ClientRead :=
  match s.call with
  | .checking i =>
      if i < size ∧ s.stop = false then some { s with call := .starting i }
      else some { s with call := .leaving }
  | .starting i =>
      let bytesize := if i = size - 1 then s.total else chunkBytesize
      some (s.startSubRead bytesize (.checking (wordAdd 32 i 1)))
  | .leaving => some s.leave
  | .returned _ => none

/-- The number of sub-reads of {lit}`GCSClient::async_read`. -/
def gcsSize (chunkBytesize : Nat) (range : ObjectRange) : Nat :=
  max 1 (range.length / chunkBytesize)

/-- {lit}`GCSClient::async_read`. -/
def gcsAsyncRead (chunkBytesize : Nat) (range : ObjectRange) (s : ClientRead) :
    Option ClientRead :=
  splitAsyncRead (gcsSize chunkBytesize range) chunkBytesize s

/-- The number of sub-reads of {lit}`AzureClient::async_read`; a cache takes a range whole. -/
def azureSize (cacheEnabled : Bool) (chunkBytesize : Nat) (range : ObjectRange) : Nat :=
  if cacheEnabled then 1 else max 1 (range.length / chunkBytesize)

/-- {lit}`AzureClient::async_read`. -/
def azureAsyncRead (cacheEnabled : Bool) (chunkBytesize : Nat) (range : ObjectRange)
    (s : ClientRead) : Option ClientRead :=
  splitAsyncRead (azureSize cacheEnabled chunkBytesize range) chunkBytesize s

/-! ## The callbacks -/

/-- The callback of {lit}`S3Client`: the only read reports whatever it was given. -/
def s3Callback (counter : Nat) (isSuccess : Bool) (code : ResponseCode) :
    Nat × Bool × SubReadPhase :=
  (counter, isSuccess, .reporting code)

/--
The callback of a sub-read, up to the point where it knows whether it has to push: the new
counter, the new flag and the next phase.  A sub-read that succeeded counts down, and the last
one reports; the first that failed reports with {lit}`failure`.
-/
def splitCallback (failure : ResponseCode → ResponseCode) (counter : Nat) (isSuccess : Bool)
    (code : ResponseCode) : Nat × Bool × SubReadPhase :=
  if code = .success then
    (wordSub 32 counter 1, isSuccess,
      if counter = 1 then .reporting .success else .done .success)
  else
    (counter, false, if isSuccess then .reporting (failure code) else .done code)

/-- The callback of {lit}`GCSClient`: every failure is an access error. -/
def gcsCallback (counter : Nat) (isSuccess : Bool) (code : ResponseCode) :
    Nat × Bool × SubReadPhase :=
  splitCallback (fun _ => .fileAccessError) counter isSuccess code

/-- The callback of {lit}`AzureClient`: the code of the failure is kept. -/
def azureCallback (counter : Nat) (isSuccess : Bool) (code : ResponseCode) :
    Nat × Bool × SubReadPhase :=
  splitCallback id counter isSuccess code

/-! ## The system -/

/-- The clients. -/
inductive ObjectClient where
  | s3
  | gcs
  | azure (cacheEnabled : Bool)
deriving DecidableEq, Repr

/-- The number of reads that a client makes of a range. -/
def ObjectClient.size (client : ObjectClient) (chunkBytesize : Nat) (range : ObjectRange) :
    Nat :=
  match client with
  | .s3 => 1
  | .gcs => gcsSize chunkBytesize range
  | .azure cacheEnabled => azureSize cacheEnabled chunkBytesize range

/-- The next step of the call. -/
def ObjectClient.asyncRead (client : ObjectClient) (chunkBytesize : Nat) (range : ObjectRange)
    (s : ClientRead) : Option ClientRead :=
  match client with
  | .s3 => s3AsyncRead range s
  | .gcs => gcsAsyncRead chunkBytesize range s
  | .azure cacheEnabled => azureAsyncRead cacheEnabled chunkBytesize range s

/-- The callback of a client. -/
def ObjectClient.callback (client : ObjectClient) (counter : Nat) (isSuccess : Bool)
    (code : ResponseCode) : Nat × Bool × SubReadPhase :=
  match client with
  | .s3 => s3Callback counter isSuccess code
  | .gcs => gcsCallback counter isSuccess code
  | .azure _ => azureCallback counter isSuccess code

/-- What can happen during a read. -/
inductive ReadAction where
  /-- {lit}`stop` of the client raises the flag. -/
  | stop
  /-- {lit}`stop` of the client stops its responder. -/
  | stopResponder
  /-- The call goes on. -/
  | call
  /-- The SDK is finished with sub-read {lit}`k` and calls back with this code. -/
  | ends (k : Nat) (code : ResponseCode)
  /-- The callback of sub-read {lit}`k` updates the counter or the flag. -/
  | counts (k : Nat)
  /-- The callback of sub-read {lit}`k` pushes its completion. -/
  | pushes (k : Nat)
deriving DecidableEq, Repr

/-- Move one sub-read to another phase. -/
def ClientRead.setPhase (s : ClientRead) (k : Nat) (subRead : SubRead) (phase : SubReadPhase) :
    ClientRead :=
  { s with subReads := s.subReads.set k { subRead with phase } }

/-- {lit}`SharedQueue::push`: a stopped responder ignores the completion. -/
def ClientRead.push (s : ClientRead) (code : ResponseCode) : ClientRead :=
  { s with
    pushed := s.pushed ++ [code]
    completions := if s.responderStopped then s.completions else s.completions ++ [code] }

/-- One step of the read. -/
def readStep (client : ObjectClient) (chunkBytesize : Nat) (range : ObjectRange)
    (s : ClientRead) (action : ReadAction) : Option ClientRead :=
  match action with
  | .stop => some { s with stop := true }
  | .stopResponder => if s.stop then some { s with responderStopped := true } else none
  | .call => client.asyncRead chunkBytesize range s
  | .ends k code =>
      match s.subReads[k]? with
      | some subRead =>
          if subRead.phase = .reading then some (s.setPhase k subRead (.ended code)) else none
      | none => none
  | .counts k =>
      match s.subReads[k]? with
      | some subRead =>
          match subRead.phase with
          | .ended code =>
              let (counter, isSuccess, phase) := client.callback s.counter s.isSuccess code
              some ({ s with counter, isSuccess }.setPhase k subRead phase)
          | _ => none
      | none => none
  | .pushes k =>
      match s.subReads[k]? with
      | some subRead =>
          match subRead.phase with
          | .reporting code =>
              some ((s.push code).setPhase k subRead (.done code))
          | _ => none
      | none => none

/-- The start of a read of this client. -/
def ObjectClient.start (client : ObjectClient) (chunkBytesize : Nat) (range : ObjectRange)
    (destination : Addr) (stop : Bool) : ClientRead :=
  ClientRead.start range destination (client.size chunkBytesize range) stop

end ObjectStorage
end ModelStreamer
