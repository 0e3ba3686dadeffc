import ModelStreamer.Lib.WriteLog
import ModelStreamer.Streamer.Completion

/-!
# The synchronous reader

{lit}`Batch::execute` on the host: the file is opened, one seek goes to the start of the batch,
and the bytes are read block after block.  After every block the tasks that end before it are
answered; whatever is left at the end is failed with one code.

The descriptor has a position, and every {lit}`::read` writes the bytes it finds there to memory.
What is written and which tasks are finished stands in a log, in the order in which it happens.
The tasks of the batch are finished by the reading thread alone, so finishing a task is one
step here.
-/

namespace ModelStreamer
namespace Streamer

open Common Lib

/-! ## Files -/

/--
A file that {lit}`Fd::open_for_read` gave a descriptor for: the size that {lit}`fstat` reports,
the bytes, and how many of them {lit}`::read` gives at a position, or an error.  A call that was
interrupted is repeated and does not show.
-/
structure OpenFile where
  length : Nat
  bytes : Nat → UInt8
  read : Nat → Nat → Option Nat
  read_le : ∀ pos count n, read pos count = some n → n ≤ count

/-- The position of a descriptor, and what was read through it into memory. -/
structure FdRead where
  pos : Nat
  writes : List (Write 64 UInt8)
deriving DecidableEq, Repr

/-- {lit}`Fd::_os_read`; nothing when it fails. -/
def OpenFile.osRead (file : OpenFile) (data : Addr) (count : Nat) (r : FdRead) :
    Option (Nat × FdRead) :=
  (file.read r.pos count).map fun n =>
    (n, { pos := r.pos + n, writes := r.writes ++ [⟨data, cellsFrom file.bytes r.pos n⟩] })

/-- {lit}`Fd::read` up to the end of the file; no count when it throws. -/
def OpenFile.fdRead (file : OpenFile) (size : Nat) (data : Addr) (chunkSize : Nat) :
    Nat → Nat → FdRead → Option Nat × FdRead
  | 0, total, r => (some total, r)
  | fuel + 1, total, r =>
      if total < size then
        match file.osRead (ptrAdd data total) (min chunkSize (size - total)) r with
        | none => (none, r)
        | some (0, r) => (some total, r)
        | some (count + 1, r) =>
            file.fdRead size data chunkSize fuel (total + (count + 1)) r
      else
        (some total, r)

/-- {lit}`File::seek`. -/
def OpenFile.seek (file : OpenFile) (offset : Nat) : ResponseCode :=
  if offset ≤ file.length then .success else .eofError

/-- {lit}`File::read` with the descriptor at a position. -/
def OpenFile.readBytes (file : OpenFile) (blockSize pos bytesize : Nat) (buffer : Addr) :
    ResponseCode × FdRead :=
  match file.fdRead bytesize buffer blockSize bytesize 0 ⟨pos, []⟩ with
  | (none, r) => (.fileAccessError, r)
  | (some result, r) => (if result ≠ bytesize then .eofError else .success, r)

/-! ## Answering tasks -/

/-- What happened to a batch. -/
inductive ReadEvent where
  /-- Memory of the destination was written. -/
  | wrote (write : Write 64 UInt8)
  /-- The task at this position was finished. -/
  | finished (i : Nat) (code : ResponseCode)
deriving DecidableEq, Repr

/-- The writes of a log. -/
def writesOf (log : List ReadEvent) : List (Write 64 UInt8) :=
  log.filterMap fun
    | .wrote write => some write
    | .finished .. => none

/-- The memory of the destination after what a log says. -/
def memoryAfter (m : Memory 64 UInt8) (log : List ReadEvent) : Memory 64 UInt8 :=
  replay m (writesOf log)

/-- A batch that is being read. -/
structure BatchRead where
  batch : Batch
  log : List ReadEvent
deriving DecidableEq, Repr

/-- Memory of the destination is written. -/
def BatchRead.write (s : BatchRead) (writes : List (Write 64 UInt8)) : BatchRead :=
  { s with log := s.log ++ writes.map .wrote }

/-- {lit}`Task::finished_request`, which does nothing the second time. -/
def BatchRead.finish (s : BatchRead) (i : Nat) (task : Task) (code : ResponseCode) :
    BatchRead :=
  if task.finished then s
  else { batch := s.batch.flag i task, log := s.log ++ [.finished i code] }

/-- The loop of {lit}`Batch::finished_until`. -/
def finishTasks (fileOffset : Nat) (code : ResponseCode) :
    List Task → Nat → BatchRead → BatchRead
  | [], i, s => { s with batch := { s.batch with unfinished := i } }
  | task :: tasks, i, s =>
      if fileOffset < task.info.stop then
        { s with batch := { s.batch with unfinished := i } }
      else
        finishTasks fileOffset code tasks (i + 1) (s.finish i task code)

/-- {lit}`Batch::finished_until`. -/
def BatchRead.finishedUntil (s : BatchRead) (fileOffset : Nat) (code : ResponseCode) :
    BatchRead :=
  finishTasks fileOffset code (s.batch.tasks.drop s.batch.unfinished) s.batch.unfinished s

/-- A loop over the tasks that finishes those which meet the condition. -/
def finishWhere (cond : TaskInfo → Bool) (code : ResponseCode) :
    List Task → Nat → BatchRead → BatchRead
  | [], _, s => s
  | task :: tasks, i, s =>
      finishWhere cond code tasks (i + 1) (if cond task.info then s.finish i task code else s)

/-- {lit}`Batch::handle_error`: all tasks that are left. -/
def BatchRead.handleError (s : BatchRead) (code : ResponseCode) : BatchRead :=
  if code = .success then s else finishWhere (fun _ => true) code s.batch.tasks 0 s

/-! ## Reading to the host -/

/-- The variables of {lit}`Batch::read`. -/
structure HostRead where
  s : BatchRead
  /-- The position of the descriptor. -/
  pos : Nat
  fileOffset : Nat
  buffer : Addr
  /-- How often {lit}`stopped` was looked at. -/
  checks : Nat
  /-- The exception that left the function. -/
  thrown : Option ResponseCode
deriving DecidableEq, Repr

section Host

variable (file : OpenFile) (block : Nat) (stopped : Nat → Bool)

/-- One read, answered up to the byte it reached. -/
def HostRead.readOne (r : HostRead) (bytesize : Nat) : HostRead :=
  match file.readBytes block r.pos bytesize r.buffer with
  | (.success, d) =>
      { r with
        s := (r.s.write d.writes).finishedUntil (r.fileOffset + bytesize) .success
        pos := d.pos
        fileOffset := r.fileOffset + bytesize
        buffer := ptrAdd r.buffer bytesize }
  | (code, d) => { r with s := r.s.write d.writes, pos := d.pos, thrown := some code }

/-- The loop of {lit}`Batch::read` over this many more full blocks. -/
def HostRead.readBlocks : Nat → HostRead → HostRead
  | 0, r => r
  | n + 1, r =>
      if stopped r.checks then { r with checks := r.checks + 1 }
      else
        let r := { r with checks := r.checks + 1 }.readOne file block block
        if r.thrown.isSome then r else readBlocks n r

/-- What {lit}`Batch::read` does after the loop. -/
def HostRead.readRest (r : HostRead) (stop : Nat) : HostRead :=
  if r.fileOffset < stop ∧ stopped r.checks = false then
    { r with checks := r.checks + 1 }.readOne file block (stop - r.fileOffset)
  else
    { r with checks := r.checks + 1 }

/-- The end of {lit}`Batch::read`: what is left is answered unless the streamer stops. -/
def HostRead.conclude (r : HostRead) (stop : Nat) : HostRead :=
  { r with
    s := if stopped r.checks then r.s else r.s.finishedUntil stop .success
    checks := r.checks + 2
    thrown := if stopped (r.checks + 1) then some .finishedError else none }

/-- {lit}`Batch::read`. -/
def Batch.read (heap : List Request) (batch : Batch) : HostRead :=
  let r : HostRead := ⟨⟨batch, []⟩, 0, batch.start, 0, 0, none⟩
  match batch.tasks with
  | [] => r
  | task :: _ =>
      match task.destination heap with
      | .error _ => { r with thrown := some .unknownError }
      | .ok buffer =>
          if file.seek batch.start ≠ .success then
            { r with thrown := some (file.seek batch.start) }
          else
            let r := { r with pos := batch.start, buffer }.readBlocks file block stopped
              ((batch.stop - batch.start) / block)
            if r.thrown.isSome then r
            else
              let r := r.readRest file block stopped batch.stop
              if r.thrown.isSome then r else r.conclude stopped batch.stop

end Host

/--
{lit}`Batch::execute` of a reader that has no staging for devices.  The file may be one that
cannot be opened.
-/
def Batch.execute (file : Option OpenFile) (block : Nat) (stopped : Nat → Bool)
    (heap : List Request) (batch : Batch) : BatchRead :=
  if batch.isObjectStorage then
    BatchRead.handleError ⟨batch, []⟩ .unknownError
  else
    match file with
    | none => BatchRead.handleError ⟨batch, []⟩ .fileAccessError
    | some file =>
        if batch.device.isHost then
          let r := batch.read file block stopped heap
          r.s.handleError (r.thrown.getD .success)
        else
          BatchRead.handleError ⟨batch, []⟩ .unsupportedDeviceType

end Streamer
end ModelStreamer
