import ModelStreamer.AsyncIo.DirectPass
import ModelStreamer.Lib.Memory
import ModelStreamer.Lib.Run
import ModelStreamer.PosixIo.CompletionMapper

/-!
# Reading one chunk

One chunk from its first pass to its answer, with the memory that its passes write.  The
kernel reports for every pass how many bytes of the file it delivered, or an errno.  Between
the passes, and while one is in flight, the worker may adopt a smaller block and may demote
the file of the chunk to buffered reads.
-/

namespace ModelStreamer
namespace AsyncIo

open Common Lib Streamer PosixIo

/-- The content of a file. -/
structure FileData where
  size : Nat
  bytes : Nat → UInt8

/-- The memory of the process. -/
abbrev HostMemory := Memory 64 UInt8

/-- A pass that was given to the engine, with the block and the mode it was planned for. -/
structure IssuedPass where
  direct : Bool
  block : Nat
  pass : DirectPass
deriving DecidableEq, Repr

/-- A chunk being read.  {lit}`issued` only records what was staged. -/
structure ChunkRead where
  entry : InflightChunk
  direct : Bool
  block : Nat
  inFlight : Option DirectPass
  memory : HostMemory
  answer : Option ResponseCode
  issued : List IssuedPass

/-- {lit}`stage_pending` from the point where the file is open. -/
def ChunkRead.stagePending (s : ChunkRead) (pool : Option ScratchPool) : ChunkRead :=
  let entry := s.entry.placeInStaging s.block s.direct
  match planPass pool entry.pending s.block s.direct entry.staging.isSome with
  | none => { s with entry, answer := some .unknownError }
  | some (pass, _) =>
      { s with
        entry := entry.withPass pass
        inFlight := some pass
        issued := s.issued ++ [⟨s.direct, s.block, pass⟩] }

/-- What the kernel wrote for a pass that delivered {lit}`count` bytes. -/
def deliver (file : FileData) (memory : HostMemory) (pass : DirectPass) (count : Nat) :
    HostMemory :=
  fill memory pass.buffer count fun i => file.bytes (pass.offset + i)

/-- The copy of {lit}`land_bounced_pass` out of the scratch buffer. -/
def copyOut (memory : HostMemory) (entry : InflightChunk) (useful : Nat) : HostMemory :=
  match entry.scratch with
  | some scratch =>
      fill memory entry.pending.buffer useful fun i =>
        memory (ptrAdd scratch (entry.scratchSkip + i))
  | none => memory

/-- The kernel may report this count for the pass. -/
def MayDeliver (file : FileData) (pass : DirectPass) (count : Nat) : Prop :=
  count ≤ pass.bytesize ∧ count ≤ file.size - pass.offset ∧
    (count = 0 → file.size ≤ pass.offset)

instance (file : FileData) (pass : DirectPass) (count : Nat) :
    Decidable (MayDeliver file pass count) :=
  inferInstanceAs (Decidable (_ ∧ _))

/-- The code a chunk is answered with after a completion, if it was the last one. -/
def Progress.answer : Progress → Option ResponseCode
  | .complete => some .success
  | .eof => some .eofError
  | .partialRead => none

/-- A completion that delivered bytes, or found the end of the file. -/
def ChunkRead.land (file : FileData) (s : ChunkRead) (pass : DirectPass) (count : Nat) :
    ChunkRead :=
  let useful := s.entry.useful count
  let memory := copyOut (deliver file s.memory pass count) s.entry useful
  let (progress, entry) := s.entry.clearBounce.record useful
  { s with entry, memory, inFlight := none, answer := progress.answer }

/--
A completion that failed.  An interrupted pass is tried again while attempts are left; a
direct pass refused with {lit}`EINVAL` is tried again buffered when the file could be opened
again.
-/
def ChunkRead.fail (s : ChunkRead) (res : Int) (reopened : Bool) : ChunkRead :=
  let s := { s with entry := s.entry.clearBounce, inFlight := none }
  let report := { s with answer := some (mapCompletion res ⟨0, s.direct⟩) }
  match isTransient res, s.entry.mayRetryTransient with
  | true, some entry => { s with entry }
  | _, _ =>
      if s.direct ∧ res = -eINVAL then
        if reopened then { s with direct := false }
        else { s with answer := some .fileAccessError }
      else
        report

/-- What can happen to a chunk. -/
inductive ChunkAction where
  /-- The next pass is planned and staged, with these scratch buffers free. -/
  | stage (pool : Option ScratchPool)
  /-- The pass in flight delivered this many bytes. -/
  | lands (count : Nat)
  /-- The pass in flight failed. -/
  | fails (res : Int) (reopened : Bool)
  /-- The worker adopts a measured block. -/
  | adoptBlock (block : Nat)
  /-- Another chunk of the batch was refused, and the batch is read buffered from now on. -/
  | demote
deriving DecidableEq, Repr

/-- One step of the chunk; nothing happens to a chunk that was answered. -/
def chunkStep (file : FileData) (s : ChunkRead) (action : ChunkAction) : Option ChunkRead :=
  if s.answer.isSome then none
  else
    match action, s.inFlight with
    | .stage pool, none => some (s.stagePending pool)
    | .lands count, some pass =>
        if MayDeliver file pass count then some (s.land file pass count) else none
    | .fails res reopened, some _ => if res < 0 then some (s.fail res reopened) else none
    | .adoptBlock block, _ =>
        if 0 < block ∧ block ∣ s.block then some { s with block } else none
    | .demote, _ => some { s with direct := false }
    | _, _ => none

/-- A chunk that was taken from the queue and has its staging buffer, if it needs one. -/
def ChunkRead.start (chunk : Chunk) (staging : Option StagingBuffer) (direct : Bool)
    (block : Nat) (memory : HostMemory) : ChunkRead :=
  { entry := { InflightChunk.make chunk 0 0 with staging }
    direct
    block
    inFlight := none
    memory
    answer := none
    issued := [] }

end AsyncIo
end ModelStreamer
