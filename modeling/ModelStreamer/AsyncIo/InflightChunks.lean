import ModelStreamer.Lib.Table
import ModelStreamer.Streamer.ChunkSplitter

/-!
# Chunks in flight

What the asynchronous reader remembers of a chunk from the moment it is queued until its
tasks are accounted.  A chunk may take several passes: a short read advances the cursor and
the rest is read by the next pass, into the same place.

Request ids are never reused, so a completion that arrives late finds no entry.
-/

namespace ModelStreamer
namespace AsyncIo

open Common Lib Streamer

/-! ## One chunk -/

/-- {lit}`StagingBuffer`: pinned host memory that a copy to the device reads out of. -/
structure StagingBuffer where
  data : Addr
  bytesize : Nat
deriving DecidableEq, Repr

/-- {lit}`InflightChunk`.  A missing buffer is {lit}`none`. -/
structure InflightChunk where
  chunk : Chunk
  cursor : Nat
  remaining : Nat
  workloadId : Nat
  batchIndex : Nat
  scratch : Option Addr
  scratchSkip : Nat
  scratchWanted : Nat
  staging : Option StagingBuffer
  stagingSkip : Nat
  transientRetries : Nat
deriving DecidableEq, Repr

/-- The entry that {lit}`InflightChunks::add` records. -/
def InflightChunk.make (chunk : Chunk) (workloadId batchIndex : Nat) : InflightChunk :=
  { chunk
    cursor := chunk.offset
    remaining := chunk.bytesize
    workloadId
    batchIndex
    scratch := none
    scratchSkip := 0
    scratchWanted := 0
    staging := none
    stagingSkip := 0
    transientRetries := 0 }

/-- {lit}`Progress`: what a completion meant for its chunk. -/
inductive Progress where
  | complete
  | partialRead
  | eof
deriving DecidableEq, Repr

/-- {lit}`InflightChunks::record`: a count is compared with what this pass still owed. -/
def InflightChunk.record (entry : InflightChunk) (bytesTransferred : Nat) :
    Progress × InflightChunk :=
  if bytesTransferred ≥ entry.remaining then
    (.complete, { entry with cursor := entry.cursor + entry.remaining, remaining := 0 })
  else if bytesTransferred = 0 then
    (.eof, entry)
  else
    (.partialRead,
      { entry with
        cursor := entry.cursor + bytesTransferred
        remaining := entry.remaining - bytesTransferred })

/-- Where the bytes of the chunk are read to: its place in the staging buffer, if it has one. -/
def InflightChunk.base (entry : InflightChunk) : Addr :=
  match entry.staging with
  | some buffer => ptrAdd buffer.data entry.stagingSkip
  | none => entry.chunk.buffer

/-- {lit}`InflightChunks::pending`: what is still to read, and where to. -/
def InflightChunk.pending (entry : InflightChunk) : Chunk :=
  { entry.chunk with
    offset := entry.cursor
    bytesize := entry.remaining
    buffer := ptrAdd entry.base (entry.cursor - entry.chunk.offset) }

/-- {lit}`InflightChunks::set_bounce`. -/
def InflightChunk.setBounce (entry : InflightChunk) (scratch : Option Addr)
    (skip wanted : Nat) : InflightChunk :=
  { entry with scratch, scratchSkip := skip, scratchWanted := wanted }

/-- {lit}`InflightChunks::clear_bounce`. -/
def InflightChunk.clearBounce (entry : InflightChunk) : InflightChunk :=
  entry.setBounce none 0 0

@[simp]
theorem clearBounce_chunk (entry : InflightChunk) : entry.clearBounce.chunk = entry.chunk :=
  rfl

@[simp]
theorem clearBounce_cursor (entry : InflightChunk) :
    entry.clearBounce.cursor = entry.cursor :=
  rfl

@[simp]
theorem clearBounce_remaining (entry : InflightChunk) :
    entry.clearBounce.remaining = entry.remaining :=
  rfl

@[simp]
theorem clearBounce_staging (entry : InflightChunk) :
    entry.clearBounce.staging = entry.staging :=
  rfl

@[simp]
theorem clearBounce_stagingSkip (entry : InflightChunk) :
    entry.clearBounce.stagingSkip = entry.stagingSkip :=
  rfl

/-- {lit}`MaxTransientRetries`. -/
def maxTransientRetries : Nat := 1024

/-- {lit}`InflightChunks::may_retry_transient`: counts the retry when it is allowed. -/
def InflightChunk.mayRetryTransient (entry : InflightChunk) : Option InflightChunk :=
  if entry.transientRetries ≥ maxTransientRetries then none
  else some { entry with transientRetries := entry.transientRetries + 1 }

/-! ## The table -/

/-- {lit}`InflightChunks`. -/
structure InflightChunks where
  /-- A word, while fewer than {lit}`2 ^ 64 - 1` chunks have come. -/
  nextId : Nat
  entries : Table InflightChunk
deriving DecidableEq, Repr

/-- The first id is one. -/
def InflightChunks.empty : InflightChunks :=
  { nextId := 1, entries := [] }

/-- {lit}`InflightChunks::add`; the entry is under the id that was next. -/
def InflightChunks.add (chunks : InflightChunks) (entry : InflightChunk) : InflightChunks :=
  { nextId := chunks.nextId + 1, entries := chunks.entries ++ [(chunks.nextId, entry)] }

/-- {lit}`InflightChunks::find`. -/
def InflightChunks.find (chunks : InflightChunks) (id : Nat) : Option InflightChunk :=
  chunks.entries.lookup id

/-- Replace the entry under an id. -/
def InflightChunks.set (chunks : InflightChunks) (id : Nat) (entry : InflightChunk) :
    InflightChunks :=
  { chunks with entries := chunks.entries.update id fun _ => entry }

/-- {lit}`InflightChunks::release`, which takes the entry out. -/
def InflightChunks.release (chunks : InflightChunks) (id : Nat) : InflightChunks :=
  { chunks with entries := chunks.entries.remove id }

/-- {lit}`InflightChunks::clear`; ids are not rewound. -/
def InflightChunks.clear (chunks : InflightChunks) : InflightChunks :=
  { chunks with entries := [] }

end AsyncIo
end ModelStreamer
