import ModelStreamer.Lib.FlatBuffer
import ModelStreamer.Lib.Run
import Mathlib.Logic.Function.Basic

/-!
# Distributed broadcast

Every rank of a group reads its share from storage and broadcasts it to the others, so that all
ranks yield all chunks.  In a round each rank first fills its staging buffer with chunks that
are ready, and then the ranks broadcast one after the other: a metadata tensor, and the bytes of
the batch when there are any.

The ranks only meet in the broadcasts.  The tensors that were broadcast so far are a log: the
source of a broadcast adds its tensor when it gets there, and every other rank takes it when it
gets there.
-/

namespace ModelStreamer
namespace Distributed
namespace Broadcast

open Lib

/-! ## Chunks and tensors -/

/-- A chunk that the reader of a rank has ready: its request, its index and its bytes. -/
structure ReadyChunk (β : Type*) where
  id : Nat
  index : Nat
  bytes : List β
deriving DecidableEq, Repr

/-- What {lit}`get_chunks` yields: the original file and chunk index, and the bytes. -/
structure Yielded (β : Type*) where
  file : Nat
  chunk : Nat
  bytes : List β
deriving DecidableEq, Repr

/-- A row of a metadata tensor. -/
structure MetaRow where
  file : Nat
  chunk : Nat
  size : Nat
  offset : Nat
deriving DecidableEq, Repr

/-- A metadata tensor: the number of chunks at {lit}`[0, 0]`, and the rows from 1 on. -/
structure Metadata where
  count : Nat
  rows : Nat → MetaRow

/-- {lit}`torch.zeros`. -/
def Metadata.zeros : Metadata :=
  { count := 0, rows := fun _ => ⟨0, 0, 0, 0⟩ }

/-- Offset plus size of the last chunk of a batch. -/
def Metadata.lastEnd (m : Metadata) : Nat :=
  (m.rows (m.count - 1)).offset + (m.rows (m.count - 1)).size

/-- {lit}`MAX_CHUNKS_PER_BATCH`. -/
def maxChunksPerBatch : Nat := 256

/-- What the ranks of a group agree on, and where their staging buffers are. -/
structure Group where
  size : Nat
  alignment : Nat
  /-- {lit}`RUNAI_STREAMER_DIST_BUFFER_MIN_BYTESIZE`. -/
  minimum : Nat
  /-- The largest chunk of all ranks. -/
  maxChunk : Nat
  /-- {lit}`total_chunks_to_read`. -/
  total : Nat
  /-- The address of the allocation behind the staging buffer of a rank. -/
  rawPtr : Nat → Nat
  /-- {lit}`rank_dicts_map` of a rank: the original file and chunk of its chunks. -/
  dicts : Nat → Nat → Nat → Nat × Nat

/-- {lit}`dist_buffer_bytesize`. -/
def Group.bufferBytesize (g : Group) : Nat :=
  max g.minimum g.maxChunk

/-- The first aligned address of an allocation. -/
def stagingPtr (rawPtr alignment : Nat) : Nat :=
  if alignment ≤ 1 then rawPtr else rawPtr + ((-(rawPtr : Int)) % alignment).toNat

/-- {lit}`aligned_offset`. -/
def alignedOffset (basePtr currentOffset alignment : Nat) : Nat :=
  if alignment ≤ 1 then currentOffset
  else currentOffset + ((-((basePtr + currentOffset : Nat) : Int)) % alignment).toNat

/-! ## Filling the staging buffer -/

/-- What {lit}`prefill` reads and writes. -/
structure Staging (β : Type*) where
  /-- The chunks that the reader will still yield, in the order in which they get ready. -/
  ready : List (ReadyChunk β)
  readingFromStorage : Bool
  leftover : Option (ReadyChunk β)
  data : Nat → β
  batch : Metadata
  dataSize : Nat
  count : Nat

/-- The chunk that was set aside, or else the next one of the reader. -/
def Staging.next {β : Type*} (st : Staging β) : Option (ReadyChunk β × Staging β) :=
  match st.leftover with
  | some chunk => some (chunk, { st with leftover := none })
  | none =>
      match st.ready with
      | [] => none
      | chunk :: ready => some (chunk, { st with ready })

/-- Copy a chunk into the staging buffer. -/
def Staging.put {β : Type*} (dict : Nat → Nat → Nat × Nat) (st : Staging β)
    (chunk : ReadyChunk β) (offset : Nat) : Staging β :=
  { st with
    data := writeAt st.data offset chunk.bytes
    batch :=
      { st.batch with
        rows := Function.update st.batch.rows st.count
          { file := (dict chunk.id chunk.index).1
            chunk := (dict chunk.id chunk.index).2
            size := chunk.bytes.length
            offset } }
    dataSize := offset + chunk.bytes.length
    count := st.count + 1 }

/-- The loop of {lit}`prefill`, with the number of chunks that the batch may still take. -/
def prefillLoop {β : Type*} (g : Group) (rank : Nat) : Nat → Staging β → Staging β
  | 0, st => st
  | room + 1, st =>
      match st.next with
      | none => st
      | some (chunk, st) =>
          let offset := alignedOffset (stagingPtr (g.rawPtr rank) g.alignment) st.dataSize
            g.alignment
          if g.bufferBytesize < offset + chunk.bytes.length then
            { st with leftover := some chunk }
          else
            prefillLoop g rank room (st.put (g.dicts rank) chunk offset)

/-- {lit}`prefill`. -/
def prefill {β : Type*} (g : Group) (rank : Nat) (st : Staging β) : Staging β :=
  let st := { st with dataSize := 0, count := 0 }
  let st := if st.readingFromStorage then prefillLoop g rank maxChunksPerBatch st else st
  { st with batch := { st.batch with count := st.count } }

/-! ## The ranks -/

/-- A tensor in a broadcast. -/
inductive Tensor (β : Type*) where
  | metadata (m : Metadata)
  | data (bytes : List β)

/-- What a rank says when it calls {lit}`dist.broadcast`: how large the tensor is. -/
inductive Shape where
  | metadata
  | data (bytesize : Nat)
deriving DecidableEq, Repr

/-- The size of a tensor. -/
def Tensor.shape {β : Type*} : Tensor β → Shape
  | .metadata _ => .metadata
  | .data bytes => .data bytes.length

/-- A tensor that was broadcast. -/
structure Message (β : Type*) where
  source : Nat
  tensor : Tensor β

/-- Where a rank is in {lit}`get_chunks`. -/
inductive Phase where
  /-- At the top of the loop. -/
  | filling
  /-- At the metadata broadcast of a rank. -/
  | metadata (r : Nat)
  /-- At the data broadcast of a rank. -/
  | data (r : Nat)
  /-- Yielding the chunks of a rank, from number {lit}`j` on. -/
  | yielding (r j : Nat)
  | finished
  /-- {lit}`RuntimeError("No chunks to read")`. -/
  | raised
  /-- Its broadcast met another source or another size, and never ends. -/
  | mismatched
deriving DecidableEq, Repr

/-- A rank.  The last three are history: its broadcasts, its yields, and what
{lit}`chunks_to_read` was after each round. -/
structure RankState (β : Type*) where
  staging : Staging β
  received : Nat → β
  receivedMetadata : Metadata
  chunksToRead : Int
  totalBroadcastChunks : Nat
  phase : Phase
  /-- How many broadcasts it took part in. -/
  calls : Nat
  made : List (Nat × Shape)
  yields : List (Yielded β)
  rounds : List Int

/-- A group of ranks, and what they broadcast. -/
structure Job (β : Type*) where
  rank : Nat → RankState β
  log : List (Message β)

/-- A rank at the start of {lit}`get_chunks`. -/
def RankState.start {β : Type*} (g : Group) (share : List (ReadyChunk β)) (blank : Nat → β) :
    RankState β :=
  { staging :=
      { ready := share
        readingFromStorage := share ≠ []
        leftover := none
        data := blank
        batch := .zeros
        dataSize := 0
        count := 0 }
    received := blank
    receivedMetadata := .zeros
    chunksToRead := g.total
    totalBroadcastChunks := 0
    phase := .filling
    calls := 0
    made := []
    yields := []
    rounds := [] }

/-- A group at the start. -/
def Job.start {β : Type*} (g : Group) (share : Nat → List (ReadyChunk β)) (blank : Nat → β) :
    Job β :=
  { rank := fun i => .start g (share i) blank, log := [] }

namespace RankState

variable {β : Type*}

/-- On to the next broadcasting rank, or to the next round. -/
def afterRank (g : Group) (st : RankState β) (r : Nat) : RankState β :=
  if r + 1 < g.size then { st with phase := .metadata (r + 1) }
  else if st.totalBroadcastChunks = 0 ∧ 0 < st.chunksToRead then { st with phase := .raised }
  else { st with phase := .filling, rounds := st.rounds ++ [st.chunksToRead] }

/-- The top of the loop. -/
def fill (g : Group) (i : Nat) (st : RankState β) : RankState β :=
  if 0 < st.chunksToRead then
    { st with
      staging := prefill g i st.staging
      totalBroadcastChunks := 0
      phase := .metadata 0 }
  else
    { st with phase := .finished }

/-- A broadcast was made. -/
def called (st : RankState β) (r : Nat) (shape : Shape) : RankState β :=
  { st with calls := st.calls + 1, made := st.made ++ [(r, shape)] }

/-- Some chunks are counted. -/
def counted (st : RankState β) (count : Nat) : RankState β :=
  { st with
    chunksToRead := st.chunksToRead - count
    totalBroadcastChunks := st.totalBroadcastChunks + count }

/-- The broadcasting rank after its metadata. -/
def sentMetadata (g : Group) (st : RankState β) (r : Nat) : RankState β :=
  let st := (st.counted st.staging.count).called r .metadata
  if 0 < st.staging.count then { st with phase := .data r } else st.afterRank g r

/-- Another rank after the metadata. -/
def tookMetadata (g : Group) (st : RankState β) (r : Nat) (m : Metadata) : RankState β :=
  let st := { st.called r .metadata with receivedMetadata := m }
  if m.count = 0 then st.afterRank g r else { st.counted m.count with phase := .data r }

/-- The broadcasting rank after its data. -/
def sentData (st : RankState β) (r : Nat) : RankState β :=
  { st.called r (.data st.staging.dataSize) with phase := .yielding r 0 }

/-- Another rank after the data. -/
def tookData (st : RankState β) (r : Nat) (bytes : List β) : RankState β :=
  { st.called r (.data st.receivedMetadata.lastEnd) with
    received := writeAt st.received 0 bytes
    phase := .yielding r 0 }

/-- The metadata that the chunks of a rank are yielded by. -/
def metadataOf (st : RankState β) (i r : Nat) : Metadata :=
  if r = i then { st.staging.batch with count := st.staging.count } else st.receivedMetadata

/-- The buffer that the chunks of a rank are yielded from. -/
def bufferOf (st : RankState β) (i r : Nat) : Nat → β :=
  if r = i then st.staging.data else st.received

end RankState

/-- A chunk, read by its row. -/
def MetaRow.read {β : Type*} (row : MetaRow) (buffer : Nat → β) : Yielded β :=
  { file := row.file, chunk := row.chunk, bytes := readAt buffer row.offset row.size }

/-- A rank yields the next chunk of a batch. -/
def RankState.yieldNext {β : Type*} (g : Group) (i : Nat) (st : RankState β) (r j : Nat) :
    RankState β :=
  if j < (st.metadataOf i r).count then
    { st with
      yields := st.yields ++ [((st.metadataOf i r).rows j).read (st.bufferOf i r)]
      phase := .yielding r (j + 1) }
  else
    st.afterRank g r

/-! ## Steps -/

section Steps

variable {β : Type*}

/-- A rank that meets another broadcast than its own. -/
def RankState.mismatch (st : RankState β) : RankState β :=
  { st with phase := .mismatched }

/-- The broadcast of a metadata tensor. -/
def metadataCall (g : Group) (i : Nat) (log : List (Message β)) (st : RankState β) (r : Nat) :
    Option (RankState β × List (Message β)) :=
  if r = i then
    if log.length = st.calls then
      some (st.sentMetadata g r, [⟨i, .metadata st.staging.batch⟩])
    else
      some (st.mismatch, [])
  else
    match log[st.calls]? with
    | none => none
    | some ⟨source, .metadata m⟩ =>
        if source = r then some (st.tookMetadata g r m, []) else some (st.mismatch, [])
    | some ⟨_, .data _⟩ => some (st.mismatch, [])

/-- The broadcast of a batch. -/
def dataCall (i : Nat) (log : List (Message β)) (st : RankState β) (r : Nat) :
    Option (RankState β × List (Message β)) :=
  if r = i then
    if log.length = st.calls then
      some (st.sentData r, [⟨i, .data (readAt st.staging.data 0 st.staging.dataSize)⟩])
    else
      some (st.mismatch, [])
  else
    match log[st.calls]? with
    | none => none
    | some ⟨_, .metadata _⟩ => some (st.mismatch, [])
    | some ⟨source, .data bytes⟩ =>
        if source = r ∧ bytes.length = st.receivedMetadata.lastEnd then
          some (st.tookData r bytes, [])
        else
          some (st.mismatch, [])

/-- What a rank does next, and what it adds to the log. -/
def rankStep (g : Group) (i : Nat) (log : List (Message β)) (st : RankState β) :
    Option (RankState β × List (Message β)) :=
  match st.phase with
  | .filling => some (st.fill g i, [])
  | .metadata r => metadataCall g i log st r
  | .data r => dataCall i log st r
  | .yielding r j => some (st.yieldNext g i r j, [])
  | .finished => none
  | .raised => none
  | .mismatched => none

/-- One rank of the group goes on. -/
def jobStep (g : Group) (s : Job β) (i : Nat) : Option (Job β) :=
  if i < g.size then
    (rankStep g i s.log (s.rank i)).map fun (st, messages) =>
      { rank := Function.update s.rank i st, log := s.log ++ messages }
  else
    none

end Steps

end Broadcast
end Distributed
end ModelStreamer
