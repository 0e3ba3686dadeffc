import ModelStreamer.Distributed.Partition
import ModelStreamer.Lib.Spans

/-!
# The requests of a stream

{lit}`FilesRequestsIterator` packs the ranges of the files, in list order, into requests that fit
a buffer.  A request records where each of its ranges comes from, and
{lit}`FilesRequestsIteratorWithBuffer` gives every range an address in the buffer.
-/

namespace ModelStreamer
namespace FileStreamer

open Distributed

/-! ## Packing -/

/-- The ranges that fit a budget, taken from the front. -/
def countFitting (remaining : Int) : List Nat → Nat
  | [] => 0
  | size :: sizes =>
      if (size : Int) ≤ remaining then countFitting (remaining - size) sizes + 1 else 0

/-- {lit}`FileChunksIterator`: a file and the first range that was not handed out. -/
structure FileChunksIterator where
  file : FileChunks
  nextIndex : Nat

/-- {lit}`is_finished`. -/
def FileChunksIterator.isFinished (it : FileChunksIterator) : Bool :=
  it.file.sizes.length ≤ it.nextIndex

/-- A part of the ranges of a file. -/
def fileSlice (file : FileChunks) (start stop : Nat) : FileChunks where
  id := file.id
  path := file.path
  offsets := (file.offsets.take stop).drop start
  sizes := (file.sizes.take stop).drop start
  parallel := by simp [file.parallel]

/-- {lit}`next_chunks`: the ranges that fit the budget. -/
def FileChunksIterator.nextChunks (it : FileChunksIterator) (size : Int) :
    FileChunks × FileChunksIterator :=
  let stop := it.nextIndex + countFitting size (it.file.sizes.drop it.nextIndex)
  (fileSlice it.file it.nextIndex stop, { it with nextIndex := stop })

/-- {lit}`FilesRequest`: one submission.  Its buffer index is kept beside it. -/
structure FilesRequest where
  files : List FileChunks
  fileBase : List Nat
  rangeBase : List Nat
  numRanges : Nat
  rangeDsts : List Nat

/-- A request without files. -/
def FilesRequest.empty : FilesRequest :=
  { files := [], fileBase := [], rangeBase := [], numRanges := 0, rangeDsts := [] }

/-- {lit}`FilesRequest.append`. -/
def FilesRequest.append (request : FilesRequest) (file : FileChunks) (rangeBase : Nat) :
    FilesRequest :=
  { request with
    files := request.files ++ [file]
    fileBase := request.fileBase ++ [request.numRanges]
    rangeBase := request.rangeBase ++ [rangeBase]
    numRanges := request.numRanges + file.sizes.length }

/-- {lit}`FilesRequestsIterator`: the files that have ranges left, and the ranges given out. -/
structure FilesRequestsIterator where
  memoryLimit : Nat
  q : List FileChunksIterator
  assignedRanges : Int → Nat

/-- A new iterator over the files. -/
def FilesRequestsIterator.make (memoryLimit : Nat) (files : List FileChunks) :
    FilesRequestsIterator :=
  { memoryLimit, q := files.map fun file => ⟨file, 0⟩, assignedRanges := fun _ => 0 }

/-- The turns that packing the files of a queue can take. -/
def packingTurns (q : List FileChunksIterator) : Nat :=
  (q.map fun it => it.file.sizes.length - it.nextIndex + 1).sum

/-- The loop of {lit}`next_request`; {lit}`used` is the size of the request so far. -/
def packRequest (memoryLimit : Nat) : Nat → Nat → FilesRequest → (Int → Nat) →
    List FileChunksIterator → FilesRequest × (Int → Nat) × List FileChunksIterator
  | 0, _, request, assigned, q => (request, assigned, q)
  | _ + 1, _, request, assigned, [] => (request, assigned, [])
  | turns + 1, used, request, assigned, it :: q =>
      let (file, it') := it.nextChunks ((memoryLimit : Int) - used)
      let q' := if it'.isFinished then q else it' :: q
      if file.sizes = [] then
        if it'.isFinished then packRequest memoryLimit turns used request assigned q'
        else (request, assigned, q')
      else
        packRequest memoryLimit turns (used + file.totalSize)
          (request.append file (assigned file.id))
          (Function.update assigned file.id (assigned file.id + file.sizes.length)) q'

/-- {lit}`FilesRequestsIterator.next_request`. -/
def FilesRequestsIterator.nextRequest (it : FilesRequestsIterator) :
    Option FilesRequest × FilesRequestsIterator :=
  let (request, assigned, q) :=
    packRequest it.memoryLimit (packingTurns it.q) 0 .empty it.assignedRanges it.q
  (if request.files = [] then none else some request,
    { it with q, assignedRanges := assigned })

/-! ## Responses -/

/-- Stands for a file that a request does not have. -/
def noFile : FileChunks :=
  { id := 0, path := "", offsets := [], sizes := [], parallel := rfl }

/-- {lit}`flat_index`: the place of a range among all ranges of the request. -/
def FilesRequest.flatIndex (request : FilesRequest) (fileIndex rangeIndex : Nat) : Nat :=
  request.fileBase.getD fileIndex 0 + rangeIndex

/-- {lit}`global_range_index`: the place of a range in its file. -/
def FilesRequest.globalRangeIndex (request : FilesRequest) (fileIndex rangeIndex : Nat) : Nat :=
  request.rangeBase.getD fileIndex 0 + rangeIndex

/-- The offset and the size of every range. -/
def FilesRequest.ranges (request : FilesRequest) : List (Nat × Nat) :=
  request.files.flatMap fun file => file.offsets.zip file.sizes

/-- The ranges of a submission, as the library names them. -/
def rangeNames (numRanges : List Nat) : List (Nat × Nat) :=
  numRanges.zipIdx.flatMap fun entry => (List.range entry.1).map fun range => (entry.2, range)

/-! ## Addresses -/

/-- {lit}`_place`: the addresses of the ranges from a cursor on, if they fit below the limit. -/
def placeRanges (aligned : Bool) (directBlock limit : Nat) : Nat → List (Nat × Nat) →
    Option (List Nat)
  | _, [] => some []
  | cursor, (offset, size) :: ranges =>
      let cursor' :=
        if aligned then cursor + (((offset : Int) - cursor) % directBlock).toNat else cursor
      if limit < cursor' + size then none
      else (placeRanges aligned directBlock limit (cursor' + size) ranges).map (cursor' :: ·)

end FileStreamer
end ModelStreamer
