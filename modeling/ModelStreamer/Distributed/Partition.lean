import Mathlib.Data.List.Sort
import ModelStreamer.Distributed.SpanEnds

/-!
# Partitioning a request

The ranks of a process group divide the chunks of a request.  The {lit}`chunks` policy gives
each chunk to the emptiest rank, the {lit}`files` policy each whole file, and the
{lit}`spans` policy cuts the whole request into contiguous spans.  A share is a list of files
to read, and beside each file a map from its chunks to the chunks of the request.
-/

namespace ModelStreamer
namespace Distributed

open Lib

/-! ## Data -/

/-- {lit}`FileChunks`: a file and the ranges to read from it. -/
structure FileChunks where
  id : Int
  path : String
  offsets : List Nat
  sizes : List Nat
  parallel : offsets.length = sizes.length
deriving DecidableEq

/-- {lit}`total_size`. -/
def FileChunks.totalSize (file : FileChunks) : Nat :=
  file.sizes.sum

/-- The bytes of all files. -/
def totalOf (requests : List FileChunks) : Nat :=
  (requests.map FileChunks.totalSize).sum

/-- The bytes of all files are the sum of all sizes. -/
theorem totalOf_eq (requests : List FileChunks) :
    totalOf requests = (requests.flatMap FileChunks.sizes).sum := by
  rw [List.flatMap_def, List.sum_flatten, List.map_map]
  rfl

/-- {lit}`_WorkUnit`: one chunk with its place in the request. -/
structure WorkUnit where
  path : String
  offset : Nat
  size : Nat
  originalRequestIndex : Int
  originalChunkIndex : Nat
deriving DecidableEq, Repr

/-- Where a chunk comes from: the id of its file, its index there and its size. -/
abbrev Source := Int × Nat × Nat

/-- The source of a unit. -/
def WorkUnit.source (unit : WorkUnit) : Source :=
  (unit.originalRequestIndex, unit.originalChunkIndex, unit.size)

/-- A file of a share and its source map, which gives chunk {lit}`i` at position {lit}`i`. -/
abbrev Entry := FileChunks × List Source

/-- What one rank reads. -/
abbrev Share := List Entry

/-- The exceptions of the partition functions. -/
inductive PartitionError where
  /-- Number of partitions (n) must be a positive integer. -/
  | notPositive
  /-- The rank is outside the partitions. -/
  | rankOutside (rank n : Nat)
  /-- Invalid partition policy. -/
  | invalidPolicy (name : String)
  /-- The list of cuts is missing. -/
  | noCuts
deriving DecidableEq, Repr

/-- The units with one path, as a new file with the given id. -/
def makeEntry (id : Int) (path : String) (units : List WorkUnit) : Entry :=
  ({ id
     path
     offsets := units.map WorkUnit.offset
     sizes := units.map WorkUnit.size
     parallel := by simp },
    units.map WorkUnit.source)

/-- One file for each group of units, numbered from {lit}`id` on, and the next free id. -/
def numberEntries : Int → List (String × List WorkUnit) → Share × Int
  | id, [] => ([], id)
  | id, (path, units) :: groups =>
      let (entries, next) := numberEntries (id + 1) groups
      (makeEntry id path units :: entries, next)

/-! ## Distributing to the emptiest rank -/

/-- The first position of the smallest size. -/
def emptiest (partitionSizes : List Nat) : Nat :=
  partitionSizes.findIdx fun size => partitionSizes.all fun other => size ≤ other

section Distribute

variable {α : Type*}

/-- Give the next item to the emptiest partition. -/
def distributeOne (size : α → Nat) (state : List (List α) × List Nat) (item : α) :
    List (List α) × List Nat :=
  let index := emptiest state.2
  (state.1.modify index (· ++ [item]), state.2.modify index (· + size item))

/-- Give every item to the partition that is the emptiest at its turn. -/
def distribute (size : α → Nat) (n : Nat) (items : List α) : List (List α) :=
  (items.foldl (distributeOne size) (List.replicate n [], List.replicate n 0)).1

end Distribute

/-! ## The chunks policy -/

/-- The units of a file, in the order of its ranges. -/
def FileChunks.units (file : FileChunks) : List WorkUnit :=
  (file.offsets.zip file.sizes).zipIdx.map fun ((offset, size), index) =>
    { path := file.path
      offset
      size
      originalRequestIndex := file.id
      originalChunkIndex := index }

/-- Larger units come first. -/
def largerFirst (a b : WorkUnit) : Bool :=
  b.size ≤ a.size

/-- By offset, and by size at the same offset. -/
def byOffset (a b : Nat × Nat) : Bool :=
  a.1 < b.1 || (a.1 = b.1 && a.2 ≤ b.2)

/-- Add a unit to the group of its path; a new path is a new group at the end. -/
def addToPath : List (String × List WorkUnit) → WorkUnit → List (String × List WorkUnit)
  | [], unit => [(unit.path, [unit])]
  | (path, units) :: groups, unit =>
      if path = unit.path then (path, units ++ [unit]) :: groups
      else (path, units) :: addToPath groups unit

/-- {lit}`units_by_path`. -/
def unitsByPath (units : List WorkUnit) : List (String × List WorkUnit) :=
  units.foldl addToPath []

/-- The groups of a partition with the units of each in file order. -/
def sortedGroups (units : List WorkUnit) : List (String × List WorkUnit) :=
  (unitsByPath units).map fun (path, units) =>
    (path, units.mergeSort fun a b => byOffset (a.offset, a.size) (b.offset, b.size))

/-- The files of all partitions, numbered across them. -/
def reconstruct : Int → List (List WorkUnit) → List Share
  | _, [] => []
  | id, units :: partitions =>
      let (share, next) := numberEntries id (sortedGroups units)
      share :: reconstruct next partitions

/-- {lit}`partition_by_chunks`. -/
def partitionByChunks (requests : List FileChunks) (n : Nat) :
    Except PartitionError (List Share) :=
  if n = 0 then .error .notPositive
  else if requests = [] then .ok (List.replicate n [])
  else
    let allUnits := (requests.flatMap FileChunks.units).mergeSort largerFirst
    .ok (reconstruct 0 (distribute WorkUnit.size n allUnits))

/-! ## The files policy -/

/-- The source map of a file that is taken whole. -/
def FileChunks.sourceMap (file : FileChunks) : List Source :=
  file.sizes.zipIdx.map fun (size, index) => (file.id, index, size)

/-- {lit}`partition_by_files`. -/
def partitionByFiles (requests : List FileChunks) (n : Nat) :
    Except PartitionError (List Share) :=
  if n = 0 then .error .notPositive
  else if requests = [] then .ok (List.replicate n [])
  else
    let sortedRequests := requests.mergeSort fun a b => b.totalSize ≤ a.totalSize
    .ok ((distribute FileChunks.totalSize n sortedRequests).map fun files =>
      files.map fun file => (file, file.sourceMap))

/-! ## The spans policy -/

/-- The unit of one range of a file. -/
def FileChunks.unitAt (file : FileChunks) (index : Nat) : WorkUnit :=
  { path := file.path
    offset := file.offsets.getD index 0
    size := file.sizes.getD index 0
    originalRequestIndex := file.id
    originalChunkIndex := index }

/-- The ranges of a file in ascending order. -/
def FileChunks.order (file : FileChunks) : List Nat :=
  (List.range file.sizes.length).mergeSort fun i j =>
    byOffset (file.offsets.getD i 0, file.sizes.getD i 0)
      (file.offsets.getD j 0, file.sizes.getD j 0)

/-- {lit}`_flatten`: the request as one stream; the parallel lists are one list of units. -/
def flatten (requests : List FileChunks) : List WorkUnit :=
  requests.flatMap fun file => file.order.map file.unitAt

/-- The runs of units with the same path. -/
def pathRuns : List WorkUnit → List (String × List WorkUnit)
  | [] => []
  | unit :: units =>
      (unit.path, unit :: units.takeWhile fun other => other.path = unit.path) ::
        pathRuns (units.dropWhile fun other => other.path = unit.path)
termination_by units => units.length
decreasing_by
  exact Nat.lt_succ_of_le (List.dropWhile_sublist _).length_le

/-- {lit}`_build_span`: the files of one span, and the next free id. -/
def buildSpan (units : List WorkUnit) (start stop : Nat) (firstId : Int) : Share × Int :=
  numberEntries firstId (pathRuns ((units.drop start).take (stop - start)))

/-- The loop of {lit}`partition_by_spans` over the ends of the spans. -/
def buildSpans (units : List WorkUnit) : Nat → List Nat → Int → List Share
  | _, [], _ => []
  | start, stop :: stops, generated =>
      let (share, next) := buildSpan units start stop generated
      share :: buildSpans units stop stops next

/-- {lit}`partition_by_spans`. -/
def partitionBySpans (requests : List FileChunks) (n : Nat) :
    Except PartitionError (List Share) :=
  if n = 0 then .error .notPositive
  else if requests = [] then .ok (List.replicate n [])
  else
    let units := flatten requests
    if units = [] then .ok (List.replicate n [])
    else
      match (spanEnds (units.map WorkUnit.size) n).1 with
      | none => .error .noCuts
      | some ends => .ok (buildSpans units 0 ends 0)

/-! ## One rank -/

/-- {lit}`RankSpan`: the share of one rank, the bytes of every rank and the chunks of all. -/
structure RankSpan where
  partition : Share
  sizesByRank : List Nat
  totalChunks : Nat
deriving DecidableEq

/-- The bytes between consecutive ends. -/
def sizesBetween (sums : List Nat) : Nat → List Nat → List Nat
  | _, [] => []
  | start, stop :: stops => (sums.getD stop 0 - sums.getD start 0) :: sizesBetween sums stop stops

/-- {lit}`partition_span_for_rank`. -/
def partitionSpanForRank (requests : List FileChunks) (n rank : Nat) :
    Except PartitionError RankSpan :=
  if n = 0 then .error .notPositive
  else if ¬ rank < n then .error (.rankOutside rank n)
  else if requests = [] then
    .ok { partition := [], sizesByRank := List.replicate n 0, totalChunks := 0 }
  else
    let units := flatten requests
    if units = [] then
      .ok { partition := [], sizesByRank := List.replicate n 0, totalChunks := 0 }
    else
      match spanEnds (units.map WorkUnit.size) n with
      | (none, _) => .error .noCuts
      | (some ends, sums) =>
          let spanStart := if 0 < rank then ends.getD (rank - 1) 0 else 0
          .ok
            { partition := (buildSpan units spanStart (ends.getD rank 0) 0).1
              sizesByRank := sizesBetween sums 0 ends
              totalChunks := units.length }

/-- The policies, and any other text that was configured. -/
inductive Policy where
  | files
  | chunks
  | spans
  | invalid (name : String)
deriving DecidableEq, Repr

/-- {lit}`partition`. -/
def partition (policy : Policy) (requests : List FileChunks) (n : Nat) :
    Except PartitionError (List Share) :=
  match policy with
  | .files => partitionByFiles requests n
  | .chunks => partitionByChunks requests n
  | .spans => partitionBySpans requests n
  | .invalid name => .error (.invalidPolicy name)

/-- {lit}`get_total_number_of_chunks`. -/
def getTotalNumberOfChunks (partitions : List Share) : Nat :=
  (partitions.map fun share => (share.map fun entry => entry.1.sizes.length).sum).sum

/-- {lit}`get_total_size_of_partition`. -/
def getTotalSizeOfPartition (share : Share) : Nat :=
  (share.map fun entry => entry.1.totalSize).sum

/-- {lit}`partition_for_rank`. -/
def partitionForRank (policy : Policy) (requests : List FileChunks) (n rank : Nat) :
    Except PartitionError RankSpan :=
  if policy = .spans then partitionSpanForRank requests n rank
  else
    match partition policy requests n with
    | .error error => .error error
    | .ok partitions =>
        match partitions[rank]? with
        | none => .error (.rankOutside rank partitions.length)
        | some share =>
            .ok
              { partition := share
                sizesByRank := partitions.map getTotalSizeOfPartition
                totalChunks := getTotalNumberOfChunks partitions }

end Distributed
end ModelStreamer
