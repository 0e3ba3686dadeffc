import Mathlib.Data.List.Sort
import ModelStreamer.Lib.IntervalCover

/-!
# Safetensors headers

The header of a safetensors file names its tensors, each with a shape, a dtype and the range
of the data section it occupies.  The tensors are sorted by their start and checked one after
the other, and the sizes that are read follow from the order.
-/

namespace ModelStreamer
namespace Safetensors

open Lib

/-! ## Tensors -/

/-- The dtypes of the format. -/
inductive Dtype where
  | f64 | f32 | f16 | bf16 | i64 | i32 | i16 | i8 | u8 | bool | c64 | u64 | u32 | u16
  | f8E4M3 | f8E5M2 | f8E8M0 | f4
deriving DecidableEq, Repr

/-- {lit}`itemsize` of the torch dtype; an element of {lit}`F4` holds two values. -/
def Dtype.itemsize : Dtype → Nat
  | .f64 | .i64 | .u64 | .c64 => 8
  | .f32 | .i32 | .u32 => 4
  | .f16 | .bf16 | .i16 | .u16 => 2
  | .i8 | .u8 | .bool | .f8E4M3 | .f8E5M2 | .f8E8M0 | .f4 => 1

/-- {lit}`PACKED_VALUES_PER_ELEMENT`. -/
def Dtype.valuesPerElement : Dtype → Nat
  | .f4 => 2
  | _ => 1

/-- What the header says about one tensor; the offsets may be missing. -/
structure TensorHeader where
  shape : List Nat
  dtype : Dtype
  dataOffsets : Option (Int × Int)
deriving DecidableEq, Repr

/-- {lit}`Offsets`. -/
structure Offsets where
  start : Int
  stop : Int
deriving DecidableEq, Repr

/-- {lit}`get_diff`. -/
def Offsets.getDiff (offsets : Offsets) : Int :=
  offsets.stop - offsets.start

/-- The errors of a header, with the values of their texts. -/
inductive HeaderError where
  /-- Corrupted Header: the tensor misses its data offsets. -/
  | missingDataOffsets (name : String)
  /-- Corrupted Tensor: the shape cannot be represented as a torch tensor. -/
  | notRepresentable (name : String) (dtype : Dtype) (values : Nat) (shape : List Nat)
  /-- Unsupported dtype. -/
  | unsupportedDtype (dtype : Dtype) (name : String)
  /-- Corrupted Tensor: the shape claims other bytes than the offsets reserve. -/
  | shapeMismatch (name : String) (expected : Int) (shape : List Nat) (dtype : Dtype)
      (actual : Int)
  /-- Corrupted File: the tensor does not start at the beginning of the data section. -/
  | notAtBeginning (name : String) (start : Int)
  /-- Corrupted Offset: the start is after the end. -/
  | startAfterEnd (name : String) (start stop : Int)
  /-- Corrupted File: the tensor overlaps with the next tensor. -/
  | overlaps (name : String) (stop nextStart : Int)
  /-- Corrupted File: gaps between tensors are not allowed. -/
  | gap (name : String) (stop nextStart : Int)
deriving DecidableEq, Repr

/-- {lit}`SafetensorMetadata`. -/
structure SafetensorMetadata where
  name : String
  shape : List Nat
  dtype : Dtype
  offsets : Offsets
deriving DecidableEq, Repr

/-- {lit}`get_bytesize`. -/
def SafetensorMetadata.getBytesize (tensor : SafetensorMetadata) : Int :=
  tensor.offsets.getDiff

/-- {lit}`get_storage_shape`. -/
def SafetensorMetadata.getStorageShape (tensor : SafetensorMetadata) :
    Except HeaderError (List Nat) :=
  let values := tensor.dtype.valuesPerElement
  if values = 1 then .ok tensor.shape
  else
    match tensor.shape.getLast? with
    | none => .error (.notRepresentable tensor.name tensor.dtype values tensor.shape)
    | some last =>
        if last % values ≠ 0 then
          .error (.notRepresentable tensor.name tensor.dtype values tensor.shape)
        else .ok (tensor.shape.dropLast ++ [last / values])

/-- {lit}`get_element_size`, on a torch that supports these dtypes. -/
def SafetensorMetadata.getElementSize (supported : Dtype → Bool) (tensor : SafetensorMetadata) :
    Except HeaderError Nat :=
  if supported tensor.dtype then .ok tensor.dtype.itemsize
  else .error (.unsupportedDtype tensor.dtype tensor.name)

/-- {lit}`_validate_shape_consistency`. -/
def SafetensorMetadata.validateShapeConsistency (supported : Dtype → Bool)
    (tensor : SafetensorMetadata) : Except HeaderError Unit := do
  let storageShape ← tensor.getStorageShape
  let actualBytes := tensor.offsets.getDiff
  let elementSize ← tensor.getElementSize supported
  let expectedBytes : Int := (storageShape.prod * elementSize : Nat)
  if expectedBytes ≠ actualBytes then
    .error (.shapeMismatch tensor.name expectedBytes tensor.shape tensor.dtype actualBytes)
  else .ok ()

/-- {lit}`SafetensorMetadata.__init__`, after the check that the offsets are there. -/
def SafetensorMetadata.make (supported : Dtype → Bool) (name : String) (header : TensorHeader) :
    Except HeaderError SafetensorMetadata :=
  match header.dataOffsets with
  | none => .error (.missingDataOffsets name)
  | some (start, stop) => do
      let tensor : SafetensorMetadata :=
        { name, shape := header.shape, dtype := header.dtype, offsets := ⟨start, stop⟩ }
      tensor.validateShapeConsistency supported
      .ok tensor

/-! ## The header -/

/-- A header: what it says under each name, in the order of its keys. -/
abbrev Blob := List (String × TensorHeader)

/-- The name that does not stand for a tensor. -/
def metadataKey : String := "__metadata__"

/-- The loop over the keys of the header. -/
def collectTensors (supported : Dtype → Bool) : Blob → Except HeaderError (List SafetensorMetadata)
  | [] => .ok []
  | (name, header) :: blob =>
      if name ≠ metadataKey then do
        let tensor ← SafetensorMetadata.make supported name header
        let tensors ← collectTensors supported blob
        .ok (tensor :: tensors)
      else
        collectTensors supported blob

/-- By start, and by size at the same start. -/
def sortKey (a b : SafetensorMetadata) : Bool :=
  a.offsets.start < b.offsets.start ||
    (a.offsets.start = b.offsets.start && a.getBytesize ≤ b.getBytesize)

/-- The check of a tensor against the one after it: no overlap and no gap. -/
def checkNext (current : SafetensorMetadata) (next : Option SafetensorMetadata) :
    Except HeaderError Unit :=
  match next with
  | none => .ok ()
  | some next =>
      let requiredSize := current.getBytesize
      if current.offsets.start + requiredSize > next.offsets.start then
        .error (.overlaps current.name (current.offsets.start + requiredSize)
          next.offsets.start)
      else if current.offsets.start + requiredSize < next.offsets.start then
        .error (.gap current.name (current.offsets.start + requiredSize) next.offsets.start)
      else .ok ()

/-- The loop over the sorted tensors, which collects the sizes to read. -/
def checkTensors : List SafetensorMetadata → Except HeaderError (List Int)
  | [] => .ok []
  | current :: tensors =>
      if current.offsets.start > current.offsets.stop then
        .error (.startAfterEnd current.name current.offsets.start current.offsets.stop)
      else do
        checkNext current tensors.head?
        let readSizes ← checkTensors tensors
        .ok (current.getBytesize :: readSizes)

/-- The check that the data section starts with the first tensor. -/
def checkFirst (first : Option SafetensorMetadata) : Except HeaderError Unit :=
  match first with
  | none => .ok ()
  | some first =>
      if first.offsets.start ≠ 0 then .error (.notAtBeginning first.name first.offsets.start)
      else .ok ()

/-- {lit}`SafetensorsMetadata`. -/
structure SafetensorsMetadata where
  offset : Int
  tensorsMetadata : List SafetensorMetadata
  readSizes : List Int
deriving DecidableEq, Repr

/-- {lit}`SafetensorsMetadata.__init__`. -/
def SafetensorsMetadata.make (supported : Dtype → Bool) (blob : Blob) (offset : Int) :
    Except HeaderError SafetensorsMetadata := do
  let tensors ← collectTensors supported blob
  let sorted := tensors.mergeSort sortKey
  checkFirst sorted.head?
  let readSizes ← checkTensors sorted
  .ok { offset, tensorsMetadata := sorted, readSizes }

/-! ## The request for a file -/

/-- {lit}`FileChunks.contiguous`: the offsets of sizes that lie back to back. -/
def contiguousOffsets : Int → List Int → List Int
  | _, [] => []
  | running, size :: sizes => running :: contiguousOffsets (running + size) sizes

/-- The ranges of the load without a filter: offsets and sizes. -/
def SafetensorsMetadata.unfilteredRanges (file : SafetensorsMetadata) : List (Int × Int) :=
  (contiguousOffsets file.offset file.readSizes).zip file.readSizes

/-- The tensors that a filter keeps. -/
def SafetensorsMetadata.keptMetadata (file : SafetensorsMetadata) (tensorNames : List String) :
    List SafetensorMetadata :=
  file.tensorsMetadata.filter fun tensor => tensor.name ∈ tensorNames

/-- The ranges of the load with a filter: offsets and sizes. -/
def SafetensorsMetadata.filteredRanges (file : SafetensorsMetadata) (tensorNames : List String) :
    List (Int × Int) :=
  ((file.keptMetadata tensorNames).map fun tensor => file.offset + tensor.offsets.start).zip
    ((file.keptMetadata tensorNames).map SafetensorMetadata.getBytesize)

end Safetensors
end ModelStreamer
