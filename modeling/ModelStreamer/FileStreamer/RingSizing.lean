import Mathlib.Algebra.Order.Floor.Semiring
import Mathlib.Data.List.Dedup
import Mathlib.Data.Rat.Floor
import ModelStreamer.Distributed.Partition

/-!
# The size of a ring

A ring is some buffers of one size, under a limit on the memory of all of them.
{lit}`_ring_sizing` derives the buffer size from the depth that is asked for, and spends what is
left of the limit so that a short stream needs no buffer twice.  {lit}`device_ring_sizing` picks
the depth that packs best.
-/

namespace ModelStreamer
namespace FileStreamer

open Distributed Lib

/-! ## Planning the requests -/

/-- {lit}`_packing_prefix`: the running totals over all ranges. -/
def packingPrefix (files : List FileChunks) : List Nat :=
  prefixSums (files.flatMap FileChunks.sizes)

/-- The loop of {lit}`_requests_needed`. -/
def requestsNeededFrom (sums : List Nat) (bufferSize cap index requests : Nat) : Option Nat :=
  if hindex : index < sums.length - 1 then
    -- the furthest range whose end still fits in one buffer
    let next := bisectRight sums (sums.getD index 0 + bufferSize) - 1
    if hnext : next ≤ index then none
    else if cap < requests + 1 then none
    else requestsNeededFrom sums bufferSize cap next (requests + 1)
  else some requests
termination_by sums.length - index
decreasing_by
  have hless := Nat.not_le.1 hnext
  exact Nat.sub_lt_sub_left (by omega) hless

/-- {lit}`_requests_needed`: how many requests the stream needs, if no more than the cap. -/
def requestsNeeded (sums : List Nat) (bufferSize cap : Nat) : Option Nat :=
  requestsNeededFrom sums bufferSize cap 0 0

/--
{lit}`_span_whole_stream`: the smallest buffer that packs the whole stream into few enough
requests, with their number.
-/
def spanWholeStream (files : List FileChunks) (bufferSize maxBufferSize target : Nat) :
    Option (Nat × Nat) :=
  if maxBufferSize < bufferSize then none
  else
    let sums := packingPrefix files
    if requestsNeeded sums maxBufferSize target = none then none
    else
      let low := searchLeast (fun size => (requestsNeeded sums size target).isSome) bufferSize
        maxBufferSize
      (requestsNeeded sums low target).map fun requests => (low, requests)

/-! ## The host ring -/

/-- {lit}`MemoryCapMode`. -/
inductive MemoryCapMode where
  | unlimited
  | limited
  | largestChunk
deriving DecidableEq, Repr

/-- {lit}`RunaiStreamerMemoryLimitException`. -/
inductive MemoryLimitError where
  /-- MemoryCapMode is Limited, but no limit supplied. -/
  | noLimit
  /-- Memory limit supplied cannot be smaller than the largest range. -/
  | belowLargest (limit : Int) (largest : Nat)
deriving DecidableEq, Repr

/-- What the environment says about rings; a variable that is not set is {lit}`none`. -/
structure RingSettings where
  /-- {lit}`RUNAI_STREAMER_RING_BUFFERS`. -/
  ringBuffers : Option Int
  /-- {lit}`_device_memory_limit`. -/
  deviceMemoryLimit : Nat
  deviceMemoryLimit_pos : 0 < deviceMemoryLimit
  /-- {lit}`_device_memory_fraction`. -/
  deviceMemoryFraction : ℚ
  deviceMemoryFraction_pos : 0 < deviceMemoryFraction
  deviceMemoryFraction_le : deviceMemoryFraction ≤ 1

/-- {lit}`DEFAULT_RING_BUFFERS`. -/
def defaultRingBuffers : Nat :=
  18

/-- {lit}`_ring_buffers_setting`. -/
def RingSettings.ringBuffersSetting (settings : RingSettings) : Option Nat :=
  settings.ringBuffers.map fun value => (max 1 value).toNat

/-- {lit}`_ring_buffers`. -/
def RingSettings.ringBuffersOrDefault (settings : RingSettings) : Nat :=
  settings.ringBuffersSetting.getD defaultRingBuffers

/-- {lit}`_largest_range`. -/
def largestRange (files : List FileChunks) : Nat :=
  (files.map fun file => file.sizes.foldr max 0).foldr max 0

/-- The depth that {lit}`_ring_sizing` aims at; a depth of zero counts as not given. -/
def RingSettings.target (settings : RingSettings) (ringBuffers : Option Nat) : Nat :=
  match ringBuffers with
  | some (depth + 1) => depth + 1
  | _ => settings.ringBuffersOrDefault

/-- The bytes that {lit}`_ring_sizing` may spend. -/
def ringBudget (mode : MemoryCapMode) (files : List FileChunks) (limit : Option Int) :
    Except MemoryLimitError Nat :=
  if mode = .unlimited then .ok (totalOf files)
  else
    match limit with
    | none => .error .noLimit
    | some limit =>
        if limit < largestRange files then .error (.belowLargest limit (largestRange files))
        -- the limit is not negative here
        else .ok (min limit.toNat (totalOf files))

/-- The buffers that span the whole stream, when there is memory beyond its bytes. -/
def spanned (mode : MemoryCapMode) (files : List FileChunks) (limit : Option Int)
    (bufferSize target : Nat) : Option (Nat × Nat) :=
  match limit with
  | none => none
  | some limit =>
      if mode = .limited ∧ totalOf files < limit then
        spanWholeStream files bufferSize (limit.toNat / target) target
      else none

/-- {lit}`_ring_sizing`: the size and the number of the buffers. -/
def ringSizing (settings : RingSettings) (mode : MemoryCapMode) (files : List FileChunks)
    (limit : Option Int) (ringBuffers : Option Nat) : Except MemoryLimitError (Nat × Nat) :=
  if mode = .largestChunk then .ok (largestRange files, 1)
  else
    match ringBudget mode files limit with
    | .error e => .error e
    | .ok budget =>
        let target := settings.target ringBuffers
        let bufferSize := max (largestRange files) (budget / target)
        if bufferSize = 0 then .ok (0, 1)
        else
          match spanned mode files limit bufferSize target with
          | some shape => .ok shape
          | none => .ok (bufferSize, min target (budget / bufferSize))

/-! ## The device ring -/

/-- {lit}`device_ring_floor`. -/
def deviceRingFloor (files : List FileChunks) : Nat :=
  2 * largestRange files

/-- {lit}`device_ring_budget`. -/
def deviceRingBudget (settings : RingSettings) (freeBytes : Nat) (files : List FileChunks) : Nat :=
  min (max settings.deviceMemoryLimit (deviceRingFloor files))
    ⌊(freeBytes : ℚ) * settings.deviceMemoryFraction⌋₊

/-- The loop of {lit}`_packing_fill`: the buffers and the bytes in them. -/
def packingTotals (bufferSize : Nat) : Nat → Nat → Nat → List Nat → Nat × Nat
  | buffers, used, current, [] =>
      if current = 0 then (buffers, used) else (buffers + 1, used + current)
  | buffers, used, current, size :: sizes =>
      if bufferSize < current + size then
        packingTotals bufferSize (buffers + 1) (used + current) size sizes
      else packingTotals bufferSize buffers used (current + size) sizes

/-- {lit}`MAX_PACKING_CANDIDATES`. -/
def maxPackingCandidates : Nat :=
  8

/--
The depths that are tried: all up to the deepest, or a sample.  The quotient that is rounded for
the sample is never halfway between two numbers.
-/
def candidateDepths (deepest : Nat) : List Nat :=
  let depths := (List.range (deepest - 1)).map (· + 2)
  if maxPackingCandidates < depths.length then
    let steps := maxPackingCandidates - 1
    ((List.range maxPackingCandidates).map fun i =>
      depths.getD ((2 * i * (depths.length - 1) + steps) / (2 * steps)) 0).dedup
  else depths

section Shape

-- the floating point numbers, and the quotient of two whole numbers
variable {φ : Type*} [LinearOrder φ] [Zero φ] (quotient : Nat → Nat → φ)

/-- {lit}`_packing_fill`. -/
def packingFill (sizes : List Nat) (bufferSize : Nat) : φ :=
  if bufferSize = 0 then 0
  else
    let (buffers, used) := packingTotals bufferSize 0 0 0 sizes
    if buffers = 0 then 0 else quotient used (buffers * bufferSize)

/-- The best shape so far: its fill, its buffer size and its depth. -/
abbrev Best (φ : Type*) :=
  φ × Nat × Nat

/-- A shape is better when it packs better, or as well in less memory. -/
def Best.better (shape best : Best φ) : Bool :=
  best.1 < shape.1 || (shape.1 = best.1 && shape.2.1 * shape.2.2 < best.2.1 * best.2.2)

/-- The loop of {lit}`_device_ring_shape` over the depths. -/
def bestShape (largest budget target : Nat) (sizes : List Nat) :
    Option (Best φ) → List Nat → Option (Best φ)
  | best, [] => best
  | best, depth :: depths =>
      let bufferSize := max largest (budget / depth)
      let buffers := min target (budget / bufferSize)
      if buffers < 2 then bestShape largest budget target sizes best depths
      else
        let shape := (packingFill quotient sizes bufferSize, bufferSize, buffers)
        match best with
        | none => bestShape largest budget target sizes (some shape) depths
        | some old =>
            bestShape largest budget target sizes
              (if Best.better shape old then some shape else some old) depths

/-- The depth that was asked for, by the caller or else by the environment. -/
def RingSettings.requested (settings : RingSettings) (ringBuffers : Option Nat) : Option Nat :=
  match ringBuffers with
  | some depth => some depth
  | none => settings.ringBuffersSetting

/-- {lit}`_device_ring_shape`. -/
def deviceRingShape (settings : RingSettings) (files : List FileChunks) (budget : Nat)
    (ringBuffers : Option Nat) : Except MemoryLimitError (Nat × Nat) :=
  let largest := largestRange files
  let sizes := (files.flatMap FileChunks.sizes).filter (0 < ·)
  if largest = 0 ∨ sizes = [] then ringSizing settings .limited files (some budget) none
  else if sizes.sum < budget then ringSizing settings .limited files (some budget) ringBuffers
  else
    let requested := settings.requested ringBuffers
    let target := requested.getD defaultRingBuffers
    let deepest := min target (budget / largest)
    if deepest < 2 then ringSizing settings .limited files (some budget) ringBuffers
    else if requested.isSome then .ok (max largest (budget / deepest), deepest)
    else
      match bestShape quotient largest budget target sizes none (candidateDepths deepest) with
      | none => ringSizing settings .limited files (some budget) none
      | some best => .ok best.2

/-- {lit}`device_ring_sizing`; without a ring the host path is taken. -/
def deviceRingSizing (settings : RingSettings) (freeBytes : Option Nat) (files : List FileChunks)
    (ringBuffers : Option Nat) : Except MemoryLimitError (Option (Nat × Nat)) :=
  match freeBytes with
  | none => .ok none
  | some freeBytes =>
      let budget := deviceRingBudget settings freeBytes files
      if budget = 0 ∨ budget < deviceRingFloor files then .ok none
      else (deviceRingShape quotient settings files budget ringBuffers).map some

end Shape

end FileStreamer
end ModelStreamer
