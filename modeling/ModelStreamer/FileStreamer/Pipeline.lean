import Mathlib.Algebra.Order.Ring.Nat
import ModelStreamer.FileStreamer.Requests
import ModelStreamer.FileStreamer.SlotPool
import ModelStreamer.Lib.Run
import ModelStreamer.Lib.Table

/-!
# The ring pipeline

{lit}`FileStreamer.stream_files` fills a ring of buffers with submissions, and
{lit}`get_chunks` hands the ranges over as the library answers them.  A buffer is refilled
while later ranges are still to be handed over, so the state of the generator is part of the
model: it is suspended where it waits for a response, for an event or for its consumer.
-/

namespace ModelStreamer
namespace FileStreamer

open Distributed Lib

/-! ## The order of the ranges -/

/-- {lit}`_first_ordinal_of_each_file`, from a number of ranges on. -/
def firstOrdinals : Nat → List (Int × Nat) → List FileChunks →
    Except StreamError (List (Int × Nat))
  | _, ordinals, [] => .ok ordinals
  | rangesSoFar, ordinals, file :: files =>
      if (ordinals.lookup file.id).isSome then .error .duplicateFile
      else firstOrdinals (rangesSoFar + file.sizes.length) (ordinals ++ [(file.id, rangesSoFar)])
        files

/-- A range that was answered, with the submission it belongs to. -/
structure Payload where
  submission : Nat
  request : FilesRequest
  fileIndex : Nat
  localIndex : Nat
  fileId : Int
  rangeIndex : Nat
  view : Slot

/-- {lit}`YieldOrder` and {lit}`UnorderedYield`. -/
structure YieldOrder where
  ordered : Bool
  firstOrdinal : List (Int × Nat)
  next : Nat
  parked : Table Payload

/-- {lit}`ordinal`. -/
def YieldOrder.ordinal (order : YieldOrder) (fileId : Int) (rangeIndex : Nat) :
    Except StreamError Nat :=
  match order.firstOrdinal.lookup fileId with
  | some first => .ok (first + rangeIndex)
  | none => .error .unknownFile

/-- The run of parked payloads that starts at {lit}`next`. -/
def takeReady : Nat → Nat → Table Payload → List Payload × Nat × Table Payload
  | 0, next, parked => ([], next, parked)
  | turns + 1, next, parked =>
      match parked.lookup next with
      | some payload =>
          let (ready, next', parked') := takeReady turns (next + 1) (parked.remove next)
          (payload :: ready, next', parked')
      | none => ([], next, parked)

/-- {lit}`arrived`: what may be handed over now, in order. -/
def YieldOrder.arrived (order : YieldOrder) (payload : Payload) :
    Except StreamError (List Payload × YieldOrder) :=
  if order.ordered then
    match order.ordinal payload.fileId payload.rangeIndex with
    | .error e => .error e
    | .ok ordinal =>
        let parked := order.parked.remove ordinal ++ [(ordinal, payload)]
        let (ready, next, parked) := takeReady parked.length order.next parked
        .ok (ready, { order with next, parked })
  else .ok ([payload], order)

/-! ## The ring -/

/-- What a ring is made of. -/
inductive RingKind where
  /-- Host memory, which a direct read can land on. -/
  | host (owned : Bool)
  /-- Device memory, whose slots are released with an event. -/
  | device
deriving DecidableEq, Repr

/-- The slots are given away when they are released. -/
def RingKind.owned : RingKind → Bool
  | .host owned => owned
  | .device => false

/-- {lit}`SlotMemory.direct_io`. -/
def RingKind.directIo : RingKind → Bool
  | .host _ => true
  | .device => false

/-- {lit}`SlotMemory.reuse_needs_event`. -/
def RingKind.reuseNeedsEvent : RingKind → Bool
  | .host _ => false
  | .device => true

/-- The shape of a ring.  {lit}`alloc` gives the address of each allocation. -/
structure Ring where
  bufferSize : Nat
  numBuffers : Nat
  directBlock : Nat
  maxPads : Nat
  kind : RingKind
  alloc : Nat → Nat
  buffers_pos : 0 < numBuffers
  block_pos : 0 < directBlock

/-- {lit}`_slot_size`: the buffer and, for a direct read, room for the pads. -/
def Ring.slotSize (ring : Ring) : Nat :=
  ring.bufferSize + if ring.kind.directIo then ring.directBlock * ring.maxPads else 0

/-- {lit}`_place`, for a request that lies in a slot. -/
def Ring.place (ring : Ring) (request : FilesRequest) (base : Nat) (aligned : Bool) :
    Option (List Nat) :=
  placeRanges aligned ring.directBlock (base + ring.slotSize) base request.ranges

/-- The addresses that {lit}`next_request` gives to the ranges: aligned if that fits. -/
def Ring.destinations (ring : Ring) (request : FilesRequest) (base : Nat) :
    Option (List Nat) :=
  match ring.place request base ring.kind.directIo with
  | some dsts => some dsts
  | none => if ring.kind.directIo then ring.place request base false else none

/-! ## The library -/

/-- What the library was given with a submission, and the ranges it has not answered. -/
structure Submission where
  paths : List String
  numRanges : List Nat
  offsets : List Nat
  sizes : List Nat
  dsts : List Nat
  unanswered : List (Nat × Nat)

/-- {lit}`runai_request` of a request. -/
def FilesRequest.submission (request : FilesRequest) : Submission :=
  let numRanges := request.files.map fun file => file.sizes.length
  { paths := request.files.map FileChunks.path
    numRanges
    offsets := request.files.flatMap FileChunks.offsets
    sizes := request.files.flatMap FileChunks.sizes
    dsts := request.rangeDsts
    unanswered := rangeNames numRanges }

/-! ## The stream -/

/-- Where the stream is. -/
inductive Control where
  /-- At the head of {lit}`_submit_while_buffers_free`, with what is still to be handed over. -/
  | submitting (rest : List Payload)
  /-- In {lit}`wait_for_free`, until the event has completed. -/
  | synchronizing (event : Nat) (rest : List Payload)
  /-- About to build the next request. -/
  | building (rest : List Payload)
  /-- At the head of the loop over the ranges that are ready. -/
  | handing (rest : List Payload)
  /-- At a yield, until the consumer resumes. -/
  | yielded (payload : Payload) (rest : List Payload)
  /-- In {lit}`runai_response`. -/
  | receiving
  /-- The generator has ended. -/
  | ended
  | failed (error : StreamError)

/--
A stream, what the library was given, and what the consumer received.  {lit}`slotOf` and
{lit}`guards` are a record: the slot of every submission, and the event of its release.
-/
structure Stream where
  iterator : FilesRequestsIterator
  pool : SlotPool
  allocated : Nat
  buffers : List (Option Nat)
  live : Table FilesRequest
  rangesNotYielded : Table Nat
  reportedDone : List Nat
  outstanding : Int
  order : YieldOrder
  control : Control
  library : List Submission
  events : Nat
  completed : List Nat
  consumed : List Payload
  slotOf : List Nat
  guards : List (Nat × Nat)

/-- What can happen next. -/
inductive StreamAction where
  /-- The stream goes on. -/
  | step
  /-- The library answers a range of a submission. -/
  | respond (submission fileIndex rangeIndex : Nat)
  /-- The consumer resumes the generator. -/
  | resume
  /-- The device has passed an event. -/
  | completes (event : Nat)
deriving DecidableEq, Repr

/-- Leave {lit}`_submit_while_buffers_free`. -/
def Stream.submitted (s : Stream) (rest : List Payload) : Stream :=
  { s with control := .handing rest }

/-- The head of {lit}`_submit_while_buffers_free`. -/
def Stream.submitting (s : Stream) (rest : List Payload) : Stream :=
  let (free, pool) := s.pool.hasFree s.completed
  let s := { s with pool }
  if free then { s with control := .building rest }
  else if (0 : Int) < s.outstanding then s.submitted rest
  else
    match pool.pending with
    | [] => { s with control := .failed .nothingPending }
    | (_, event) :: _ => { s with control := .synchronizing event rest }

/-- {lit}`runai_request`, of a request that lies in the slot {lit}`index`. -/
def Stream.submit (s : Stream) (request : FilesRequest) (index : Nat) (rest : List Payload) :
    Stream :=
  { s with
    buffers := s.buffers ++ [some index]
    live := s.live ++ [(s.library.length, request)]
    rangesNotYielded := s.rangesNotYielded ++ [(s.library.length, request.numRanges)]
    outstanding := s.outstanding + request.numRanges
    library := s.library ++ [request.submission]
    slotOf := s.slotOf ++ [index]
    control := .submitting rest }

/-- {lit}`next_request` of the ring, and {lit}`runai_request`. -/
def Stream.building (ring : Ring) (s : Stream) (rest : List Payload) : Stream :=
  let (free, pool) := s.pool.hasFree s.completed
  let s := { s with pool }
  if free = false then { s with control := .failed .noFreeBuffer }
  else
    let (request, iterator) := s.iterator.nextRequest
    let s := { s with iterator }
    match request with
    | none => s.submitted rest
    | some request =>
        match s.pool.takeFresh ⟨ring.alloc s.allocated, ring.slotSize⟩ with
        | none => { s with control := .failed .noFreeBuffer }
        | some (index, pool) =>
            let s := { s with pool, allocated := s.allocated + 1 }
            match pool.slot index with
            | .error e => { s with control := .failed e }
            | .ok slot =>
                match ring.destinations request slot.address with
                | none => { s with control := .failed .doesNotFit }
                | some dsts => s.submit { request with rangeDsts := dsts } index rest

/-- {lit}`get_global_file_and_range`: the payload of a response. -/
def Stream.payload (s : Stream) (submission : Nat) (request : FilesRequest)
    (fileIndex rangeIndex : Nat) : Except StreamError Payload :=
  match s.buffers.getD submission none with
  | none => .error .slotGivenAway
  | some index =>
      match s.pool.slot index with
      | .error e => .error e
      | .ok slot =>
          let file := request.files.getD fileIndex noFile
          let start : Int :=
            (request.rangeDsts.getD (request.flatIndex fileIndex rangeIndex) 0 : Int) - slot.address
          .ok
            { submission
              request
              fileIndex
              localIndex := rangeIndex
              fileId := file.id
              rangeIndex := request.globalRangeIndex fileIndex rangeIndex
              view := slot.slice start (start + file.sizes.getD rangeIndex 0) }

/-- The body of the loop of {lit}`get_chunks`, up to the ranges that are ready. -/
def Stream.received (s : Stream) (submission fileIndex rangeIndex : Nat) (done : Bool) :
    Stream :=
  let s := { s with outstanding := s.outstanding - 1 }
  match s.live.lookup submission with
  | none => { s with control := .failed .unknownSubmission }
  | some request =>
      let s :=
        if done then { s with reportedDone := s.reportedDone ++ [submission] } else s
      match s.payload submission request fileIndex rangeIndex with
      | .error e => { s with control := .failed e }
      | .ok payload =>
          match s.order.arrived payload with
          | .error e => { s with control := .failed e }
          | .ok (ready, order) => { s with order, control := .handing ready }

/-- {lit}`release` of the ring. -/
def Stream.release (ring : Ring) (s : Stream) (submission : Nat) (event : Option Nat) :
    Except StreamError Stream :=
  match s.buffers.getD submission none with
  | none => .error .releasedTwice
  | some index =>
      if event = none ∧ ring.kind.reuseNeedsEvent then .error .needsEvent
      else
        match s.pool.release index event with
        | .error e => .error e
        | .ok pool =>
            .ok
              { s with
                pool
                buffers := s.buffers.set submission none
                guards := s.guards ++ event.toList.map fun event => (submission, event) }

/-- The last range of a submission was handed over. -/
def Stream.retire (ring : Ring) (s : Stream) (submission : Nat) (rest : List Payload) :
    Stream :=
  if submission ∉ s.reportedDone then { s with control := .failed .notReportedDone }
  else
    let event := if ring.kind.reuseNeedsEvent then some s.events else none
    let s :=
      { s with
        reportedDone := s.reportedDone.filter (· ≠ submission)
        rangesNotYielded := s.rangesNotYielded.remove submission
        live := s.live.remove submission
        events := s.events + event.toList.length }
    match s.release ring submission event with
    | .error e => { s with control := .failed e }
    | .ok s => { s with control := .submitting rest }

/-- The generator resumed past a yield. -/
def Stream.resumed (ring : Ring) (s : Stream) (payload : Payload) (rest : List Payload) :
    Stream :=
  let last := s.rangesNotYielded.lookup payload.submission = some 1
  let s :=
    { s with
      consumed := s.consumed ++ [payload]
      rangesNotYielded := s.rangesNotYielded.update payload.submission (· - 1) }
  if last then s.retire ring payload.submission rest
  else { s with control := .handing rest }

/-- Keys are compared by their parts. -/
local instance lawfulKeys : LawfulBEq (Nat × Nat) :=
  inferInstance

/-- One step of the stream and of what surrounds it. -/
def streamStep (ring : Ring) (s : Stream) (action : StreamAction) : Option Stream :=
  match action, s.control with
  | .step, .submitting rest => some (s.submitting rest)
  | .step, .synchronizing event rest =>
      if event ∈ s.completed then
        some { s with pool := s.pool.sweepPending s.completed, control := .building rest }
      else none
  | .step, .building rest => some (s.building ring rest)
  | .step, .handing (payload :: rest) => some { s with control := .yielded payload rest }
  | .step, .handing [] =>
      if s.live = [] then some { s with control := .ended }
      else some { s with control := .receiving }
  | .resume, .yielded payload rest => some (s.resumed ring payload rest)
  | .respond submission fileIndex rangeIndex, .receiving =>
      match s.library[submission]? with
      | some given =>
          if (fileIndex, rangeIndex) ∈ given.unanswered then
            let unanswered := given.unanswered.erase (fileIndex, rangeIndex)
            some ({ s with
                library := s.library.set submission { given with unanswered } }.received
              submission fileIndex rangeIndex (unanswered = []))
          else none
      | none => none
  | .completes event, _ =>
      if event < s.events ∧ event ∉ s.completed then
        some { s with completed := s.completed ++ [event] }
      else none
  | _, _ => none

/-- {lit}`stream_files`, at its first submission. -/
def Stream.start (ring : Ring) (ordered : Bool) (files : List FileChunks) :
    Except StreamError Stream :=
  match firstOrdinals 0 [] files with
  | .error e => .error e
  | .ok firstOrdinal =>
      .ok
        { iterator := .make ring.bufferSize files
          pool :=
            { owned := ring.kind.owned
              slots := (List.range ring.numBuffers).map fun i =>
                some ⟨ring.alloc i, ring.slotSize⟩
              free := List.range ring.numBuffers
              pending := [] }
          allocated := ring.numBuffers
          buffers := []
          live := []
          rangesNotYielded := []
          reportedDone := []
          outstanding := 0
          order := { ordered, firstOrdinal, next := 0, parked := [] }
          control := .submitting []
          library := []
          events := 0
          completed := []
          consumed := []
          slotOf := []
          guards := [] }

end FileStreamer
end ModelStreamer
