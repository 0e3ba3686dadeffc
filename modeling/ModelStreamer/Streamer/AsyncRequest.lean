import ModelStreamer.Streamer.Accounting

/-!
# The call that submits a request

{lit}`Streamer::async_request` up to the point where the workloads go to the pools.  The call
checks the request, mints an id, divides the request and builds its batches; only then is the
submission registered and the responder told how many responses to expect.  What ends the
call before that leaves the registered submissions, the responder and the pools as they were.

A code that the call returns is kept like one that it throws.  The handing over of the
workloads is the system of {lit}`Completion`, which starts from what is committed here.
-/

namespace ModelStreamer
namespace Streamer

open Common Lib

/-! ## State -/

/-- A submission that was built completely. -/
structure Committed where
  id : Nat
  heap : List Request
  workloads : List Workload
  groupByWorkload : List Int
deriving DecidableEq, Repr

/-- What a call of {lit}`async_request` can see and change. -/
structure StreamerState where
  /-- The plugin that the object storage pool was made for. -/
  plugin : Option Plugin
  accounting : Accounting
  /-- The submissions whose workloads went to the pools, the oldest first. -/
  committed : List Committed
deriving DecidableEq

/-- A streamer that was just made. -/
def StreamerState.start : StreamerState :=
  { plugin := none, accounting := .start, committed := [] }

/-- What {lit}`FsAsyncRouter` answers: whether the strategy can be served, and the groups. -/
structure Router where
  resolve : ResponseCode
  groups : List FileRanges → Device → List Int32

/-! ## The call -/

/-- {lit}`Streamer::verify_requests`: bytes need a destination. -/
def verifyRequests (request : List FileRanges) : Except Failure Unit :=
  if ∀ file ∈ request, ∀ range ∈ file.ranges, ¬ (range.size > 0 ∧ range.dst = 0) then
    .ok ()
  else
    .error (.exception .invalidParameterError)

/-- {lit}`BackendPools::lock_object_plugin`, when the submission has a plugin. -/
def StreamerState.lockPlugin (s : StreamerState) : Option Plugin → Except Failure StreamerState
  | none => .ok s
  | some plugin =>
      match s.plugin with
      | none => .ok { s with plugin := some plugin }
      | some locked =>
          if locked = plugin then .ok s else .error (.exception .unsupportedBackendMix)

/-- {lit}`Streamer::is_object_storage_submission`. -/
def isObjectStorageSubmission : List FileRanges → Bool
  | [] => false
  | file :: files =>
      if file.ranges = [] then isObjectStorageSubmission files
      else (StorageUri.parse file.path).isSome

/-- The groups of the files; object storage has no mounts. -/
def Router.groupsFor (router : Router) (request : List FileRanges) (device : Device) :
    List Int32 :=
  if isObjectStorageSubmission request then [] else router.groups request device

/-- The checks that come before the plugin is locked, and the lock. -/
def lockFor (request : List FileRanges) (s : StreamerState) : Except Failure StreamerState := do
  verifyRequests request
  let plugin ← (lockObjectPlugin request).mapError .exception
  s.lockPlugin plugin

/-- The checks between the lock and the id. -/
def admission (router : Router) (request : List FileRanges) : Except Failure Unit :=
  if 2 ^ 32 ≤ totalRanges request then
    .error (.exception .invalidParameterError)
  else if isObjectStorageSubmission request = false ∧ totalRanges request ≠ 0 ∧
      router.resolve ≠ .success then
    .error (.exception router.resolve)
  else
    .ok ()

/-- The division of the request and the batches of its workloads. -/
def build (config : Config) (router : Router) (device : Device) (request : List FileRanges)
    (id : Nat) : Except Failure Committed := do
  let assigner ← makeAssigner request config (router.groupsFor request device)
  let (heap, workloads) ← buildWorkloads config id device request assigner.transfers []
    (List.replicate assigner.numWorkloads .empty)
  return { id, heap, workloads, groupByWorkload := assigner.groupByWorkload }

/-- The commit: the submission is registered and its responses are expected. -/
def StreamerState.commit (s : StreamerState) (request : List FileRanges) (built : Committed) :
    Except Failure StreamerState := do
  let registry ← s.accounting.registry.add built.id (totalRanges request)
  return {
    s with
    accounting :=
      { s.accounting with
        registry
        responder := s.accounting.responder.increment (totalRanges request)
        accepted := s.accounting.accepted ++ [⟨built.id, request⟩] }
    committed := s.committed ++ [built] }

/-- The state with the registry after an id was minted. -/
def StreamerState.setRegistry (s : StreamerState) (registry : SubmissionsMgr) :
    StreamerState :=
  { s with accounting := { s.accounting with registry } }

/-- The call from the id on.  Nothing when the search for an id never ends. -/
def StreamerState.submit (s : StreamerState) (config : Config) (router : Router)
    (device : Device) (request : List FileRanges) :
    Option (Except Failure Unit × StreamerState) :=
  match s.accounting.registry.generate with
  | none => none
  | some (id, registry) =>
      let s := s.setRegistry registry
      if totalRanges request = 0 then some (.ok (), s)
      else
        match build config router device request id with
        | .error failure => some (.error failure, s)
        | .ok built =>
            match s.commit request built with
            | .error failure => some (.error failure, s)
            | .ok s => some (.ok (), s)

/-- {lit}`Streamer::async_request`: how the call ends and the state it leaves. -/
def asyncRequest (config : Config) (router : Router) (device : Device)
    (request : List FileRanges) (s : StreamerState) :
    Option (Except Failure Unit × StreamerState) :=
  match lockFor request s with
  | .error failure => some (.error failure, s)
  | .ok s =>
      match admission router request with
      | .error failure => some (.error failure, s)
      | .ok () => s.submit config router device request

end Streamer
end ModelStreamer
