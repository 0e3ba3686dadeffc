import ModelStreamer.Common.Device
import ModelStreamer.Common.ResponseCode
import ModelStreamer.Lib.Run
import ModelStreamer.Streamer.Request

/-!
# The copy path to a device

A full staging buffer is copied to a device by {lit}`DeviceWriter::write`, which enqueues the
copy on the device's stream and records an event behind it.  The device's {lit}`StreamWaiter`
waits for the event and gives the buffer and the event back.  A worker that copies for itself
calls {lit}`DeviceWriterClient::write`; the synchronous reader and the object storage hand
their copies to {lit}`DeviceIssuer`, whose lane for the device calls it.

The driver is a parameter: every turn of a thread says what the driver would answer to each
call in it.  What is done for a copy is recorded under the number of the copy.  A turn is one
step: what it shares with other threads it touches under their locks, one at a time.  The
return of {lit}`write` to its worker is a step of its own, since the waiter may run before it.
-/

namespace ModelStreamer
namespace DeviceIo

open Common Lib Streamer

/-! ## The driver -/

/-- What the driver answers to the calls of one turn. -/
structure Driver where
  /-- A backend for the type of the device can be made. -/
  backend : Bool
  openDevice : ResponseCode
  bindThread : ResponseCode
  streamCreate : ResponseCode
  eventCreate : ResponseCode
  /-- The event that was created, possibly none. -/
  newEvent : Option Nat
  memcpyH2dAsync : ResponseCode
  eventRecord : ResponseCode
  streamSynchronize : ResponseCode
  eventSynchronize : ResponseCode
deriving DecidableEq, Repr

/-! ## Events -/

/-- {lit}`EventPool`: the free events, the last returned first, and how many there are. -/
structure EventPool where
  free : List Nat
  owned : Nat
  max : Nat
deriving DecidableEq, Repr

/-- {lit}`EventPool::acquire`; no event is not an error. -/
def EventPool.acquire (pool : EventPool) (d : Driver) :
    ResponseCode × Option Nat × EventPool :=
  match pool.free with
  | event :: free => (.success, some event, { pool with free })
  | [] =>
      if pool.owned ≥ pool.max then
        (.success, none, pool)
      else if d.eventCreate ≠ .success then
        (d.eventCreate, none, pool)
      else
        (.success, d.newEvent, { pool with owned := pool.owned + 1 })

/-- {lit}`EventPool::release`. -/
def EventPool.release (pool : EventPool) (event : Nat) : EventPool :=
  { pool with free := event :: pool.free }

/-! ## Copies -/

/-- {lit}`StagingBuffer`: its number in its pool and its size. -/
structure StagingBuffer where
  index : Nat
  bytesize : Nat
deriving DecidableEq, Repr

/-- One step of what is done for a copy. -/
inductive CopyEffect where
  /-- {lit}`EventPool::acquire` gave the event. -/
  | acquired (event : Nat)
  /-- {lit}`memcpy_h2d_async` put the copy on the stream. -/
  | enqueued (destination : Addr) (skip bytesize : Nat)
  /-- {lit}`event_record` put the event on the stream. -/
  | recorded (event : Nat)
  /-- {lit}`stream_synchronize` waited for the stream. -/
  | drained
  /-- {lit}`event_synchronize` waited for the event. -/
  | waited (event : Nat)
  /-- {lit}`StagingPool::release`. -/
  | released (pool : Nat) (buffer : StagingBuffer)
  /-- {lit}`StagingPool::retire`. -/
  | retired (pool : Nat) (buffer : StagingBuffer) (code : ResponseCode)
  /-- {lit}`EventPool::release`. -/
  | eventReleased (event : Nat)
  /-- {lit}`on_done`. -/
  | reported (code : ResponseCode)
  /-- {lit}`DeviceWriterClient::write` returned to the worker. -/
  | returned (code : ResponseCode)
deriving DecidableEq, Repr

/-- {lit}`StreamWaiter::Copy` with its event, in the queue of a waiter. -/
structure Entry where
  id : Nat
  pool : Nat
  buffer : StagingBuffer
  events : Nat
  event : Nat
deriving DecidableEq, Repr

/-- {lit}`DeviceWriter::Target` and its {lit}`StreamWaiter`. -/
structure Target where
  device : Device
  threadBound : Bool
  queue : List Entry
deriving DecidableEq, Repr

/-- What a {lit}`DeviceWriterClient` knows of a device: its channel and its event pool. -/
structure ClientDevice where
  device : Device
  channel : Nat
  events : Nat
deriving DecidableEq, Repr

/-- {lit}`DeviceWriterClient`. -/
structure Client where
  channels : List ClientDevice
  boundDevice : Option Device
  maxBuffers : Nat
deriving DecidableEq, Repr

/-- {lit}`DeviceIssuer::Request`: a copy in the queue of a lane. -/
structure CopyRequest where
  id : Nat
  pool : Nat
  buffer : StagingBuffer
  bytesize : Nat
  destination : Addr
deriving DecidableEq, Repr

/-- {lit}`DeviceIssuer::Lane`. -/
structure Lane where
  device : Device
  client : Client
  queue : List CopyRequest
deriving DecidableEq, Repr

/-- How a copy was handed over. -/
inductive CopyKind where
  /-- {lit}`DeviceIssuer::submit`. -/
  | submitted
  /-- {lit}`DeviceWriterClient::write`. -/
  | written
deriving DecidableEq, Repr

/-- A worker with its client, and the {lit}`write` that is about to return to it. -/
structure CopyWorker where
  client : Client
  inWrite : Option (Nat × ResponseCode)
deriving DecidableEq, Repr

/--
The writer with its targets, the issuer with its lanes, the workers that copy for themselves,
and what was done for each copy.  Pointers are positions; event pools are in the order they were made.
-/
structure CopyPath where
  opened : List DeviceType
  targets : List Target
  eventPools : List EventPool
  lanes : List Lane
  workers : List CopyWorker
  kinds : List CopyKind
  log : List (Nat × CopyEffect)
deriving DecidableEq, Repr

/-- {lit}`DeviceIssuer::MaxCopiesInFlight`. -/
def maxCopiesInFlight : Nat := 65536

/-- Nothing exists before the first copy but the clients of the workers. -/
def CopyPath.start (windows : List Nat) : CopyPath :=
  { opened := [], targets := [], eventPools := [], lanes := []
    workers := windows.map fun window => ⟨⟨[], none, window⟩, none⟩
    kinds := [], log := [] }

/-- Record what a turn did for a copy. -/
def CopyPath.record (s : CopyPath) (id : Nat) (effects : List CopyEffect) : CopyPath :=
  { s with log := s.log ++ effects.map fun effect => (id, effect) }

/-- Give an event back to its pool. -/
def CopyPath.releaseEvent (s : CopyPath) (events event : Nat) : CopyPath :=
  { s with eventPools := s.eventPools.modify events fun pool => pool.release event }

/-! ## Opening a device -/

/-- {lit}`DeviceWriter::Channels::open`: the channel of a device, made on its first use. -/
def CopyPath.openTarget (s : CopyPath) (d : Driver) (device : Device) :
    Except ResponseCode Nat × CopyPath :=
  match s.targets.findIdx? fun target => target.device.same device with
  | some channel => (.ok channel, s)
  | none =>
      if device.type ∉ s.opened ∧ d.backend = false then
        (.error .deviceUnavailable, s)
      else
        let s := { s with
          opened := if device.type ∈ s.opened then s.opened else device.type :: s.opened }
        if d.openDevice ≠ .success then
          (.error d.openDevice, s)
        else if d.bindThread ≠ .success then
          (.error d.bindThread, s)
        else if d.streamCreate ≠ .success then
          (.error d.streamCreate, s)
        else
          (.ok s.targets.length, { s with targets := s.targets ++ [⟨device, false, []⟩] })

/-- The entry of a client for a device. -/
def Client.find (client : Client) (device : Device) : Option ClientDevice :=
  client.channels.find? fun entry => entry.device.same device

/-- {lit}`DeviceWriterClient::channel_for`. -/
def CopyPath.channelFor (s : CopyPath) (d : Driver) (client : Client) (device : Device) :
    ResponseCode × Client × CopyPath :=
  match client.find device with
  | some _ => (.success, client, s)
  | none =>
      match s.openTarget d device with
      | (.error code, s) => (code, client, s)
      | (.ok channel, s) =>
          (.success,
            { client with
              channels := ⟨device, channel, s.eventPools.length⟩ :: client.channels },
            { s with eventPools := s.eventPools ++ [⟨[], 0, client.maxBuffers⟩] })

/-- {lit}`DeviceWriterClient::bind`: only on a change of the device. -/
def Client.bind (client : Client) (d : Driver) (device : Device) : ResponseCode × Client :=
  if client.boundDevice.any fun bound => bound.same device then
    (.success, client)
  else if d.bindThread ≠ .success then
    (d.bindThread, client)
  else
    (.success, { client with boundDevice := some device })

/-! ## Copying -/

/-- {lit}`DeviceWriter::write`: what it returns and did.  On success the waiter has the copy. -/
def CopyPath.writerWrite (s : CopyPath) (d : Driver) (channel : Nat) (copy : Entry)
    (skip bytesize : Nat) (destination : Addr) : ResponseCode × List CopyEffect × CopyPath :=
  let returned := s.releaseEvent copy.events copy.event
  match s.targets[channel]? with
  | none =>
      (.invalidParameterError,
        [.released copy.pool copy.buffer, .eventReleased copy.event], returned)
  | some target =>
      if skip > copy.buffer.bytesize ∨ bytesize > copy.buffer.bytesize - skip then
        (.invalidParameterError,
          [.released copy.pool copy.buffer, .eventReleased copy.event], returned)
      else if d.memcpyH2dAsync ≠ .success then
        (d.memcpyH2dAsync,
          [.released copy.pool copy.buffer, .eventReleased copy.event], returned)
      else if d.eventRecord = .success then
        (.success, [.enqueued destination skip bytesize, .recorded copy.event],
          { s with
            targets := s.targets.set channel { target with queue := target.queue ++ [copy] } })
      else if d.streamSynchronize ≠ .success then
        -- the copy may still be reading the buffer, and nothing can say when it stops
        (.deviceDriverError,
          [.enqueued destination skip bytesize, .retired copy.pool copy.buffer .deviceDriverError,
            .eventReleased copy.event], returned)
      else
        (d.eventRecord,
          [.enqueued destination skip bytesize, .drained, .released copy.pool copy.buffer,
            .eventReleased copy.event], returned)

/-- {lit}`DeviceWriterClient::write`. -/
def CopyPath.clientWrite (s : CopyPath) (d : Driver) (client : Client) (device : Device)
    (id pool : Nat) (buffer : StagingBuffer) (skip bytesize : Nat) (destination : Addr) :
    ResponseCode × List CopyEffect × Client × CopyPath :=
  match client.find device with
  | none => (.invalidParameterError, [.released pool buffer], client, s)
  | some entry =>
      match client.bind d device with
      | (.success, client) =>
          match s.eventPools[entry.events]? with
          | none => (.unknownError, [.released pool buffer], client, s)
          | some events =>
              match events.acquire d with
              | (.success, some event, events) =>
                  let s := { s with eventPools := s.eventPools.set entry.events events }
                  let copy : Entry := ⟨id, pool, buffer, entry.events, event⟩
                  let (code, effects, s) :=
                    s.writerWrite d entry.channel copy skip bytesize destination
                  (code, .acquired event :: effects, client, s)
              | (.success, none, events) =>
                  (.unknownError, [.released pool buffer], client,
                    { s with eventPools := s.eventPools.set entry.events events })
              | (code, _, _) => (code, [.released pool buffer], client, s)
      | (code, client) => (code, [.released pool buffer], client, s)

/-! ## The threads -/

/-- {lit}`DeviceIssuer::lane_for`: the lane of a device, made on its first copy. -/
def CopyPath.laneFor (s : CopyPath) (d : Driver) (device : Device) :
    Except ResponseCode Nat × CopyPath :=
  match s.lanes.findIdx? fun lane => lane.device.same device with
  | some i => (.ok i, s)
  | none =>
      match s.channelFor d ⟨[], none, maxCopiesInFlight⟩ device with
      | (.success, client, s) =>
          (.ok s.lanes.length, { s with lanes := s.lanes ++ [⟨device, client, []⟩] })
      | (code, _, s) => (.error code, s)

/-- {lit}`DeviceIssuer::submit`. -/
def CopyPath.submit (s : CopyPath) (d : Driver) (device : Device) (pool : Nat)
    (buffer : StagingBuffer) (bytesize : Nat) (destination : Addr) : CopyPath :=
  let id := s.kinds.length
  let s := { s with kinds := s.kinds ++ [CopyKind.submitted] }
  match s.laneFor d device with
  | (.error code, s) => s.record id [.released pool buffer, .reported code]
  | (.ok i, s) =>
      { s with
        lanes := s.lanes.modify i fun lane =>
          { lane with queue := lane.queue ++
            [(⟨id, pool, buffer, bytesize, destination⟩ : CopyRequest)] } }

/-- A turn of a lane's thread: {lit}`DeviceIssuer::issue` on the next copy of its queue. -/
def CopyPath.issue (s : CopyPath) (d : Driver) (i : Nat) : Option CopyPath :=
  match s.lanes[i]? with
  | some lane =>
      match lane.queue with
      | request :: queue =>
          let (code, effects, client, s) :=
            s.clientWrite d lane.client lane.device request.id request.pool request.buffer 0
              request.bytesize request.destination
          let s := { s with lanes := s.lanes.set i { lane with client, queue } }
          if code ≠ .success then
            some (s.record request.id (effects ++ [.reported code]))
          else
            some (s.record request.id effects)
      | [] => none
  | none => none

/-- A worker copies through its client, up to the return of {lit}`write`. -/
def CopyPath.write (s : CopyPath) (d : Driver) (k : Nat) (device : Device) (pool : Nat)
    (buffer : StagingBuffer) (skip bytesize : Nat) (destination : Addr) : Option CopyPath :=
  match s.workers[k]? with
  | some ⟨client, none⟩ =>
      let id := s.kinds.length
      let s := { s with kinds := s.kinds ++ [CopyKind.written] }
      let (code, effects, client, s) :=
        s.clientWrite d client device id pool buffer skip bytesize destination
      some ({ s with workers := s.workers.set k ⟨client, some (id, code)⟩ }.record id effects)
  | _ => none

end DeviceIo
end ModelStreamer
