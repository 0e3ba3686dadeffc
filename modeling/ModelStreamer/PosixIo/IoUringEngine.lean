import ModelStreamer.Lib.Table
import ModelStreamer.PosixIo.IoEngine
import ModelStreamer.PosixIo.LibaioEngine

/-!
# The io_uring engine

{lit}`IoUringEngine` prepares reads in the submission queue of a ring and hands them to the
kernel with one call; completions arrive in a second queue.  Memory that a caller offers is
registered with the kernel on first sight, and a read that lands in it names the region.

The kernel is a parameter: it takes a prefix of what is prepared or fails with any errno, ends
the reads that it holds in any order and at any time, and may refuse to register anything.  A
read that names a region fails unless the kernel holds a region under that number and the read
lands inside it.
-/

namespace ModelStreamer
namespace PosixIo

open Common Lib

/-- {lit}`ETIME`. -/
def eTIME : Int := 62

/-! ## Registered memory -/

/-- {lit}`Registration`; a base of zero is the null pointer. -/
structure Registration where
  base : BitVec 64 := 0
  bytesize : Nat := 0
  id : Nat := 0
deriving DecidableEq, Repr

/-- {lit}`Registration::valid`. -/
def Registration.valid (registration : Registration) : Bool :=
  decide (registration.base ≠ 0)

/-- {lit}`offers_this_buffer`: the read lands inside the region that it was offered with. -/
def offersThisBuffer (registration : Registration) (buffer : BitVec 64) (bytesize : Nat) : Bool :=
  if !registration.valid then false
  else
    decide (registration.base ≤ buffer ∧
      buffer + BitVec.ofNat 64 bytesize ≤
        registration.base + BitVec.ofNat 64 registration.bytesize)

/-- {lit}`MaxRegisteredRegions`. -/
def maxRegisteredRegions : Nat := 1024

/-- {lit}`RegionState`: what the kernel has been told about a region. -/
inductive RegionState where
  | unknown
  | registered
  | refused
deriving DecidableEq, Repr

/-- What the calls that register return. -/
structure RegisterAnswer where
  /-- {lit}`io_uring_register_buffers_sparse`. -/
  sparse : Int
  /-- {lit}`io_uring_register_buffers_update_tag`. -/
  update : Int
deriving DecidableEq, Repr

/-! ## The ring -/

/-- {lit}`struct io_uring_sqe` as the engine prepares it.  A fixed read has a buffer index. -/
structure Sqe where
  fd : Int
  buffer : BitVec 64
  len : Nat
  offset : Nat
  bufIndex : Option Nat
  userData : Nat
  /-- {lit}`IOSQE_ASYNC`. -/
  async : Bool
deriving DecidableEq, Repr

/-- The kernel's side of a ring. -/
structure RingKernel where
  /-- The reads that it has taken. -/
  reads : List Sqe := []
  /-- The completion queue. -/
  completions : List Completion := []
  cqEntries : Nat
  /-- {lit}`cq.koverflow`: the completions that were dropped. -/
  overflow : Nat := 0
  /-- The table of registered regions, newest first. -/
  buffers : Table (BitVec 64 × Nat) := []
  /-- History: the sparse tables that it was asked for. -/
  tablesAsked : Nat := 0
  /-- History: the regions that it was asked to register. -/
  regionsAsked : List Nat := []
deriving DecidableEq, Repr

/-- {lit}`IoUringEngine`, with the part of the submission queue that the kernel has not seen. -/
structure IoUringEngine where
  /-- {lit}`_ring.sq.ring_entries`. -/
  depth : Nat
  fixedBuffers : Bool
  regions : List RegionState := []
  overTableReads : Nat := 0
  table : Bool := false
  staged : Nat := 0
  overflowReported : Nat := 0
  prepared : List Sqe := []
deriving DecidableEq, Repr

/-- A read lands inside a region. -/
def Sqe.Lands (sqe : Sqe) (region : BitVec 64 × Nat) : Prop :=
  region.1.toNat ≤ sqe.buffer.toNat ∧
    sqe.buffer.toNat + sqe.len ≤ region.1.toNat + region.2

instance (sqe : Sqe) (region : BitVec 64 × Nat) : Decidable (sqe.Lands region) :=
  inferInstanceAs (Decidable (_ ∧ _))

/-- What the kernel answers to a read that ends with {lit}`res`, once it found the region that
the read names. -/
def RingKernel.result (k : RingKernel) (read : Sqe) (res : Int) : Int :=
  match read.bufIndex with
  | none => res
  | some index =>
      match k.buffers.lookup index with
      | none => -eFAULT
      | some region => if read.Lands region then res else -eFAULT

/-- A read ends.  Its completion is dropped when the queue has no room for it. -/
def RingKernel.lands (k : RingKernel) (index : Nat) (res : Int) : RingKernel :=
  match k.reads[index]? with
  | none => k
  | some read =>
      let result := k.result read res
      let k := { k with reads := k.reads.eraseIdx index }
      if k.completions.length < k.cqEntries then
        { k with completions := k.completions ++ [⟨read.userData, result⟩] }
      else
        { k with overflow := k.overflow + 1 }

namespace IoUringEngine

/-- The engine on a ring of this many entries, for a mount that wants registered buffers or not,
on a host that has them or not. -/
def make (ringEntries : Nat) (registerBuffers fixedBuffers : Bool) : IoUringEngine :=
  { depth := ringEntries, fixedBuffers := registerBuffers && fixedBuffers }

/-! ## Registering -/

/-- {lit}`_regions.resize`, when the vector is too short for the region. -/
def grow (e : IoUringEngine) (id : Nat) : IoUringEngine :=
  { e with regions := e.regions ++ List.replicate (id + 1 - e.regions.length) .unknown }

/-- The state of a region is remembered. -/
def setRegion (e : IoUringEngine) (id : Nat) (state : RegionState) : IoUringEngine :=
  { e with regions := e.regions.set id state }

/-- {lit}`registered_index` from the point where the region is not known yet. -/
def register (e : IoUringEngine) (k : RingKernel) (registration : Registration)
    (answer : RegisterAnswer) : Option Nat × IoUringEngine × RingKernel :=
  let k := if e.table then k else { k with tablesAsked := k.tablesAsked + 1 }
  if !e.table && decide (answer.sparse < 0) then
    (none, { e with fixedBuffers := false }, k)
  else
    let e := { e with table := true }
    let k := { k with regionsAsked := k.regionsAsked ++ [registration.id] }
    if answer.update < 0 then
      -- Refused once, and not asked again.
      (none, e.setRegion registration.id .refused, k)
    else
      (some registration.id, e.setRegion registration.id .registered,
        { k with
          buffers := (registration.id, registration.base, registration.bytesize) :: k.buffers })

/-- {lit}`registered_index`; no index stands for {lit}`-1`. -/
def registeredIndex (e : IoUringEngine) (k : RingKernel) (registration : Registration)
    (answer : RegisterAnswer) : Option Nat × IoUringEngine × RingKernel :=
  if !registration.valid || !e.fixedBuffers then (none, e, k)
  else if maxRegisteredRegions ≤ registration.id then
    (none, { e with overTableReads := wordAdd 64 e.overTableReads 1 }, k)
  else
    let e := e.grow registration.id
    match e.regions[registration.id]? with
    | some .registered => (some registration.id, e, k)
    | some .refused => (none, e, k)
    | _ => e.register k registration answer

/-! ## Staging -/

/-- What {lit}`stage` prepares. -/
def sqeFor (id : Nat) (file : FileRef) (offset bytesize : Nat) (buffer : BitVec 64)
    (index : Option Nat) : Sqe :=
  { fd := file.fd, buffer, len := prepReadLength bytesize, offset, bufIndex := index
    userData := id, async := !file.direct }

/-- {lit}`IoUringEngine::stage`. -/
def stage (e : IoUringEngine) (k : RingKernel) (id : Nat) (file : FileRef) (offset bytesize : Nat)
    (buffer : BitVec 64) (registration : Registration) (answer : RegisterAnswer) :
    ResponseCode × IoUringEngine × RingKernel :=
  let (index, e, k) :=
    if offersThisBuffer registration buffer bytesize then
      e.registeredIndex k registration answer
    else (none, e, k)
  -- {lit}`io_uring_get_sqe` returns no entry when the queue is full.
  if e.depth ≤ e.prepared.length then (.unknownError, e, k)
  else
    (.success,
      { e with
        prepared := e.prepared ++ [sqeFor id file offset bytesize buffer index]
        staged := wordAdd 32 e.staged 1 }, k)

/-! ## Flushing -/

/-- What {lit}`IoUringEngine::flush` returns. -/
structure Submitted where
  code : ResponseCode
  outIssued : Nat := 0
  outDeferred : Bool := false
  engine : IoUringEngine
  kernel : RingKernel

/-- {lit}`IoUringEngine::flush`.  The kernel takes as many reads as it says, or all; it may say
more than there are. -/
def flush (e : IoUringEngine) (k : RingKernel) (ret : Int) : Submitted :=
  if e.staged = 0 then { code := .success, engine := e, kernel := k }
  else if ret < 0 then
    if submitCanDefer (-ret) then
      { code := .success, outDeferred := true, engine := e, kernel := k }
    else { code := .fsAsyncEngineError, engine := e, kernel := k }
  else
    let outIssued := ret.toNat
    let k := { k with reads := k.reads ++ e.prepared.take outIssued }
    let e := { e with prepared := e.prepared.drop outIssued }
    if e.staged < outIssued then
      { code := .fsAsyncEngineError, outIssued := e.staged, engine := { e with staged := 0 }
        kernel := k }
    else
      let e := { e with staged := e.staged - outIssued }
      { code := .success, outIssued, outDeferred := decide (e.staged ≠ 0), engine := e
        kernel := k }

/-! ## Waiting -/

/-- What {lit}`IoUringEngine::wait_for_completions` returns. -/
structure Waited where
  code : ResponseCode
  completions : List Completion := []
  engine : IoUringEngine
  kernel : RingKernel

/-- The timeout of a wait, in seconds and nanoseconds; none means to wait forever. -/
def waitTimeout (timeoutMs : Nat) : Option (Nat × Nat) :=
  if timeoutMs = 0 then none else some (timeoutMs / 1000, timeoutMs % 1000 * 1000000)

/-- An expired wait and an interrupted one are not errors. -/
def waitFailed (ret : Int) : Bool :=
  decide (ret < 0 ∧ -ret ≠ eTIME ∧ -ret ≠ eINTR ∧ -ret ≠ eAGAIN)

/-- {lit}`IoUringEngine::wait_for_completions`, with what {lit}`io_uring_wait_cqe` returns for a
timeout. -/
def waitForCompletions (e : IoUringEngine) (k : RingKernel) (max : Nat) (block : Bool)
    (timeoutMs : Nat) (answer : Option (Nat × Nat) → Int) : Waited :=
  if block && waitFailed (answer (waitTimeout timeoutMs)) then
    { code := .fsAsyncEngineError, engine := e, kernel := k }
  else
    { code := .success, completions := k.completions.take max
      engine :=
        if e.overflowReported < k.overflow then { e with overflowReported := k.overflow } else e
      kernel := { k with completions := k.completions.drop max } }

end IoUringEngine

/-! ## Runs -/

/-- A call of the engine's owner with what the kernel answers, or a read that ends. -/
inductive IoUringCall where
  | stage (id : Nat) (file : FileRef) (offset bytesize : Nat) (buffer : BitVec 64)
      (registration : Registration) (answer : RegisterAnswer)
  | flush (ret : Int)
  | lands (index : Nat) (res : Int)
  | wait (max : Nat) (block : Bool) (timeoutMs : Nat) (answer : Option (Nat × Nat) → Int)

/-- What a call returns to the owner. -/
structure Reply where
  code : ResponseCode
  outIssued : Nat := 0
  outDeferred : Bool := false
  completions : List Completion := []
deriving DecidableEq, Repr

/-- An engine and its ring, with what the owner was told. -/
structure IoUringRun where
  engine : IoUringEngine
  kernel : RingKernel
  replies : List Reply := []
deriving DecidableEq, Repr

/-- A new engine.  The completion queue has twice the room of the submission queue. -/
def IoUringRun.start (ringEntries : UInt32) (registerBuffers fixedBuffers : Bool) : IoUringRun :=
  { engine := .make ringEntries.toNat registerBuffers fixedBuffers
    kernel := { cqEntries := 2 * ringEntries.toNat } }

/-- One call, or one read that ends.  All of them return. -/
def ioUringNext (s : IoUringRun) : IoUringCall → IoUringRun
  | .stage id file offset bytesize buffer registration answer =>
      let (code, engine, kernel) :=
        s.engine.stage s.kernel id file offset bytesize buffer registration answer
      { engine, kernel, replies := s.replies ++ [{ code }] }
  | .flush ret =>
      let r := s.engine.flush s.kernel ret
      { engine := r.engine, kernel := r.kernel
        replies :=
          s.replies ++ [{ code := r.code, outIssued := r.outIssued, outDeferred := r.outDeferred }] }
  | .lands index res => { s with kernel := s.kernel.lands index res }
  | .wait max block timeoutMs answer =>
      let r := s.engine.waitForCompletions s.kernel max block timeoutMs answer
      { engine := r.engine, kernel := r.kernel
        replies := s.replies ++ [{ code := r.code, completions := r.completions }] }

/-- The steps of an engine and its ring. -/
def ioUringStep (s : IoUringRun) (call : IoUringCall) : Option IoUringRun :=
  some (ioUringNext s call)

end PosixIo
end ModelStreamer
