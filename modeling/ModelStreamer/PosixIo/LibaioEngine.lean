import ModelStreamer.Lib.Run
import ModelStreamer.Lib.Word
import ModelStreamer.PosixIo.CompletionMapper

/-!
# The libaio engine

{lit}`LibaioEngine` keeps one {lit}`iocb` for every read that can be outstanding.  An iocb is
free, staged, or with the kernel, which keeps its address until the read completes.  A read
that {lit}`io_submit` refuses is answered by the engine itself.

The kernel is a parameter: it may accept a prefix of what it is offered, nothing, or fail with
any errno, and it returns the reads it holds in any order.
-/

namespace ModelStreamer
namespace PosixIo

open Common Lib

/-! ## Reads and completions -/

/-- {lit}`struct iocb` as {lit}`io_prep_pread` fills it, with the id in {lit}`data`. -/
structure Iocb where
  fd : Int
  buffer : BitVec 64
  bytesize : Nat
  offset : Nat
  data : Nat
deriving DecidableEq, Repr

/-- {lit}`Completion`: the id of a read and what the kernel reported for it. -/
structure Completion where
  id : Nat
  res : Int
deriving DecidableEq, Repr

/-- {lit}`SubmitBatch`: the reads that one {lit}`io_submit` offers. -/
def submitBatch : Nat := 1

/--
{lit}`LibaioEngine`.  Pointers to iocbs are positions in the table; the end of the
{lit}`_free` vector is the head of the list.
-/
structure LibaioEngine where
  iocbs : List Iocb
  free : List Nat
  pending : List Nat
  submitFailures : List Completion
  depth : Nat
deriving DecidableEq, Repr

/-- The iocb a pointer points to holds this id. -/
def LibaioEngine.dataAt (e : LibaioEngine) (slot : Nat) : Nat :=
  ((e.iocbs[slot]?).map Iocb.data).getD 0

/-- The engine after its constructor was granted a context of this depth. -/
def LibaioEngine.make (depth : UInt32) : LibaioEngine :=
  { iocbs := List.replicate depth.toNat ⟨0, 0, 0, 0, 0⟩
    free := (List.range depth.toNat).reverse
    pending := []
    submitFailures := []
    depth := depth.toNat }

/-! ## The kernel -/

/-- A read with the kernel: the address of its iocb and the id the kernel copied from it. -/
structure KernelRead where
  slot : Nat
  data : Nat
deriving DecidableEq, Repr

/-- {lit}`io_context_t`: the reads in the kernel, and all ids it accepted so far in order. -/
structure IoContext where
  reads : List KernelRead
  accepted : List Nat
deriving DecidableEq, Repr

/-- What {lit}`io_submit` does with the iocbs it is offered. -/
inductive SubmitAnswer where
  /-- It takes that many of them, or all. -/
  | accepts (n : Nat)
  | fails (errno : Nat)
deriving DecidableEq, Repr

/-- {lit}`io_submit`, which takes a prefix of the reads or returns {lit}`-errno`. -/
def ioSubmit (ctx : IoContext) (offered : List KernelRead) : SubmitAnswer → Int × IoContext
  | .accepts n =>
      ((offered.take n).length,
        { reads := ctx.reads ++ offered.take n
          accepted := ctx.accepted ++ (offered.take n).map KernelRead.data })
  | .fails errno => (-errno, ctx)

/-- {lit}`struct io_event`. -/
structure IoEvent where
  obj : Nat
  data : Nat
  res : Int
deriving DecidableEq, Repr

/-- The arguments of {lit}`io_getevents`; no timeout means to wait forever. -/
structure GeteventsArgs where
  minNr : Nat
  nr : Nat
  timeout : Option (Nat × Nat)
deriving DecidableEq, Repr

/-- What {lit}`io_getevents` does: the reads it returns, with their results, or an errno. -/
inductive GeteventsAnswer where
  | returns (picks : List (Nat × Int))
  | fails (errno : Nat)
deriving DecidableEq, Repr

/-- Take the picked reads out of the kernel; each read is returned once. -/
def collectEvents : List (Nat × Int) → List KernelRead → List IoEvent × List KernelRead
  | [], reads => ([], reads)
  | (slot, res) :: picks, reads =>
      match reads.find? fun read => read.slot = slot with
      | some read =>
          let (events, rest) := collectEvents picks (reads.erase read)
          (⟨read.slot, read.data, res⟩ :: events, rest)
      | none => collectEvents picks reads

/-- {lit}`io_getevents`, which returns at most {lit}`nr` events. -/
def ioGetevents (ctx : IoContext) (args : GeteventsArgs) :
    GeteventsAnswer → Int × List IoEvent × IoContext
  | .returns picks =>
      let (events, reads) := collectEvents (picks.take args.nr) ctx.reads
      (events.length, events, { ctx with reads })
  | .fails errno => (-errno, [], ctx)

/-! ## Staging -/

/-- {lit}`LibaioEngine::stage`. -/
def LibaioEngine.stage (e : LibaioEngine) (id : Nat) (file : FileRef) (offset bytesize : Nat)
    (buffer : BitVec 64) : ResponseCode × LibaioEngine :=
  match e.free with
  | [] => (.unknownError, e)
  | slot :: free =>
      (.success,
        { e with
          iocbs := e.iocbs.set slot ⟨file.fd, buffer, bytesize, offset, id⟩
          free
          pending := e.pending ++ [slot] })

/-! ## Flushing -/

/-- What {lit}`LibaioEngine::flush` returns, with the engine and the context after it. -/
structure FlushResult where
  code : ResponseCode
  outIssued : Nat
  outDeferred : Bool
  engine : LibaioEngine
  ctx : IoContext
deriving DecidableEq, Repr

/-- A refused head is taken out and answered as a completion; it counts as issued. -/
def LibaioEngine.refuse (e : LibaioEngine) (head : Nat) (rest : List Nat) (error : Int) :
    LibaioEngine :=
  { e with
    submitFailures := e.submitFailures ++ [⟨e.dataAt head, -error⟩]
    pending := rest
    free := head :: e.free }

/-- The reads of the head of the queue, as {lit}`io_submit` sees them. -/
def LibaioEngine.offered (e : LibaioEngine) : List KernelRead :=
  (e.pending.take (min e.pending.length submitBatch)).map fun slot => ⟨slot, e.dataAt slot⟩

/--
The loop of {lit}`LibaioEngine::flush`, from call number {lit}`k` of {lit}`io_submit` on; the
first argument bounds its turns.  Nothing is returned when that bound runs out or an assertion
fails.
-/
def flushLoop (answers : Nat → SubmitAnswer) :
    Nat → Nat → Nat → LibaioEngine → IoContext → Option FlushResult
  | 0, _, _, _, _ => none
  | fuel + 1, k, outIssued, e, ctx =>
      match e.pending with
      | [] => some ⟨.success, outIssued, false, e, ctx⟩
      | head :: rest =>
          let (ret, ctx) := ioSubmit ctx e.offered (answers k)
          if ret < 0 then
            let error := -ret
            if submitCanDefer error then
              some ⟨.success, outIssued, true, e, ctx⟩
            else
              some ⟨.success, wordAdd 32 outIssued 1, false, e.refuse head rest error, ctx⟩
          else
            let issued := ret.toNat
            if issued ≤ e.offered.length then
              let outIssued := wordAdd 32 outIssued issued
              let e := { e with pending := e.pending.drop issued }
              if issued = 0 then
                some ⟨.success, outIssued, true, e, ctx⟩
              else
                flushLoop answers fuel (k + 1) outIssued e ctx
            else
              none

/-- {lit}`LibaioEngine::flush`: every turn takes a read off the queue or is the last. -/
def LibaioEngine.flush (e : LibaioEngine) (answers : Nat → SubmitAnswer) (ctx : IoContext) :
    Option FlushResult :=
  flushLoop answers (e.pending.length + 1) 0 0 e ctx

/-! ## Waiting -/

/-- What {lit}`LibaioEngine::wait_for_completions` returns. -/
structure WaitResult where
  code : ResponseCode
  completions : List Completion
  engine : LibaioEngine
  ctx : IoContext
deriving DecidableEq, Repr

/-- The arguments of the wait: how many events are waited for, how many taken, how long. -/
def waitArgs (depth max : Nat) (block : Bool) (timeoutMs : Nat) : GeteventsArgs :=
  { minNr := if block then 1 else 0
    nr := min max depth
    timeout :=
      if block then
        if timeoutMs ≠ 0 then some (timeoutMs / 1000, timeoutMs % 1000 * 1000000) else none
      else
        some (0, 0) }

/--
{lit}`LibaioEngine::wait_for_completions`.  Refused reads are handed out before the kernel is
asked; nothing is returned when the assertion on the iocbs fails.
-/
def LibaioEngine.waitForCompletions (e : LibaioEngine) (max : Nat) (block : Bool)
    (timeoutMs : Nat) (answer : GeteventsArgs → GeteventsAnswer) (ctx : IoContext) :
    Option WaitResult :=
  if max = 0 then
    some ⟨.success, [], e, ctx⟩
  else if e.submitFailures ≠ [] then
    let taken := min max e.submitFailures.length
    some ⟨.success, e.submitFailures.take taken,
      { e with submitFailures := e.submitFailures.drop taken }, ctx⟩
  else
    let args := waitArgs e.depth max block timeoutMs
    let (ret, events, ctx) := ioGetevents ctx args (answer args)
    if ret < 0 then
      if -ret ≠ eINTR then
        some ⟨.fsAsyncEngineError, [], e, ctx⟩
      else
        some ⟨.success, [], e, ctx⟩
    else if ∀ event ∈ events, event.obj < e.iocbs.length then
      some ⟨.success, events.map fun event => ⟨event.data, event.res⟩,
        { e with free := (events.map IoEvent.obj).reverse ++ e.free }, ctx⟩
    else
      none

/-! ## Runs -/

/-- A call of the engine's owner, with what the kernel answers during it. -/
inductive LibaioCall where
  | stage (id : Nat) (file : FileRef) (offset bytesize : Nat) (buffer : BitVec 64)
  | flush (answers : Nat → SubmitAnswer)
  | wait (max : Nat) (block : Bool) (timeoutMs : Nat)
      (answer : GeteventsArgs → GeteventsAnswer)

/--
An engine, its context, and what its owner saw: the ids it staged, the sum of the issued
counts, and the completions it was given.
-/
structure LibaioRun where
  engine : LibaioEngine
  ctx : IoContext
  staged : List Nat
  issuedSum : Nat
  delivered : List Completion
deriving DecidableEq, Repr

/-- A new engine with an empty context. -/
def LibaioRun.start (depth : UInt32) : LibaioRun :=
  { engine := .make depth, ctx := ⟨[], []⟩, staged := [], issuedSum := 0, delivered := [] }

/-- One call.  It has no next state when it does not return. -/
def libaioStep (s : LibaioRun) : LibaioCall → Option LibaioRun
  | .stage id file offset bytesize buffer =>
      match s.engine.stage id file offset bytesize buffer with
      | (.success, engine) => some { s with engine, staged := s.staged ++ [id] }
      | (_, engine) => some { s with engine }
  | .flush answers =>
      (s.engine.flush answers s.ctx).map fun r =>
        { s with engine := r.engine, ctx := r.ctx, issuedSum := s.issuedSum + r.outIssued }
  | .wait max block timeoutMs answer =>
      (s.engine.waitForCompletions max block timeoutMs answer s.ctx).map fun r =>
        { s with
          engine := r.engine
          ctx := r.ctx
          delivered := s.delivered ++ r.completions }

end PosixIo
end ModelStreamer
