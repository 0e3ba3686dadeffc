import ModelStreamer.Streamer.Request

/-!
# Direct reads

The strategies of the filesystem readers and the rule of direct reads.  A direct read starts on a
block of the mount, in the file and in memory, so the file offset and the address must be congruent
modulo the block.
-/

namespace ModelStreamer
namespace PosixIo

open Streamer

/-- {lit}`Strategy`. -/
inductive Strategy where
  | ioUringDirect
  | ioUringBuffered
  | libaioDirect
  | syncBuffered
deriving DecidableEq, Repr

/-- {lit}`is_async`: served by an engine. -/
def Strategy.isAsync (strategy : Strategy) : Bool :=
  strategy ≠ .syncBuffered

/-- {lit}`is_direct`: opened with {lit}`O_DIRECT`. -/
def Strategy.isDirect (strategy : Strategy) : Bool :=
  strategy = .ioUringDirect || strategy = .libaioDirect

/-- {lit}`usable`: a block of zero means that there is no rule to follow. -/
def usable (block : Nat) : Nat :=
  if block = 0 then 1 else block

/-- {lit}`is_congruent`. -/
def isCongruent (fileOffset : Nat) (buffer : Addr) (block : Nat) : Bool :=
  buffer.toNat % usable block = fileOffset % usable block

end PosixIo
end ModelStreamer
