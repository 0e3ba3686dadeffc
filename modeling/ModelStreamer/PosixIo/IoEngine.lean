import ModelStreamer.Lib.Word
import Mathlib.Data.Nat.Bitwise

/-!
# Reads of the engines

What an engine imposes on a single read: the kernel's ceiling, and the width of the length
field of a submission entry.
-/

namespace ModelStreamer
namespace PosixIo

open Lib

/-- {lit}`INT_MAX`. -/
def intMax : Nat := 2 ^ 31 - 1

/-- {lit}`max_read_bytesize`: {lit}`INT_MAX` with the bits below a page cleared. -/
def maxReadBytesize (pageSize : Nat) : Nat :=
  (BitVec.ofNat 64 intMax &&& ~~~BitVec.ofNat 64 (wordSub 64 pageSize 1)).toNat

/-- The ceiling fits in an {lit}`int`, whatever the page size is. -/
theorem maxReadBytesize_le (pageSize : Nat) : maxReadBytesize pageSize ≤ intMax := by
  unfold maxReadBytesize
  rw [BitVec.toNat_and]
  refine le_trans Nat.and_le_left ?_
  decide

/-- The length that {lit}`io_uring_prep_read` puts into the entry, an {lit}`unsigned`. -/
def prepReadLength (bytesize : Nat) : Nat :=
  toWord 32 bytesize

/-- What the kernel reads for an entry when the file is long enough. -/
def servedBytes (maxRead bytesize : Nat) : Nat :=
  min (prepReadLength bytesize) maxRead

end PosixIo
end ModelStreamer
