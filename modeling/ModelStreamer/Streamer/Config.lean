import Mathlib.Algebra.Order.Ring.Nat
import ModelStreamer.Common.ResponseCode

/-!
# Streamer configuration

The constructor of {lit}`Config` asserts that every count and size is positive and caps the
two worker counts, so a configuration that exists satisfies these bounds.  They are fields
here, and {lit}`Config.make` is the constructor that establishes them.
-/

namespace ModelStreamer
namespace Streamer

open Common

/-- {lit}`Config::max_concurrency`. -/
def maxConcurrency : Nat := 1024

/-- {lit}`Config::min_fs_sync_read_block_bytesize`, 2 MiB. -/
def minFsSyncReadBlockBytesize : Nat := 2 * 1024 * 1024

/-- {lit}`S3ClientWrapper::min_chunk_bytesize`, 5 MiB. -/
def minChunkBytesize : Nat := 5 * 1024 * 1024

/-- {lit}`Config`: the settings the read paths use, with what the constructor checks. -/
structure Config where
  concurrency : Nat
  s3Concurrency : Nat
  s3BlockBytesize : Nat
  fsSyncReadBlockBytesize : Nat
  fsAsyncChunkBytesize : Nat
  concurrency_pos : 0 < concurrency
  s3Concurrency_pos : 0 < s3Concurrency
  concurrency_le : concurrency ≤ maxConcurrency
  s3Concurrency_le : s3Concurrency ≤ maxConcurrency
  s3BlockBytesize_pos : 0 < s3BlockBytesize
  fsSyncReadBlockBytesize_pos : 0 < fsSyncReadBlockBytesize
  fsAsyncChunkBytesize_pos : 0 < fsAsyncChunkBytesize
  s3BlockBytesize_lt : s3BlockBytesize < 2 ^ 64
  fsAsyncChunkBytesize_lt : fsAsyncChunkBytesize < 2 ^ 64

/-- {lit}`Config::to_concurrency`: caps a worker count. -/
def toConcurrency (value : Nat) : Nat :=
  if value > maxConcurrency then maxConcurrency else value

theorem toConcurrency_le (value : Nat) : toConcurrency value ≤ maxConcurrency := by
  unfold toConcurrency
  split <;> omega

theorem toConcurrency_pos {value : Nat} (h : 0 < value) : 0 < toConcurrency value := by
  unfold toConcurrency
  split
  · decide
  · exact h

/-- A size raised to its minimum when minimums are enforced. -/
def enforcedMinimum (enforceMinimum : Bool) (minimum value : Nat) : Nat :=
  if enforceMinimum && value < minimum then minimum else value

theorem enforcedMinimum_pos {e : Bool} {minimum value : Nat} (h : 0 < value) :
    0 < enforcedMinimum e minimum value := by
  unfold enforcedMinimum
  split
  · rename_i hlt
    simp only [Bool.and_eq_true, decide_eq_true_eq] at hlt
    omega
  · exact h

/--
The positional constructor of {lit}`Config`.  It fails on a zero count or size.  The
synchronous block is checked after its minimum was enforced, so a zero there passes when
minimums are enforced.  The sizes arrive as {lit}`size_t`.
-/
def Config.make (concurrency s3Concurrency : UInt32)
    (s3BlockBytesize fsSyncReadBlockBytesize : UInt64) (enforceMinimum : Bool)
    (fsAsyncChunkBytesize : UInt64) : Except Failure Config :=
  let syncBlock := enforcedMinimum enforceMinimum minFsSyncReadBlockBytesize
    fsSyncReadBlockBytesize.toNat
  let s3Block := enforcedMinimum enforceMinimum minChunkBytesize s3BlockBytesize.toNat
  if h : 0 < concurrency.toNat ∧ 0 < s3Concurrency.toNat ∧ 0 < s3BlockBytesize.toNat ∧
      0 < fsAsyncChunkBytesize.toNat ∧ 0 < syncBlock then
    .ok
      { concurrency := toConcurrency concurrency.toNat
        s3Concurrency := toConcurrency s3Concurrency.toNat
        s3BlockBytesize := s3Block
        fsSyncReadBlockBytesize := syncBlock
        fsAsyncChunkBytesize := fsAsyncChunkBytesize.toNat
        concurrency_pos := toConcurrency_pos h.1
        s3Concurrency_pos := toConcurrency_pos h.2.1
        concurrency_le := toConcurrency_le _
        s3Concurrency_le := toConcurrency_le _
        s3BlockBytesize_pos := enforcedMinimum_pos h.2.2.1
        fsSyncReadBlockBytesize_pos := h.2.2.2.2
        fsAsyncChunkBytesize_pos := h.2.2.2.1
        s3BlockBytesize_lt := by
          have hb := s3BlockBytesize.toNat_lt
          unfold s3Block enforcedMinimum minChunkBytesize
          split <;> omega
        fsAsyncChunkBytesize_lt := fsAsyncChunkBytesize.toNat_lt }
  else
    .error .assertion

end Streamer
end ModelStreamer
