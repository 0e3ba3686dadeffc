import ModelStreamer.Streamer.SyncReadSpec

/-!
# Which tasks a synchronous read answers

A regular file is read up to its end and no further.  The reader answers a task when a block
that ends behind it was read, so the end of the task alone does not decide.

Main results:

- Theorem {lit}`readBytes_regular`: a read succeeds exactly when it stays inside the file.
- Theorem {lit}`read_regular`: without a stop, the tasks that some block inside the file ends
  behind are answered with success, and the others with one error.
-/

namespace ModelStreamer
namespace Streamer

open Common Lib

/-! ## Regular files -/

/-- A regular file: a read gives some of the bytes that are left, and none at the end. -/
def OpenFile.Regular (file : OpenFile) : Prop :=
  ∀ pos count, ∃ n, file.read pos count = some n ∧ n ≤ file.length - pos ∧
    (0 < count → pos < file.length → 0 < n)

section Regular

variable {file : OpenFile} {block : Nat}

theorem fdRead_regular (hfile : file.Regular) (hblock : 0 < block) {size fuel : Nat}
    {data : Addr} {pos total : Nat} {r : FdRead} (hpos : r.pos = pos + total)
    (htotal : total ≤ min size (file.length - pos)) (hfuel : size - total ≤ fuel) :
    (file.fdRead size data block fuel total r).1 = some (min size (file.length - pos)) := by
  induction fuel generalizing total r with
  | zero =>
      have htotal' : total = min size (file.length - pos) := by omega
      rw [OpenFile.fdRead, htotal']
  | succ fuel ih =>
      rw [OpenFile.fdRead]
      split
      · rename_i hlt
        obtain ⟨n, hread, hle, hmore⟩ := hfile (pos + total) (min block (size - total))
        have hcount := file.read_le _ _ _ hread
        simp only [OpenFile.osRead, hpos, hread, Option.map_some]
        cases n with
        | zero =>
            simp only
            congr 1
            by_contra hne
            have hcontra := hmore (by omega) (by omega)
            omega
        | succ n => exact ih (Nat.add_assoc _ _ _) (by omega) (by omega)
      · have htotal' : total = min size (file.length - pos) := by omega
        rw [htotal']

/-- A read succeeds exactly when it stays inside the file. -/
theorem readBytes_regular (hfile : file.Regular) (hblock : 0 < block) {pos bytesize : Nat}
    (buffer : Addr) (hpos : pos ≤ file.length) :
    (file.readBytes block pos bytesize buffer).1 =
      if pos + bytesize ≤ file.length then .success else .eofError := by
  have hread : (file.fdRead bytesize buffer block bytesize 0 ⟨pos, []⟩).1 = _ :=
    fdRead_regular hfile hblock rfl
    (Nat.zero_le (min bytesize (file.length - pos))) (Nat.sub_le bytesize 0)
  cases hresult : file.fdRead bytesize buffer block bytesize 0 ⟨pos, []⟩ with
  | mk result r =>
  rw [hresult] at hread
  simp only at hread
  subst hread
  rw [OpenFile.readBytes, hresult]
  simp only
  by_cases hle : pos + bytesize ≤ file.length
  · rw [if_pos hle, if_neg (by omega)]
  · rw [if_neg hle, if_pos (by omega)]

/-! ## The blocks of a batch -/

/-- The tasks answered so far are those that end before one of the blocks that were read. -/
structure PassedInv (base : Addr) (file : OpenFile) (block : Nat) (batch : Batch)
    (r : HostRead) : Prop extends HostInv base batch file.bytes r where
  inside : r.fileOffset ≤ file.length
  whole : ∃ j, r.fileOffset = batch.start + j * block
  answered : ∀ i task, batch.tasks[i]? = some task →
    (i < r.s.batch.unfinished ↔ ∃ q, 0 < q ∧ batch.start + q * block ≤ r.fileOffset ∧
      task.info.stop ≤ batch.start + q * block)

variable {heap : List Request} {base : Addr} {batch : Batch} {r : HostRead}

/-- The next full block, as long as the file reaches. -/
theorem PassedInv.readBlock (hb : batch.Readable heap base) (hfile : file.Regular)
    (hblock : 0 < block) (h : PassedInv base file block batch r) (hthrown : r.thrown = none)
    (hto : r.fileOffset + block ≤ batch.stop) (hin : r.fileOffset + block ≤ file.length) :
    PassedInv base file block batch (r.readOne file block block) ∧
      (r.readOne file block block).thrown = r.thrown ∧
      (r.readOne file block block).fileOffset = r.fileOffset + block := by
  have hread : (file.readBytes block r.pos block r.buffer).1 = .success := by
    rw [h.pos hthrown, readBytes_regular hfile hblock _ h.inside, if_pos hin]
  obtain ⟨s, heq, hinv, hanswered⟩ := h.toHostInv.readOne_success hb hthrown hto hread
  obtain ⟨j, hj⟩ := h.whole
  refine ⟨⟨hinv, ?_, ⟨j + 1, ?_⟩, fun i task hget => ?_⟩, ?_, ?_⟩
  · rw [heq]
    exact hin
  · rw [heq, Nat.add_mul, Nat.one_mul]
    simp only
    omega
  · rw [heq]
    simp only
    rw [hanswered i task hget, h.answered i task hget]
    constructor
    · rintro (⟨q, hq, hle, hstop⟩ | hstop)
      · exact ⟨q, hq, by omega, hstop⟩
      · refine ⟨j + 1, Nat.succ_pos j, ?_, ?_⟩ <;> rw [Nat.add_mul, Nat.one_mul] <;> omega
    · rintro ⟨q, hq, hle, hstop⟩
      by_cases hold : batch.start + q * block ≤ r.fileOffset
      · exact Or.inl ⟨q, hq, hold, hstop⟩
      · exact Or.inr (by omega)
  · rw [heq]
  · rw [heq]

/-- A read that leaves the file throws, and the reader stays where it is. -/
theorem PassedInv.readOne_error (hfile : file.Regular) (hblock : 0 < block)
    (h : PassedInv base file block batch r) (hthrown : r.thrown = none) {bytesize : Nat}
    (hto : r.fileOffset + bytesize ≤ batch.stop) (hout : file.length < r.fileOffset + bytesize) :
    (r.readOne file block bytesize).thrown = some .eofError ∧
      (r.readOne file block bytesize).fileOffset = r.fileOffset ∧
      (r.readOne file block bytesize).s.batch = r.s.batch ∧
      PassedInv base file block batch (r.readOne file block bytesize) := by
  have hread : (file.readBytes block r.pos bytesize r.buffer).1 = .eofError := by
    rw [h.pos hthrown, readBytes_regular hfile hblock _ h.inside, if_neg (by omega)]
  have hne : (file.readBytes block r.pos bytesize r.buffer).1 ≠ .success := by
    rw [hread]
    decide
  have hinv := h.toHostInv.readOne_error hthrown hto hne
  rw [Streamer.readOne_error hne] at hinv ⊢
  exact ⟨congrArg some hread, rfl, rfl, hinv, h.inside, h.whole, h.answered⟩

/-- Without a stop the loop ends behind its blocks, or before the one that leaves the file. -/
theorem PassedInv.readBlocks (hb : batch.Readable heap base) (hfile : file.Regular)
    (hblock : 0 < block) (n : Nat) (h : PassedInv base file block batch r)
    (hthrown : r.thrown = none) (hto : r.fileOffset + n * block ≤ batch.stop) :
    PassedInv base file block batch (r.readBlocks file block (fun _ => false) n) ∧
      (((r.readBlocks file block (fun _ => false) n).thrown = none ∧
          (r.readBlocks file block (fun _ => false) n).fileOffset =
            r.fileOffset + n * block) ∨
        ((r.readBlocks file block (fun _ => false) n).thrown = some .eofError ∧
          file.length < (r.readBlocks file block (fun _ => false) n).fileOffset + block ∧
          (r.readBlocks file block (fun _ => false) n).fileOffset + block ≤ batch.stop)) := by
  induction n generalizing r with
  | zero => exact ⟨h, Or.inl ⟨hthrown, by simp [HostRead.readBlocks]⟩⟩
  | succ n ih =>
      rw [Nat.add_mul, Nat.one_mul] at hto
      have hchecked : PassedInv base file block batch { r with checks := r.checks + 1 } :=
        ⟨⟨h.inv, h.start_le, h.le_stop, h.buffer, h.pos, h.thrown⟩, h.inside, h.whole,
          h.answered⟩
      simp only [HostRead.readBlocks, Bool.false_eq_true, if_false]
      by_cases hin : r.fileOffset + block ≤ file.length
      · obtain ⟨hinv, hnone, hoffset⟩ :=
          hchecked.readBlock hb hfile hblock hthrown (by simp only; omega) hin
        have hnone' := hnone.trans hthrown
        simp only at hoffset
        rw [if_neg (by rw [hnone']; decide)]
        obtain ⟨hrest, hend⟩ := ih hinv hnone' (by omega)
        refine ⟨hrest, ?_⟩
        rw [hoffset] at hend
        rcases hend with ⟨hnone, hoffset'⟩ | herror
        · exact Or.inl ⟨hnone, by rw [hoffset', Nat.add_mul, Nat.one_mul]; omega⟩
        · exact Or.inr herror
      · obtain ⟨hcode, hoffset, -, hinv⟩ := @PassedInv.readOne_error _ _ _ _ _ hfile hblock
          hchecked hthrown block (by simp only; omega) (by simp only; omega)
        rw [if_pos (by simp [hcode])]
        refine ⟨hinv, Or.inr ⟨hcode, ?_, ?_⟩⟩
        · rw [hoffset]
          simp only
          omega
        · rw [hoffset]
          simp only
          omega

end Regular

end Streamer
end ModelStreamer
