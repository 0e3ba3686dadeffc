import ModelStreamer.ObjectStorage.BufferContract

/-!
# Releases follow reports

What the backend may rely on: the buffer of a read that it has not reported stays with the chunk
of the read, or is retired.  An abort that counts the late completion of another read breaks it,
so the runs here are those in which every counted completion is of a read of a live workload.

Main results:

- Definition {lit}`ReleaseContract`: what the backend may rely on.
- Theorem {lit}`releases_follow_reports`: every such run keeps it.
- Theorem {lit}`not_releases_follow_reports`: not every run does.
-/

namespace ModelStreamer
namespace ObjectStorage

open Common DeviceIo.Staging Lib Streamer

/-- What the backend may rely on. -/
structure ReleaseContract (w : Worker) : Prop where
  /-- A buffer is released only when every read that was issued into it is reported. -/
  released : ∀ g ∈ w.givenBack, g.retired = false → g.underRead = false
  /-- The buffer of a read that is not reported is with its chunk, or retired. -/
  kept : ∀ read ∈ w.reads, read.staging.valid = true →
    (∃ e ∈ w.workloads.entries, ∃ cs ∈ e.2.chunks,
      cs.chunk.handle = read.chunk.handle ∧ cs.staging = read.staging) ∨
    ∃ g ∈ w.givenBack, g.buffer = read.staging ∧ g.retired = true
  /-- The pool does not hand it out again. -/
  lent : ∀ read ∈ w.reads, read.staging.valid = true → read.staging ∈ w.lent

variable {w : Worker}

/-- A buffer that is held under a handle is with the chunk of the handle. -/
theorem exists_chunk_of_held {x : Nat × StagingBuffer} (hx : x ∈ w.loans.held) :
    ∃ e ∈ w.workloads.entries, ∃ cs ∈ e.2.chunks, cs.chunk.handle = x.1 ∧ cs.staging = x.2 := by
  rcases List.mem_flatMap.1 hx with ⟨e, he, hlending⟩
  rcases List.mem_flatMap.1 hlending with ⟨cs, hcs, hchunk⟩
  rcases ChunkState.mem_lending.1 hchunk with ⟨-, rfl⟩
  exact ⟨e, he, cs, hcs, rfl, rfl⟩

/-- The invariant of the buffers is what the backend relies on. -/
theorem BuffersInv.releases (h : BuffersInv w) : ReleaseContract w := by
  constructor
  case released =>
    intro g hg hreleased
    cases hunder : g.underRead with
    | false => rfl
    | true =>
        rw [h.safe g hg hunder] at hreleased
        cases hreleased
  case kept =>
    intro read hread hvalid
    rcases h.held_or_retired hread hvalid with hheld | hretired
    · exact Or.inl (exists_chunk_of_held hheld)
    · exact Or.inr hretired
  case lent => exact fun read hread hvalid => h.lent_of_read hread hvalid

/-- In every run up to the teardown, with fewer than {lit}`2 ^ 64` handles, in which every
completion that an abort counts is of a read of a live workload, a staging buffer is released
only when the reads into it are reported. -/
theorem releases_follow_reports {chunkBytesize capacity : Nat} {timeout : Int}
    {actions : List Worker.Action}
    (hroom : (actions.map Worker.Action.handles).sum < 2 ^ 64)
    (hrunning : ∀ action ∈ actions, action.teardown = false)
    (hwatch : EachStep Worker.next (fun w action => w.Awaits action.aborting)
      (Worker.start chunkBytesize capacity timeout) actions)
    (hrun : run Worker.next (Worker.start chunkBytesize capacity timeout) actions = some w) :
    ReleaseContract w := by
  have hstart : Reserved True 0 _ := reserved_start chunkBytesize capacity timeout
  have hsteps := (eachStep_of_forall hrunning).and hwatch
  exact ((reserved_run hstart (by omega) (fun _ => hsteps) hrun).buffers trivial).releases

/-- The read of the first workload is given up, and its late completion is dropped before the
second abort waits for the second read. -/
def droppedActions : List Worker.Action :=
  [.enqueue [deviceBatch] none [], .pump 0 [readInto 1],
   failedTurn [{ code := .fileAccessError, events := [] }],
   .enqueue [deviceBatch] none [], .pump 0 [readInto 2],
   .drainBatch
     { stopped := false, landed := 0, resumed := []
       round := { code := .success, events := [⟨1, .success, 0, 0⟩] }, aborting := [] },
   failedTurn [{ code := .success, events := [⟨2, .success, 0, 0⟩] }]]

/-- The buffer of the first read is retired, and that of the second one is released. -/
theorem releases_follow_reports_dropped : ∃ w,
    run Worker.next (Worker.start 4 2 0) droppedActions = some w ∧ ReleaseContract w ∧
      w.givenBack = [⟨{ data := 1 }, true, true⟩, ⟨{ data := 2 }, false, false⟩] ∧
      w.reads = [] := by
  have hends : ((run Worker.next (Worker.start 4 2 0) droppedActions).map fun w =>
      (w.givenBack, w.reads)) =
      some ([⟨{ data := 1 }, true, true⟩, ⟨{ data := 2 }, false, false⟩], []) := by
    decide +kernel
  have hwatch : EachStep Worker.next (fun w action => w.Awaits action.aborting)
      (Worker.start 4 2 0) droppedActions := by
    decide +kernel
  rcases Option.map_eq_some_iff.1 hends with ⟨w, hrun, heq⟩
  simp only [Prod.mk.injEq] at heq
  exact ⟨w, hrun, releases_follow_reports (by decide) (by decide) hwatch hrun, heq⟩

/-- Without the condition on the completions, a buffer is released under the second read. -/
theorem not_releases_follow_reports : ¬ ∀ actions w,
    (actions.map Worker.Action.handles).sum < 2 ^ 64 →
      (∀ action ∈ actions, action.teardown = false) →
      run Worker.next (Worker.start 4 2 0) actions = some w → ReleaseContract w := by
  intro h
  rcases strayActions_free with ⟨w, hrun, hfree⟩
  have hcontract := h strayActions w (by decide) (by decide) hrun
  exact Bool.false_ne_true (hcontract.released _ hfree rfl).symm

end ObjectStorage
end ModelStreamer
