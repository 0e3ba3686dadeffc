import ModelStreamer.ObjectStorage.WorkerRuns

/-!
# No buffer is free under a read

What a worker promises about the staging buffers of its device reads, as long as the completions
that it counts in an abort are of reads of its workloads: a buffer goes back to the pool only when
no read writes into it, and a read that was given up keeps its buffer away for good.

Main results:

- Definition {lit}`BufferContract`: the promise.
- Theorem {lit}`buffer_contract`: every such run keeps it.
- Theorem {lit}`not_buffer_contract_stray`: a run that counts a late completion does not.
-/

namespace ModelStreamer
namespace ObjectStorage

open Common DeviceIo.Staging Lib Streamer

/-- What a worker promises about its staging buffers. -/
structure BufferContract (w : Worker) : Prop where
  /-- A buffer that went back while a read wrote into it is retired. -/
  released : ∀ g ∈ w.givenBack, g.underRead = true → g.retired = true
  /-- The pool does not lend a buffer again while a read writes into it. -/
  lent : ∀ read ∈ w.reads, read.staging.valid = true → read.staging ∈ w.lent
  /-- The buffer of a read that was given up is retired. -/
  retired : ∀ read ∈ w.reads, read.staging.valid = true →
    w.locate read.chunk.handle = none →
      ∃ g ∈ w.givenBack, g.buffer = read.staging ∧ g.retired = true
  /-- No two reads write into one buffer. -/
  apart : w.reads.Pairwise fun a b => a.staging.valid = true → a.staging ≠ b.staging
  /-- No read writes into a buffer that is copied from. -/
  copied : ∀ copy ∈ w.copying, ∀ read ∈ w.reads, read.staging ≠ copy.staging

variable {w : Worker}

/-- The buffer of a read is held under the handle of the read, or was retired. -/
theorem BuffersInv.held_or_retired (h : BuffersInv w) {read : PluginRead} (hread : read ∈ w.reads)
    (hvalid : read.staging.valid = true) :
    (read.chunk.handle, read.staging) ∈ w.loans.held ∨
      ∃ g ∈ w.givenBack, g.buffer = read.staging ∧ g.retired = true := by
  rcases h.sound.used _ (mem_used.2 ⟨read, hread, hvalid, rfl⟩) with hheld | hretired
  · exact Or.inl hheld
  · rcases List.mem_map.1 hretired with ⟨g, hg, heq⟩
    rcases List.mem_filter.1 hg with ⟨hmem, hg'⟩
    exact Or.inr ⟨g, hmem, heq, hg'⟩

/-- The buffer of a read is lent. -/
theorem BuffersInv.lent_of_read (h : BuffersInv w) {read : PluginRead} (hread : read ∈ w.reads)
    (hvalid : read.staging.valid = true) : read.staging ∈ w.lent :=
  h.sound.lent_of_used (mem_used.2 ⟨read, hread, hvalid, rfl⟩)

/-- The invariant of the buffers gives the promise. -/
theorem BuffersInv.contract (h : BuffersInv w) (hbooks : BooksInv [] [] w.books) :
    BufferContract w := by
  constructor
  case released => exact h.safe
  case lent => exact fun read hread hvalid => h.lent_of_read hread hvalid
  case retired =>
    intro read hread hvalid hnone
    rcases h.held_or_retired hread hvalid with hheld | hretired
    · have howned := hbooks.owned_of_lending hheld
      rw [hbooks.locate_eq_none.1 hnone] at howned
      cases howned
    · exact hretired
  case apart =>
    have happart := h.sound.apart
    unfold Worker.loans at happart
    dsimp only at happart
    rw [List.map_map, List.Nodup, List.pairwise_map, List.pairwise_filter] at happart
    apply happart.imp
    intro a b hne hvalid heq
    rw [heq] at hvalid
    exact hne (heq ▸ hvalid) hvalid heq
  case copied =>
    intro copy hcopy
    apply not_under_read (h.valid copy hcopy)
    exact h.sound.unused_of_passed (List.mem_map_of_mem hcopy)

/-- After any sequence of calls before the teardown, with fewer than {lit}`2 ^ 64` handles, in
which every completion that an abort counts is of a read of a live workload, no staging buffer is
free under a read. -/
theorem buffer_contract {chunkBytesize capacity : Nat} {timeout : Int}
    {actions : List Worker.Action}
    (hroom : (actions.map Worker.Action.handles).sum < 2 ^ 64)
    (hwatch : EachStep Worker.next
      (fun w action => action.teardown = false ∧ w.Awaits action.aborting)
      (Worker.start chunkBytesize capacity timeout) actions)
    (hrun : run Worker.next (Worker.start chunkBytesize capacity timeout) actions = some w) :
    BufferContract w := by
  have hstart : Reserved True 0 _ := reserved_start chunkBytesize capacity timeout
  have hend := reserved_run hstart (by omega) (fun _ => hwatch) hrun
  exact (hend.buffers trivial).contract hend.books

/-- A batch of one chunk for a device. -/
def deviceBatch : Batch :=
  { submissionId := 1, workloadIndex := 0, fileIndex := 0, path := ['a']
    isObjectStorage := true, device := ⟨.cuda, 0⟩
    tasks := [Task.make 0 (TaskInfo.make 0 4 0)]
    chunks := [⟨0, 4, 100, 0, 1⟩], start := 0, stop := 4, unfinished := 0 }

/-- A buffer is free, and the plugin takes the read. -/
def readInto (data : Nat) : SubmitAnswer :=
  { ready := .success, acquired := .success, buffer := { data }, now := 0, read := .success }

/-- An aborted read keeps its buffer, also when it is reported later; the next workload reads
into another buffer, and is aborted after its read was reported. -/
def abortedActions : List Worker.Action :=
  [.enqueue [deviceBatch] none [], .pump 0 [readInto 1],
   .drainBatch
     { stopped := false, landed := 0, resumed := []
       round := { code := .fileAccessError, events := [] }
       aborting := [{ code := .finishedError, events := [] }] },
   .enqueue [deviceBatch] none [], .pump 0 [readInto 2],
   .enqueue [deviceBatch] (some .early) [{ code := .success, events := [⟨2, .success, 0, 0⟩] }]]

/-- The first buffer is retired under its read, and the second one is free. -/
theorem buffer_contract_aborted : ∃ w,
    run Worker.next (Worker.start 4 2 0) abortedActions = some w ∧ BufferContract w ∧
      w.givenBack = [⟨{ data := 1 }, true, true⟩, ⟨{ data := 2 }, false, false⟩] ∧
      w.lent = [{ data := 1 }] := by
  have hends : ((run Worker.next (Worker.start 4 2 0) abortedActions).map fun w =>
      (w.givenBack, w.lent)) =
      some ([⟨{ data := 1 }, true, true⟩, ⟨{ data := 2 }, false, false⟩], [{ data := 1 }]) := by
    decide +kernel
  have hwatch : EachStep Worker.next
      (fun w action => action.teardown = false ∧ w.Awaits action.aborting)
      (Worker.start 4 2 0) abortedActions := by
    decide +kernel
  rcases Option.map_eq_some_iff.1 hends with ⟨w, hrun, heq⟩
  simp only [Prod.mk.injEq] at heq
  exact ⟨w, hrun, buffer_contract (by decide) hwatch hrun, heq⟩

/-- The plugin fails a turn, and what an abort hears of it. -/
def failedTurn (aborting : List Round) : Worker.Action :=
  .drainBatch
    { stopped := false, landed := 0, resumed := []
      round := { code := .fileAccessError, events := [] }, aborting }

/-- The first read is given up, and reported while the second abort waits for the second read. -/
def strayActions : List Worker.Action :=
  [.enqueue [deviceBatch] none [], .pump 0 [readInto 1],
   failedTurn [{ code := .fileAccessError, events := [] }],
   .enqueue [deviceBatch] none [], .pump 0 [readInto 2],
   failedTurn [{ code := .success, events := [⟨1, .success, 0, 0⟩] }]]

/-- The second abort counts the late completion, and frees the buffer that the second read still
writes into. -/
theorem strayActions_free : ∃ w,
    run Worker.next (Worker.start 4 2 0) strayActions = some w ∧
      ⟨{ data := 2 }, false, true⟩ ∈ w.givenBack := by
  have hends : ((run Worker.next (Worker.start 4 2 0) strayActions).map Worker.givenBack) =
      some [⟨{ data := 1 }, true, true⟩, ⟨{ data := 2 }, false, true⟩] := by
    decide +kernel
  rcases Option.map_eq_some_iff.1 hends with ⟨w, hrun, heq⟩
  refine ⟨w, hrun, ?_⟩
  rw [heq]
  exact List.mem_cons_of_mem _ List.mem_cons_self

/-- A run in which an abort counts a late completion need not keep the promise. -/
theorem not_buffer_contract_stray : ∃ w,
    run Worker.next (Worker.start 4 2 0) strayActions = some w ∧ ¬ BufferContract w := by
  rcases strayActions_free with ⟨w, hrun, hfree⟩
  exact ⟨w, hrun, fun hcontract => Bool.false_ne_true (hcontract.released _ hfree rfl)⟩

end ObjectStorage
end ModelStreamer
