import ModelStreamer.ObjectStorage.WorkerLoops

/-!
# Aborts of an object storage worker

An abort waits for the reads of the workloads, and counts the completions that arrive.  If all of
them are of these reads, no read of a workload is left when the count says so.  Then the buffers
of the chunks may go back to the pool.

Main results:

- Theorem {lit}`quiesceReads_reported`: what is left when the wait is over.
- Theorem {lit}`AbortInv.abortAll_ends`: what an abort leaves.
-/

namespace ModelStreamer
namespace ObjectStorage

open Common DeviceIo.Staging Lib Streamer

variable {scope : Scope} {owners : List IdOwner} {w w' : Worker}

/-! ## Waiting for the reads -/

/-- The plugin has reported some of the reads, and the window has room for others. -/
def Reported (w w' : Worker) : Prop :=
  ∃ reads inflight, List.Sublist reads w.reads ∧
    w' = { w with reads, queue := { w.queue with inflight } }

theorem Reported.refl (w : Worker) : Reported w w :=
  ⟨w.reads, w.queue.inflight, List.Sublist.refl _, rfl⟩

theorem Reported.trans {w'' : Worker} (h : Reported w w') (h' : Reported w' w'') :
    Reported w w'' := by
  rcases h with ⟨reads, inflight, hsub, rfl⟩
  rcases h' with ⟨reads', inflight', hsub', rfl⟩
  exact ⟨reads', inflight', hsub'.trans hsub, rfl⟩

/-- No read is added. -/
theorem Reported.outside_sublist (h : Reported w w') :
    w'.books.outside.Sublist w.books.outside := by
  rcases h with ⟨reads, inflight, hsub, rfl⟩
  exact (hsub.map PluginRead.chunk).map ObjectChunk.handle

/-- How many reads of the workloads the plugin holds. -/
def openReads (owners : List IdOwner) (w : Worker) : Nat :=
  w.books.outside.countP fun id => isOwned owners id

/-- A read of a workload is reported. -/
theorem openReads_cons {read : PluginRead} {reads : List PluginRead}
    (hperm : w.reads.Perm (read :: reads)) (howned : isOwned owners read.chunk.handle = true) :
    openReads owners w = openReads owners { w with reads } + 1 := by
  have houtside : w.books.outside.Perm
      (read.chunk.handle :: ({ w with reads } : Worker).books.outside) :=
    (hperm.map PluginRead.chunk).map ObjectChunk.handle
  unfold openReads
  rw [houtside.countP_eq, List.countP_cons_of_pos (by simpa using howned)]

/-- The completions are of handles that were given out, and of no read that was given up. -/
def OwnEvents (owners : List IdOwner) (w : Worker) (events : List Event) : Prop :=
  ∀ event ∈ events, (w.blocks.any fun block => block.Has event.handle) = true ∧
    (event.handle ∈ w.books.outside → isOwned owners event.handle = true)

theorem OwnEvents.reported {events : List Event} (h : OwnEvents owners w events)
    (hreported : Reported w w') : OwnEvents owners w' events := by
  have hsub := hreported.outside_sublist
  rcases hreported with ⟨reads, inflight, -, rfl⟩
  intro event hevent
  rcases h event hevent with ⟨hknown, howned⟩
  exact ⟨hknown, fun hid => howned (hsub.subset hid)⟩

/-- Every completion is of a read of a workload. -/
theorem handOut_reported (events : List Event) (w : Worker) :
    Ends (fun w' => Reported w w' ∧ w'.queue = w.queue ∧
        (OwnEvents owners w events →
          openReads owners w' + events.length = openReads owners w))
      (Throws scope) (Worker.handOut events w) := by
  induction events generalizing w with
  | nil => exact ⟨Reported.refl w, rfl, fun _ => rfl⟩
  | cons event events ih =>
      unfold Worker.handOut
      split
      · rename_i hany
        rcases perm_cons_eraseP hany with ⟨read, hread, hhandle, hperm⟩
        rw [decide_eq_true_eq] at hhandle
        have hfirst : Reported w { w with reads := w.reads.eraseP fun read =>
            read.chunk.handle = event.handle } :=
          ⟨_, w.queue.inflight, List.eraseP_sublist, rfl⟩
        apply (ih _).imp
        rintro w' ⟨hrest, hqueue, hcount⟩
        refine ⟨hfirst.trans hrest, hqueue, fun hown => ?_⟩
        have hmem : event.handle ∈ w.books.outside := by
          rw [← hhandle]
          exact List.mem_map_of_mem (List.mem_map_of_mem hread)
        have howned := (hown event List.mem_cons_self).2 hmem
        have hothers : OwnEvents owners w events :=
          fun other hother => hown other (List.mem_cons_of_mem _ hother)
        have hleft := hcount (hothers.reported hfirst)
        rw [← hhandle] at howned
        rw [List.length_cons, openReads_cons hperm howned, ← hleft]
        omega
      · split
        · trivial
        · rename_i hunknown
          apply (ih w).imp
          rintro w' ⟨hrest, hqueue, hcount⟩
          refine ⟨hrest, hqueue, fun hown => ?_⟩
          exact absurd (hown event List.mem_cons_self).1 hunknown

/-- If the completions are of reads of the workloads, none of these reads is left when the wait
ends by the count. -/
theorem quiesceReads_reported (owners : List IdOwner) (rounds : List Round) (w : Worker) :
    Ends (fun r => Reported w r.2 ∧
        (r.1 = true → (∀ round ∈ rounds, OwnEvents owners w round.completions) →
          openReads owners w ≤ w.queue.inflight → openReads owners r.2 = 0))
      (Throws scope) (Worker.quiesceReads rounds w) := by
  induction rounds generalizing w with
  | nil =>
      unfold Worker.quiesceReads
      split
      · rename_i hzero
        refine ⟨Reported.refl w, fun _ _ hle => ?_⟩
        dsimp only
        omega
      · trivial
  | cons round rounds ih =>
      unfold Worker.quiesceReads
      split
      · rename_i hzero
        refine ⟨Reported.refl w, fun _ _ hle => ?_⟩
        dsimp only
        omega
      · dsimp only
        split
        · exact ⟨Reported.refl w, fun hfalse => absurd hfalse Bool.false_ne_true⟩
        · apply Ends.bind (handOut_reported round.completions w)
          rintro w' ⟨hreported, hqueue, hcount⟩
          have hfreed : Reported w
              { w' with queue := w'.queue.complete round.completions.length } :=
            hreported.trans ⟨_, _, List.Sublist.refl _, rfl⟩
          split
          · exact ⟨hfreed, fun hfalse => absurd hfalse Bool.false_ne_true⟩
          · apply (ih _).imp
            rintro ⟨drained, w''⟩ ⟨hrest, hnone⟩
            refine ⟨hfreed.trans hrest, fun hdrained hown hle => ?_⟩
            have hfirst := hcount (hown round List.mem_cons_self)
            apply hnone hdrained
            · intro other hother
              exact (hown other (List.mem_cons_of_mem _ hother)).reported hfreed
            · change openReads owners w' ≤ (w'.queue.complete round.completions.length).inflight
              rw [CapacityQueue.complete_inflight, hqueue]
              omega

/-! ## Giving everything up -/

/-- What an abort starts from.  The owners are the workloads whose reads are waited for. -/
structure AbortInv (scope : Scope) (owners : List IdOwner) (w : Worker) : Prop where
  base : BooksBase w.books
  blocks_eq : w.blocks = scope.blocks
  outside : ∀ id ∈ w.books.outside, isOwned owners id = true ∨ scope.gone id
  held : ∀ x ∈ w.loans.held, isOwned owners x.1 = true
  credit : openReads owners w + (w.waitingRetries.length + w.waiting.length) ≤ w.queue.inflight
  buffers : scope.watched → BuffersInv w

/-- The worker goes on, and the completions that an abort waits for are of handles that were
given out and are not gone. -/
def Scope.Allows (scope : Scope) (workerContinues : Bool) (rounds : List Round) : Prop :=
  workerContinues = true ∧ ∀ round ∈ rounds, ∀ event ∈ round.completions,
    (scope.blocks.any fun block => block.Has event.handle) = true ∧ ¬ scope.gone event.handle

/-- A buffer is held under the handle of a workload. -/
theorem BooksInv.owned_of_lending {hand landed : List Nat} (h : BooksInv hand landed w.books)
    {x : Nat × StagingBuffer} (hx : x ∈ w.loans.held) : isOwned w.books.owners x.1 = true := by
  rcases List.mem_flatMap.1 hx with ⟨e, he, hlending⟩
  rcases List.mem_flatMap.1 hlending with ⟨cs, hcs, hchunk⟩
  rcases ChunkState.mem_lending.1 hchunk with ⟨-, rfl⟩
  have hshape : shapeOf e ∈ w.books.shapes := List.mem_map_of_mem he
  have hmem : cs.chunk ∈ (shapeOf e).chunks := List.mem_map_of_mem hcs
  exact isOwned_iff.2 ⟨_, List.mem_map_of_mem hshape, h.has_of_mem hshape hmem⟩

/-- An abort may begin. -/
theorem WorkerInv.toAbort (h : WorkerInv scope [] [] w) : AbortInv scope w.books.owners w :=
  ⟨h.books.toBase, h.blocks_eq, h.outside, fun _ hx => h.books.owned_of_lending hx,
    h.books.credit, h.buffers⟩

/-- What never reached the plugin is dropped, and the parked chunks give back their slots. -/
theorem AbortInv.dropPending_credit (h : AbortInv scope owners w) :
    openReads owners w.dropPending ≤ w.dropPending.queue.inflight := by
  have hcredit := h.credit
  change openReads owners w ≤ _
  unfold Worker.dropPending
  dsimp only
  split
  · rw [CapacityQueue.complete_inflight]
    change openReads owners w ≤ w.queue.inflight - _
    omega
  · change openReads owners w ≤ w.queue.inflight
    omega

/-- The completions that an abort waits for are of reads of the workloads. -/
theorem AbortInv.own_events (h : AbortInv scope owners w) {workerContinues : Bool}
    {rounds : List Round} (hallows : scope.Allows workerContinues rounds) :
    ∀ round ∈ rounds, OwnEvents owners w.dropPending round.completions := by
  intro round hround event hevent
  rcases hallows.2 round hround event hevent with ⟨hknown, hnotgone⟩
  refine ⟨?_, fun hid => ?_⟩
  · change (w.blocks.any fun block => block.Has event.handle) = true
    rw [h.blocks_eq]
    exact hknown
  · rcases h.outside event.handle hid with howned | hgone
    · exact howned
    · exact absurd hgone hnotgone

/-- The buffers after the wait: they are free only if no read of a workload is left. -/
theorem AbortInv.abort_buffers (h : AbortInv scope owners w) (hb : BuffersInv w)
    (hreported : Reported w.dropPending w') {drained : Bool}
    (hnone : drained = true → openReads owners w' = 0) (code : ResponseCode) :
    BuffersInv ((w'.quiesceCopies.giveBackAll !drained).finalizeAll code) := by
  have houtside := hreported.outside_sublist
  rcases hreported with ⟨reads, inflight, hsub, rfl⟩
  let waited : Worker :=
    { w.dropPending with reads, queue := { w.dropPending.queue with inflight } }
  have hwaited : BuffersInv waited := (hb.report hsub).frame rfl ⟨rfl, rfl, rfl, rfl⟩
  have hquiesced : BuffersInv waited.quiesceCopies := hwaited.quiesceCopies
  cases drained with
  | false => exact hquiesced.retire_all code
  | true =>
      apply hquiesced.release_all
      intro u hu hheld
      rcases giveBackEach_eq (waited.copying.map IssuedCopy.staging) false
        { waited with copiesIssued := 0, copies := [], copying := [] } with
        ⟨lent, givenBack, heq⟩
      change waited.quiesceCopies = _ at heq
      rw [heq] at hu hheld
      have howned : isOwned owners u.1 = true := h.held u hheld
      rcases mem_used.1 hu with ⟨read, hread, -, rfl⟩
      have hid : read.chunk.handle ∈ waited.books.outside :=
        List.mem_map_of_mem (List.mem_map_of_mem hread)
      exact List.countP_eq_zero.1 (hnone rfl) _ hid howned

/-- What an abort leaves. -/
theorem AbortInv.abortAll_ends (h : AbortInv scope owners w) (code : ResponseCode)
    (workerContinues : Bool) (rounds : List Round)
    (hallows : scope.watched → scope.Allows workerContinues rounds) :
    Ends (Kept scope [] []) (Throws scope) (w.abortAll code workerContinues rounds) := by
  unfold Worker.abortAll
  apply Ends.bind (quiesceReads_reported owners rounds w.dropPending)
  rintro ⟨drained, w'⟩ ⟨hreported, hnone⟩
  dsimp only at hreported hnone
  let retired : Bool := !(drained || !workerContinues)
  let ended : Worker := (w'.quiesceCopies.giveBackAll retired).finalizeAll code
  have hbuffers : scope.watched → BuffersInv ended := by
    intro hwatched
    have hcontinues := (hallows hwatched).1
    have hended := h.abort_buffers (h.buffers hwatched) hreported
      (fun hdrained => hnone hdrained (h.own_events (hallows hwatched)) h.dropPending_credit) code
    have hretired : retired = !drained := by
      change (!(drained || !workerContinues)) = !drained
      rw [hcontinues, Bool.not_true, Bool.or_false]
    change BuffersInv ((w'.quiesceCopies.giveBackAll retired).finalizeAll code)
    rw [hretired]
    exact hended
  rcases hreported with ⟨reads, inflight, hsub, rfl⟩
  let waited : Worker :=
    { w.dropPending with reads, queue := { w.dropPending.queue with inflight } }
  have hbooks : ({ ended with queue := ended.queue.clear } : Worker).books =
      { w.books with reads := reads.map PluginRead.chunk }.cleared := by
    rcases giveBackEach_eq (waited.copying.map IssuedCopy.staging) false
      { waited with copiesIssued := 0, copies := [], copying := [] } with ⟨lent, givenBack, heq⟩
    rcases giveBackEach_eq waited.quiesceCopies.heldBuffers retired waited.quiesceCopies with
      ⟨lent', givenBack', heq'⟩
    change waited.quiesceCopies = _ at heq
    change waited.quiesceCopies.giveBackAll retired = _ at heq'
    change ({ (waited.quiesceCopies.giveBackAll retired).finalizeAll code with
      queue := (waited.quiesceCopies.giveBackAll retired).queue.clear } : Worker).books = _
    rw [heq', heq]
    rfl
  have hfewer : BooksBase { w.books with reads := reads.map PluginRead.chunk } :=
    h.base.fewer rfl rfl rfl rfl rfl (hsub.map PluginRead.chunk)
  refine ⟨?_, ?_, fun hwatched => ?_⟩
  · rw [hbooks]
    exact hfewer.abort
  · exact (congrArg Books.blocks hbooks).trans h.blocks_eq
  · exact (hbuffers hwatched).frame rfl ⟨rfl, rfl, rfl, rfl⟩

end ObjectStorage
end ModelStreamer
