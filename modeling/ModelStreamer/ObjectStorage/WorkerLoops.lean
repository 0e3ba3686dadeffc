import ModelStreamer.Lib.Queues
import ModelStreamer.ObjectStorage.WorkerCompletion

/-!
# The loops of a worker

Each loop of a turn takes a chunk into the hand of the worker and lets it go again, so every
loop keeps what holds of the worker.

Main results:

- Theorem {lit}`WorkerInv.submitPending_ends`: pending chunks are submitted.
- Theorem {lit}`WorkerInv.promote_ends`: retries that are due are promoted.
- Theorem {lit}`WorkerInv.resumeWaiting_ends`: parked chunks are submitted again.
- Theorem {lit}`WorkerInv.routeEvents_ends`: completions are routed.
-/

namespace ModelStreamer
namespace ObjectStorage

open Common DeviceIo.Staging Lib Streamer

variable {scope : Scope} {w : Worker} {hand : List Nat} {chunk : ObjectChunk}

/-! ## Submitting what is pending -/

/-- Pending chunks are submitted. -/
theorem WorkerInv.submitPending_ends (h : WorkerInv scope [] [] w)
    (answers : List SubmitAnswer) : Keeps scope [] (Worker.submitPending answers w) := by
  induction answers generalizing w with
  | nil =>
      unfold Worker.submitPending
      split
      · exact h
      · trivial
  | cons answer answers ih =>
      unfold Worker.submitPending
      cases htake : w.queue.tryTake with
      | none => exact h
      | some taken =>
          rcases taken with ⟨chunk, queue⟩
          rcases CapacityQueue.tryTake_eq_some htake with ⟨cost, hpending, hinflight, -⟩
          have hmem : (chunk, cost) ∈ w.books.pending := by
            change (chunk, cost) ∈ w.queue.pending
            rw [hpending]
            exact List.mem_cons_self
          have howned : isOwned w.books.owners chunk.handle = true := by
            apply h.books.owned_of_held
            unfold Books.held
            simp only [List.mem_append]
            have hhandle := List.mem_map_of_mem (f := fun item : ObjectChunk × Nat =>
              item.1.handle) hmem
            tauto
          have htaken : WorkerInv scope [chunk.handle] [] { w with queue } :=
            h.shift (h.books.take hpending hinflight) ⟨rfl, rfl, rfl, rfl, rfl, rfl⟩
          have hsubmit := htaken.submit_ends howned (h.books.made_pending _ hmem).1 answer
          exact hsubmit.bind fun w' hw' => ih hw'

/-- Retries that are due are promoted. -/
theorem WorkerInv.promote_ends (h : WorkerInv scope [] [] w) (now : Int) (turns : Nat) :
    Keeps scope [] (Worker.promoteDueRetries now turns w) := by
  induction turns generalizing w with
  | zero => exact h
  | succ turns ih =>
      unfold Worker.promoteDueRetries
      cases hpop : w.retry.popDue now with
      | none => exact h
      | some popped =>
          rcases popped with ⟨handle, retry⟩
          rcases popDue_eq_some hpop with ⟨hdelayed, -⟩
          change w.books.delayed = handle :: retry.handles at hdelayed
          have howned : isOwned w.books.owners handle = true := by
            apply h.books.owned_of_held
            unfold Books.held
            rw [hdelayed]
            simp
          rcases h.books.locate_of_owned howned with
            ⟨base, index, chunk, hlocate, hlocated, rfl⟩
          rcases hlocated.chunkAt with ⟨wl, cs, hat, rfl⟩
          have hlocate' : ({ w with retry } : Worker).locate cs.chunk.handle =
              some (base, index) := hlocate
          have hat' : ({ w with retry } : Worker).chunkAt base index = some (wl, cs) := hat
          have hpromoted := h.books.promote hdelayed (h.books.of_located hlocated).2.2
          dsimp only
          rw [hlocate']
          dsimp only
          rw [hat']
          exact ih (h.shift hpromoted ⟨rfl, rfl, rfl, rfl, rfl, rfl⟩)

/-- {lit}`pump`. -/
theorem WorkerInv.pump_ends (h : WorkerInv scope [] [] w) (now : Int)
    (answers : List SubmitAnswer) : Keeps scope [] (w.pump now answers) := by
  unfold Worker.pump
  dsimp only
  split
  · exact (h.promote_ends now _).bind fun w' hw' => hw'.submitPending_ends answers
  · exact h.submitPending_ends answers

/-! ## Copies and parked chunks -/

/-- A completion is applied to the chunk of its handle. -/
theorem WorkerInv.record {landed : List Nat} {handle : Nat} (h : WorkerInv scope hand landed w)
    (hmade : chunk ∈ w.made) (hhandle : chunk.handle = handle) :
    WorkerInv scope hand landed (w.record handle chunk) :=
  h.shift (h.books.apply hmade hhandle) ⟨rfl, rfl, rfl, rfl, rfl, rfl⟩

/-- Copies that have landed are completed. -/
theorem WorkerInv.drainCopies_ends (h : WorkerInv scope [] [] w) (turns : Nat) :
    Keeps scope [] (Worker.drainCopies turns w) := by
  induction turns generalizing w with
  | zero => exact h
  | succ turns ih =>
      unfold Worker.drainCopies
      cases hcopies : w.copies with
      | nil => exact h
      | cons done copies =>
          dsimp only
          split
          · exact h
          · have hhandles : w.books.copies = done.handle :: copies.map CopyDone.handle := by
              unfold Worker.books
              rw [hcopies]
              rfl
            have howned : isOwned w.books.owners done.handle = true := by
              apply h.books.owned_of_held
              unfold Books.held
              rw [hhandles]
              simp
            have htaken : WorkerInv scope [] [done.handle]
                { w with copies, copiesIssued := w.copiesIssued - 1 } :=
              h.shift (h.books.drainCopy hhandles) ⟨rfl, rfl, rfl, rfl, rfl, rfl⟩
            rcases htaken.books.locate_of_owned howned with
              ⟨base, index, chunk, hlocate, hlocated, hhandle⟩
            rcases hlocated.chunkAt with ⟨wl, cs, hat, rfl⟩
            rw [hlocate]
            dsimp only
            rw [hat]
            dsimp only
            have hrecorded := htaken.record (htaken.books.of_located hlocated).2.2 hhandle
            rw [← hhandle] at hrecorded ⊢
            exact (hrecorded.completeCopy_ends hlocated done.ret).bind fun w' hw' => ih hw'

/-- A parked chunk is taken into the hand of the worker. -/
theorem WorkerInv.takeParked {which : Worker.Parked} {handle : Nat} {handles : List Nat}
    (h : WorkerInv scope [] [] w) (hparked : w.parked which = handle :: handles) :
    WorkerInv scope [handle] [] (w.setParked which handles) ∧
      isOwned (w.setParked which handles).books.owners handle = true := by
  cases which with
  | retries =>
      change w.books.waitingRetries = handle :: handles at hparked
      have hperm : (w.books.waitingRetries ++ w.books.waiting).Perm
          (handle :: (handles ++ w.books.waiting)) := by
        rw [hparked]
        exact List.Perm.refl _
      have howned : isOwned w.books.owners handle = true := by
        apply h.books.owned_of_held
        unfold Books.held
        simp [hparked]
      exact ⟨h.shift (h.books.unpark hperm) ⟨rfl, rfl, rfl, rfl, rfl, rfl⟩, howned⟩
  | fresh =>
      change w.books.waiting = handle :: handles at hparked
      have hperm : (w.books.waitingRetries ++ w.books.waiting).Perm
          (handle :: (w.books.waitingRetries ++ handles)) := by
        rw [hparked]
        exact List.perm_middle
      have howned : isOwned w.books.owners handle = true := by
        apply h.books.owned_of_held
        unfold Books.held
        simp [hparked]
      exact ⟨h.shift (h.books.unpark hperm) ⟨rfl, rfl, rfl, rfl, rfl, rfl⟩, howned⟩

/-- Parked chunks are submitted again. -/
theorem WorkerInv.resumeFrom_ends (h : WorkerInv scope [] [] w) (which : Worker.Parked)
    (turns : Nat) (answers : List SubmitAnswer) :
    Ends (fun r => WorkerInv scope [] [] r.2) (Throws scope)
      (Worker.resumeFrom which turns answers w) := by
  induction turns generalizing w answers with
  | zero => exact h
  | succ turns ih =>
      unfold Worker.resumeFrom
      cases hparked : w.parked which with
      | nil => exact h
      | cons handle handles =>
          rcases h.takeParked hparked with ⟨htaken, howned⟩
          rcases htaken.books.locate_of_owned howned with
            ⟨base, index, chunk, hlocate, hlocated, hhandle⟩
          rcases hlocated.chunkAt with ⟨wl, cs, hat, rfl⟩
          dsimp only
          rw [hlocate]
          dsimp only
          rw [hat]
          cases answers with
          | nil => trivial
          | cons answer answers =>
              rw [← hhandle] at htaken howned
              have hmade := (htaken.books.of_located hlocated).2.2
              apply (htaken.submit_ends howned hmade answer).bind
              exact fun w' hw' => ih hw' answers

/-- {lit}`resume_waiting`. -/
theorem WorkerInv.resumeWaiting_ends (h : WorkerInv scope [] [] w)
    (answers : List SubmitAnswer) : Keeps scope [] (w.resumeWaiting answers) := by
  unfold Worker.resumeWaiting
  apply Ends.bind (h.resumeFrom_ends .retries _ answers)
  rintro ⟨rest, w'⟩ hkept
  apply Ends.bind (hkept.resumeFrom_ends .fresh _ rest)
  rintro ⟨_, w''⟩ hkept'
  exact hkept'

/-! ## Completions -/

/-- The completions whose handles were given out. -/
def knownHandles (blocks : List IdBlock) (events : List Event) : List Nat :=
  (events.map Event.handle).filter fun id => blocks.any fun block => block.Has id

theorem knownHandles_cons_of_pos {blocks : List IdBlock} {event : Event} {events : List Event}
    (hknown : (blocks.any fun block => block.Has event.handle) = true) :
    knownHandles blocks (event :: events) = event.handle :: knownHandles blocks events := by
  unfold knownHandles
  rw [List.map_cons]
  exact List.filter_cons_of_pos hknown

theorem knownHandles_cons_of_neg {blocks : List IdBlock} {event : Event} {events : List Event}
    (hunknown : ¬ (blocks.any fun block => block.Has event.handle) = true) :
    knownHandles blocks (event :: events) = knownHandles blocks events := by
  unfold knownHandles
  rw [List.map_cons]
  exact List.filter_cons_of_neg hunknown

/-- The plugin reports a read. -/
theorem WorkerInv.reported {read : PluginRead} {reads : List PluginRead}
    (h : WorkerInv scope hand [] w) (hsub : reads.Sublist w.reads)
    (hperm : w.reads.Perm (read :: reads)) :
    WorkerInv scope (hand ++ [read.chunk.handle]) [] { w with reads } := by
  refine ⟨⟨h.books.handOut (hperm.map PluginRead.chunk), h.blocks_eq, ?_⟩, ?_⟩
  · exact fun hwatched => (h.buffers hwatched).report hsub
  · intro id hid
    exact h.outside id (((hsub.map PluginRead.chunk).map ObjectChunk.handle).subset hid)

/-- The plugin hands out completions. -/
theorem WorkerInv.handOut_ends (h : WorkerInv scope hand [] w) (events : List Event) :
    Keeps scope (hand ++ knownHandles scope.blocks events) (Worker.handOut events w) := by
  induction events generalizing w hand with
  | nil =>
      unfold knownHandles
      rw [List.map_nil, List.filter_nil, List.append_nil]
      exact h
  | cons event events ih =>
      unfold Worker.handOut
      split
      · rename_i hany
        rcases perm_cons_eraseP hany with ⟨read, hread, hhandle, hperm⟩
        rw [decide_eq_true_eq] at hhandle
        have hmem : read.chunk ∈ w.books.reads := List.mem_map_of_mem hread
        rcases h.books.core.made_known _ (h.books.core.made_reads hmem) with
          ⟨block, hblock, hhas⟩
        change block ∈ w.blocks at hblock
        have hreported := h.reported List.eraseP_sublist hperm
        rw [hhandle] at hhas hreported
        rw [h.blocks_eq] at hblock
        have hknown : (scope.blocks.any fun block => block.Has event.handle) = true :=
          List.any_eq_true.2 ⟨block, hblock, decide_eq_true hhas⟩
        rw [knownHandles_cons_of_pos hknown, List.append_cons]
        exact ih hreported
      · split
        · trivial
        · rename_i hunknown
          rw [h.blocks_eq] at hunknown
          rw [knownHandles_cons_of_neg hunknown]
          exact ih h

/-- {lit}`schedule`: a chunk without a read waits for its next attempt, without a buffer. -/
theorem WorkerInv.delayed {base index : Nat} {wl : Inflight} {cs : ChunkState} {retry : Retry}
    (h : WorkerInv scope (cs.chunk.handle :: hand) [] w)
    (howned : isOwned w.books.owners cs.chunk.handle = true)
    (hat : w.chunkAt base index = some (wl, cs))
    (hdelayed : retry.handles.Perm (cs.chunk.handle :: w.retry.handles)) (state : RetryState) :
    let w₁ : Worker :=
      ({ w with retry }.setChunk base index fun cs => { cs with retry := state }).releaseStaging
        base index cs
    WorkerInv scope hand [] { w₁ with queue := w₁.queue.complete 1 } := by
  let w₀ : Worker := { w with retry }.setChunk base index fun cs => { cs with retry := state }
  have hbooks : ({ w₀.releaseStaging base index cs with
      queue := (w₀.releaseStaging base index cs).queue.complete 1 } : Worker).books =
      { w.books with delayed := retry.handles, inflight := w.books.inflight - 1 } := by
    have hset : w₀.books = ({ w with retry } : Worker).books := books_setChunk fun _ => rfl
    rw [books_complete, books_releaseStaging, hset]
    rfl
  apply h.frame hbooks (h.books.delay howned hdelayed) ⟨rfl, rfl, rfl⟩
  intro hb
  have hset : BuffersInv w₀ :=
    hb.frame (held_setChunk_same fun _ => rfl) ⟨rfl, rfl, rfl, rfl⟩
  have hat₀ : w₀.chunkAt base index =
      some (_, { cs with retry := state }) := chunkAt_setChunk hat _
  have hreleased := hset.releaseStaging hat₀ (h.books.no_read List.mem_cons_self)
  exact hreleased.frame rfl ⟨rfl, rfl, rfl, rfl⟩

/-- A completion is routed to its chunk. -/
theorem WorkerInv.routeEvent_ends {base index : Nat} {event : Event}
    (h : WorkerInv scope (event.handle :: hand) [] w)
    (hlocated : w.books.Located base index chunk) (hhandle : chunk.handle = event.handle) :
    Keeps scope hand (w.routeEvent base index event) := by
  rcases hlocated.chunkAt with ⟨wl, cs, hat, rfl⟩
  have hrecorded := h.record (h.books.of_located hlocated).2.2 hhandle
  have howned := (h.books.of_located hlocated).2.1
  unfold Worker.routeEvent
  rw [hat]
  dsimp only
  rw [← hhandle] at hrecorded ⊢
  split
  · split
    · trivial
    · split
      · rename_i retry state hschedule
        rcases schedule_perm hschedule with ⟨hdelayed, -⟩
        exact hrecorded.delayed howned hat hdelayed state
      · exact hrecorded.completeChunk_ends hlocated _
  · exact hrecorded.completeChunk_ends hlocated _

/-- Completions are routed to their chunks, or dropped. -/
theorem WorkerInv.routeEvents_ends {events : List Event}
    (h : WorkerInv scope (knownHandles scope.blocks events) [] w) (progressed : Bool) :
    Ends (fun r => WorkerInv scope [] [] r.2) (Throws scope)
      (Worker.routeEvents events progressed w) := by
  induction events generalizing w progressed with
  | nil => exact h
  | cons event events ih =>
      unfold Worker.routeEvents
      by_cases hknown : (scope.blocks.any fun block => block.Has event.handle) = true
      · rw [knownHandles_cons_of_pos hknown] at h
        cases hlocate : w.locate event.handle with
        | none =>
            have hdropped := h.books.lose (List.sublist_cons_self _ _)
            exact ih (h.shift hdropped ⟨rfl, rfl, rfl, rfl, rfl, rfl⟩) progressed
        | some place =>
            rcases h.books.locate_eq_some.1 hlocate with ⟨chunk, hlocated, hhandle⟩
            apply (h.routeEvent_ends hlocated hhandle).bind
            exact fun w' hw' => ih hw' true
      · -- The handle was never given out, so it is in no block.
        rw [knownHandles_cons_of_neg hknown] at h
        have hlocate : w.locate event.handle = none := by
          rw [h.books.locate_eq_none, Bool.eq_false_iff]
          intro howned
          rcases isOwned_iff.1 howned with ⟨o, ho, hhas⟩
          have hblock := h.books.ledger.owned o ho
          change o.block ∈ w.blocks at hblock
          rw [h.blocks_eq] at hblock
          exact hknown (List.any_eq_true.2 ⟨o.block, hblock, decide_eq_true hhas⟩)
        rw [hlocate]
        exact ih h progressed

end ObjectStorage
end ModelStreamer
