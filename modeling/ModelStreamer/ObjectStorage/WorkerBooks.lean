import ModelStreamer.ObjectStorage.WorkerTurns

/-!
# The books of an object storage worker

What decides where a completion goes: the workloads with their blocks of handles, and the place
of every chunk that is not finished.  A chunk is pending, delayed for a retry, parked, in a
copy, or at the plugin; the worker may have it in its hand in the middle of a call.

Main results:

- Definition {lit}`BooksInv`: what holds of the books.
- Theorem {lit}`BooksInv.move`: chunks change places.  One theorem for each move follows.
-/

namespace ModelStreamer
namespace ObjectStorage

open Common DeviceIo.Staging Lib Streamer

/-! ## The books -/

/-- A workload in the books. -/
structure WorkloadShape where
  base : Nat
  chunks : List ObjectChunk
  remaining : Nat

/-- The owner of a block of handles. -/
def WorkloadShape.owner (shape : WorkloadShape) : IdOwner :=
  { block := { base := shape.base, size := shape.chunks.length }, remaining := shape.remaining }

/-- Where the chunks are. -/
structure Books where
  shapes : List WorkloadShape
  blocks : List IdBlock
  handleCounter : Nat
  made : List ObjectChunk
  submitted : List ObjectChunk
  applied : List (Nat × ObjectChunk)
  pending : List (ObjectChunk × Nat)
  inflight : Nat
  delayed : List Nat
  waitingRetries : List Nat
  waiting : List Nat
  copies : List Nat
  copying : List Nat
  copiesIssued : Nat
  reads : List ObjectChunk

/-- A workload as it stands in the books. -/
def shapeOf (e : Nat × Inflight) : WorkloadShape :=
  { base := e.1, chunks := e.2.chunks.map ChunkState.chunk, remaining := e.2.remainingChunks }

/-- The books of a worker. -/
def Worker.books (w : Worker) : Books :=
  { shapes := w.workloads.entries.map shapeOf
    blocks := w.blocks
    handleCounter := w.handleCounter
    made := w.made
    submitted := w.submitted
    applied := w.applied
    pending := w.queue.pending
    inflight := w.queue.inflight
    delayed := w.retry.handles
    waitingRetries := w.waitingRetries
    waiting := w.waiting
    copies := w.copies.map CopyDone.handle
    copying := w.copying.map IssuedCopy.handle
    copiesIssued := w.copiesIssued
    reads := w.reads.map PluginRead.chunk }

namespace Books

/-- The owners of the blocks. -/
def owners (b : Books) : List IdOwner :=
  b.shapes.map WorkloadShape.owner

/-- The handles that the worker holds for its workloads. -/
def held (b : Books) : List Nat :=
  b.pending.map (fun item => item.1.handle) ++ b.delayed ++ b.waitingRetries ++ b.waiting ++
    b.copies ++ b.copying

/-- The handles at the plugin. -/
def outside (b : Books) : List Nat :=
  b.reads.map ObjectChunk.handle

/-- How many handles were given out. -/
def total (b : Books) : Nat :=
  (b.blocks.map IdBlock.size).sum

end Books

/-- What holds of the handles and of the chunks that were made. -/
structure BooksCore (b : Books) : Prop where
  counter : b.handleCounter = toWord 64 (1 + b.total)
  below : ∀ block ∈ b.blocks, 0 < block.base ∧ block.base + block.size ≤ 1 + b.total
  /-- A handle is given to one chunk. -/
  made_nodup : (b.made.map ObjectChunk.handle).Nodup
  made_known : ∀ chunk ∈ b.made, ∃ block ∈ b.blocks, block.Has chunk.handle
  made_submitted : ∀ chunk ∈ b.submitted, chunk ∈ b.made
  submitted_reads : ∀ chunk ∈ b.reads, chunk ∈ b.submitted
  /-- A completion was applied to the chunk of its handle. -/
  made_applied : ∀ p ∈ b.applied, p.2 ∈ b.made ∧ p.2.handle = p.1

/-- What holds of the books.  The chunks in the hand of the worker have a slot of the window, and
those of {lit}`landed` have none. -/
structure BooksInv (hand landed : List Nat) (b : Books) : Prop where
  core : BooksCore b
  ledger : IdLedger b.owners b.blocks b.held (hand ++ landed ++ b.outside)
  /-- A chunk is at the place of its handle. -/
  handles : ∀ shape ∈ b.shapes, ∀ i chunk, shape.chunks[i]? = some chunk →
    chunk.handle = shape.base + i
  made_shapes : ∀ shape ∈ b.shapes, ∀ chunk ∈ shape.chunks, chunk ∈ b.made
  made_pending : ∀ item ∈ b.pending, item.1 ∈ b.made ∧ item.2 = 1
  /-- The window has room for the reads of live workloads, and for the parked chunks. -/
  credit : ((hand ++ b.outside).countP fun id => isOwned b.owners id) +
    (b.waitingRetries.length + b.waiting.length) ≤ b.inflight
  copies_eq : b.copiesIssued = b.copies.length + b.copying.length

/-- A read is of a chunk that was made. -/
theorem BooksCore.made_reads {b : Books} (h : BooksCore b) {chunk : ObjectChunk}
    (hread : chunk ∈ b.reads) : chunk ∈ b.made :=
  h.made_submitted chunk (h.submitted_reads chunk hread)

/-- No handle is given out, and no chunk is made. -/
theorem BooksCore.transfer {b b' : Books} (h : BooksCore b) (hblocks : b'.blocks = b.blocks)
    (hcounter : b'.handleCounter = b.handleCounter) (hmade : b'.made = b.made)
    (hsubmitted : b'.submitted = b.submitted)
    (hreads : ∀ chunk ∈ b'.reads, chunk ∈ b.reads ∨ chunk ∈ b.submitted)
    (happlied : ∀ p ∈ b'.applied, p ∈ b.applied ∨ p.2 ∈ b.made ∧ p.2.handle = p.1) :
    BooksCore b' := by
  have htotal : b'.total = b.total := by
    unfold Books.total
    rw [hblocks]
  refine ⟨?_, ?_, ?_, ?_, ?_, ?_, ?_⟩
  · rw [hcounter, htotal]
    exact h.counter
  · rw [hblocks, htotal]
    exact h.below
  · rw [hmade]
    exact h.made_nodup
  · rw [hmade, hblocks]
    exact h.made_known
  · rw [hmade, hsubmitted]
    exact h.made_submitted
  · rw [hsubmitted]
    intro chunk hchunk
    rcases hreads chunk hchunk with hold | hnew
    · exact h.submitted_reads chunk hold
    · exact hnew
  · rw [hmade]
    intro p hp
    rcases happlied p hp with hold | hnew
    · exact h.made_applied p hold
    · exact hnew

/-! ## Moves -/

section Moves

variable {hand landed : List Nat} {b : Books} {handle : Nat} {chunk : ObjectChunk}

/-- A handle in the hand of the worker. -/
theorem countP_hand_cons (owners : List IdOwner) (howned : isOwned owners handle = true)
    (out : List Nat) :
    ((handle :: out).countP fun id => isOwned owners id) =
      (out.countP fun id => isOwned owners id) + 1 :=
  List.countP_cons_of_pos (by simpa using howned)

/-- Everything that is held is owned. -/
theorem BooksInv.owned_of_held (h : BooksInv hand landed b) (hheld : handle ∈ b.held) :
    isOwned b.owners handle = true :=
  isOwned_iff.2 (h.ledger.live handle hheld)

/-- Chunks change places. -/
theorem BooksInv.move {hand' landed' : List Nat} {b' : Books} (h : BooksInv hand landed b)
    (hsame : b'.shapes = b.shapes ∧ b'.blocks = b.blocks ∧
      b'.handleCounter = b.handleCounter ∧ b'.made = b.made ∧ b'.submitted = b.submitted ∧
      b'.applied = b.applied)
    (hperm : (b'.held ++ (hand' ++ landed' ++ b'.outside)).Perm
      (b.held ++ (hand ++ landed ++ b.outside)))
    (hlive : ∀ id ∈ b'.held, id ∈ b.held ∨ isOwned b.owners id = true)
    (hpending : ∀ item ∈ b'.pending, item ∈ b.pending ∨ item.1 ∈ b.made ∧ item.2 = 1)
    (hreads : ∀ chunk ∈ b'.reads, chunk ∈ b.reads ∨ chunk ∈ b.submitted)
    (hcredit : ((hand' ++ b'.outside).countP fun id => isOwned b.owners id) +
      (b'.waitingRetries.length + b'.waiting.length) ≤ b'.inflight)
    (hcopies : b'.copiesIssued = b'.copies.length + b'.copying.length) :
    BooksInv hand' landed' b' := by
  rcases hsame with ⟨hshapes, hblocks, hcounter, hmade, hsubmitted, happlied⟩
  have howners : b'.owners = b.owners := by
    unfold Books.owners
    rw [hshapes]
  refine ⟨h.core.transfer hblocks hcounter hmade hsubmitted hreads ?_, ?_, ?_, ?_, ?_, ?_, hcopies⟩
  · rw [happlied]
    exact fun _ hp => Or.inl hp
  · rw [howners, hblocks]
    apply h.ledger.move hperm
    intro id hid
    rcases hlive id hid with hold | hnew
    · exact Or.inl hold
    · exact Or.inr (isOwned_iff.1 hnew)
  · rw [hshapes]
    exact h.handles
  · rw [hshapes, hmade]
    exact h.made_shapes
  · rw [hmade]
    intro item hitem
    rcases hpending item hitem with hold | hnew
    · exact h.made_pending item hold
    · exact hnew
  · rw [howners]
    exact hcredit

/-- A completion is applied to a chunk. -/
theorem BooksInv.apply (h : BooksInv hand landed b) (hmade : chunk ∈ b.made)
    (hhandle : chunk.handle = handle) :
    BooksInv hand landed { b with applied := b.applied ++ [(handle, chunk)] } := by
  refine ⟨h.core.transfer rfl rfl rfl rfl (fun _ hchunk => Or.inl hchunk) ?_, h.ledger, h.handles,
    h.made_shapes, h.made_pending, h.credit, h.copies_eq⟩
  intro p hp
  rcases List.mem_append.1 hp with hold | hnew
  · exact Or.inl hold
  · rw [List.mem_singleton.1 hnew]
    exact Or.inr ⟨hmade, hhandle⟩

/-- {lit}`try_take`: a pending chunk gets a slot. -/
theorem BooksInv.take {rest : List (ObjectChunk × Nat)} {cost inflight : Nat}
    (h : BooksInv hand landed b) (hpending : b.pending = (chunk, cost) :: rest)
    (hinflight : inflight = b.inflight + cost) :
    BooksInv (chunk.handle :: hand) landed { b with pending := rest, inflight } := by
  have hcost : cost = 1 := (h.made_pending (chunk, cost) (by simp [hpending])).2
  have howned : isOwned b.owners chunk.handle = true := by
    apply h.owned_of_held
    unfold Books.held
    simp [hpending]
  apply h.move
  case hsame => exact ⟨rfl, rfl, rfl, rfl, rfl, rfl⟩
  case hperm =>
    rw [List.perm_iff_count]
    intro a
    simp only [Books.held, Books.outside, hpending, List.count_append, List.count_cons,
      List.map_cons, List.cons_append]
    omega
  case hlive =>
    intro id hid
    left
    unfold Books.held at hid ⊢
    rw [hpending]
    exact List.mem_cons_of_mem _ hid
  case hpending =>
    intro item hitem
    left
    rw [hpending]
    exact List.mem_cons_of_mem _ hitem
  case hreads => exact fun _ hchunk => Or.inl hchunk
  case hcredit =>
    have hcredit := h.credit
    change ((chunk.handle :: (hand ++ b.outside)).countP fun id => isOwned b.owners id) +
      (b.waitingRetries.length + b.waiting.length) ≤ inflight
    rw [countP_hand_cons b.owners howned]
    omega
  case hcopies => exact h.copies_eq

/-- A chunk without a buffer is parked, and keeps its slot. -/
theorem BooksInv.park {waitingRetries waiting : List Nat}
    (h : BooksInv (handle :: hand) landed b) (howned : isOwned b.owners handle = true)
    (hparked : (waitingRetries ++ waiting).Perm (handle :: (b.waitingRetries ++ b.waiting))) :
    BooksInv hand landed { b with waitingRetries, waiting } := by
  have hcount := fun a => hparked.count_eq a
  simp only [List.count_cons, List.count_append] at hcount
  apply h.move
  case hsame => exact ⟨rfl, rfl, rfl, rfl, rfl, rfl⟩
  case hperm =>
    rw [List.perm_iff_count]
    intro a
    have ha := hcount a
    simp only [Books.held, Books.outside, List.count_append, List.count_cons]
    omega
  case hlive =>
    intro id hid
    have hsub := fun hmem : id ∈ waitingRetries ++ waiting => hparked.subset hmem
    simp only [Books.held, List.mem_append, List.mem_cons] at hid hsub ⊢
    by_cases heq : id = handle
    · subst heq
      exact Or.inr howned
    · tauto
  case hpending => exact fun _ hitem => Or.inl hitem
  case hreads => exact fun _ hchunk => Or.inl hchunk
  case hcredit =>
    have hcredit := h.credit
    have hlength := hparked.length_eq
    rw [List.cons_append, countP_hand_cons b.owners howned] at hcredit
    rw [List.length_cons, List.length_append, List.length_append] at hlength
    change ((hand ++ b.outside).countP fun id => isOwned b.owners id) +
      (waitingRetries.length + waiting.length) ≤ b.inflight
    omega
  case hcopies => exact h.copies_eq

/-- A parked chunk is in the hand of the worker again. -/
theorem BooksInv.unpark {waitingRetries waiting : List Nat} (h : BooksInv hand landed b)
    (hparked : (b.waitingRetries ++ b.waiting).Perm (handle :: (waitingRetries ++ waiting))) :
    BooksInv (handle :: hand) landed { b with waitingRetries, waiting } := by
  have hcount := fun a => hparked.count_eq a
  simp only [List.count_cons, List.count_append] at hcount
  have hsub : ∀ id ∈ handle :: (waitingRetries ++ waiting), id ∈ b.held := by
    intro id hid
    have hmem := hparked.symm.subset hid
    unfold Books.held
    simp only [List.mem_append] at hmem ⊢
    tauto
  apply h.move
  case hsame => exact ⟨rfl, rfl, rfl, rfl, rfl, rfl⟩
  case hperm =>
    rw [List.perm_iff_count]
    intro a
    have ha := hcount a
    simp only [Books.held, Books.outside, List.count_append, List.count_cons]
    omega
  case hlive =>
    intro id hid
    left
    have hparked := hsub id
    simp only [Books.held, List.mem_append, List.mem_cons] at hid hparked ⊢
    tauto
  case hpending => exact fun _ hitem => Or.inl hitem
  case hreads => exact fun _ hchunk => Or.inl hchunk
  case hcredit =>
    have hcredit := h.credit
    have hlength := hparked.length_eq
    have howned := h.owned_of_held (hsub handle List.mem_cons_self)
    rw [List.length_cons, List.length_append, List.length_append] at hlength
    change ((handle :: (hand ++ b.outside)).countP fun id => isOwned b.owners id) +
      (waitingRetries.length + waiting.length) ≤ b.inflight
    rw [countP_hand_cons b.owners howned]
    omega
  case hcopies => exact h.copies_eq

/-- A chunk is handed to the plugin. -/
theorem BooksInv.submit (h : BooksInv hand landed b) (hmade : chunk ∈ b.made) :
    BooksInv hand landed { b with submitted := b.submitted ++ [chunk] } := by
  refine ⟨⟨h.core.counter, h.core.below, h.core.made_nodup, h.core.made_known, ?_, ?_,
    h.core.made_applied⟩, h.ledger, h.handles, h.made_shapes, h.made_pending, h.credit,
    h.copies_eq⟩
  · intro other hother
    rcases List.mem_append.1 hother with hold | hnew
    · exact h.core.made_submitted other hold
    · rw [List.mem_singleton.1 hnew]
      exact hmade
  · intro other hother
    exact List.mem_append_left _ (h.core.submitted_reads other hother)

/-- The plugin takes a read. -/
theorem BooksInv.read (h : BooksInv (chunk.handle :: hand) landed b) (hmade : chunk ∈ b.made) :
    BooksInv hand landed
      { b with reads := b.reads ++ [chunk], submitted := b.submitted ++ [chunk] } := by
  have hsubmitted := h.submit hmade
  have hperm : (hand ++ (b.reads ++ [chunk]).map ObjectChunk.handle).Perm
      (chunk.handle :: hand ++ b.outside) := by
    rw [List.perm_iff_count]
    intro a
    simp only [Books.outside, List.map_append, List.map_cons, List.map_nil, List.count_append,
      List.count_cons, List.count_nil]
    omega
  apply hsubmitted.move
  case hsame => exact ⟨rfl, rfl, rfl, rfl, rfl, rfl⟩
  case hperm =>
    rw [List.perm_iff_count]
    intro a
    simp only [Books.held, Books.outside, List.map_append, List.map_cons, List.map_nil,
      List.count_append, List.count_cons, List.count_nil]
    omega
  case hlive => exact fun _ hid => Or.inl hid
  case hpending => exact fun _ hitem => Or.inl hitem
  case hreads =>
    intro other hother
    rcases List.mem_append.1 hother with hold | hnew
    · exact Or.inl hold
    · exact Or.inr (List.mem_append_right _ hnew)
  case hcredit =>
    have hcredit := h.credit
    rw [← hperm.countP_eq] at hcredit
    exact hcredit
  case hcopies => exact h.copies_eq

/-- The plugin reports a read. -/
theorem BooksInv.handOut {reads : List ObjectChunk} (h : BooksInv hand landed b)
    (hperm : b.reads.Perm (chunk :: reads)) :
    BooksInv (hand ++ [chunk.handle]) landed { b with reads } := by
  have hcount := fun a => (hperm.map ObjectChunk.handle).count_eq a
  simp only [List.map_cons, List.count_cons] at hcount
  have houtside : (hand ++ [chunk.handle] ++ reads.map ObjectChunk.handle).Perm
      (hand ++ b.outside) := by
    rw [List.perm_iff_count]
    intro a
    have ha := hcount a
    simp only [Books.outside, List.count_append, List.count_cons, List.count_nil]
    omega
  apply h.move
  case hsame => exact ⟨rfl, rfl, rfl, rfl, rfl, rfl⟩
  case hperm =>
    rw [List.perm_iff_count]
    intro a
    have ha := hcount a
    simp only [Books.held, Books.outside, List.count_append, List.count_cons, List.count_nil]
    omega
  case hlive => exact fun _ hid => Or.inl hid
  case hpending => exact fun _ hitem => Or.inl hitem
  case hreads =>
    intro other hother
    exact Or.inl (hperm.symm.subset (List.mem_cons_of_mem _ hother))
  case hcredit =>
    have hcredit := h.credit
    rw [← houtside.countP_eq] at hcredit
    exact hcredit
  case hcopies => exact h.copies_eq

/-- A handle that the worker takes for one of its workloads. -/
theorem BooksInv.hold {b' : Books} (h : BooksInv (handle :: hand) landed b)
    (howned : isOwned b.owners handle = true)
    (hsame : b'.shapes = b.shapes ∧ b'.blocks = b.blocks ∧
      b'.handleCounter = b.handleCounter ∧ b'.made = b.made ∧ b'.submitted = b.submitted ∧
      b'.applied = b.applied)
    (hpending : b'.pending = b.pending) (hreads : b'.reads = b.reads)
    (hwaiting : b'.waitingRetries = b.waitingRetries ∧ b'.waiting = b.waiting)
    (hheld : b'.held.Perm (handle :: b.held)) (hinflight : b'.inflight = b.inflight - 1)
    (hcopies : b'.copiesIssued = b'.copies.length + b'.copying.length) :
    BooksInv hand landed b' := by
  have houtside : b'.outside = b.outside := by
    unfold Books.outside
    rw [hreads]
  apply h.move
  case hsame => exact hsame
  case hperm =>
    have hcount := fun a => hheld.count_eq a
    simp only [List.count_cons] at hcount
    rw [List.perm_iff_count]
    intro a
    have ha := hcount a
    simp only [houtside, List.count_append, List.count_cons]
    omega
  case hlive =>
    intro id hid
    rcases List.mem_cons.1 (hheld.subset hid) with rfl | hold
    · exact Or.inr howned
    · exact Or.inl hold
  case hpending =>
    rw [hpending]
    exact fun _ hitem => Or.inl hitem
  case hreads =>
    rw [hreads]
    exact fun _ hchunk => Or.inl hchunk
  case hcredit =>
    have hcredit := h.credit
    rw [List.cons_append, countP_hand_cons b.owners howned] at hcredit
    rw [hinflight, houtside, hwaiting.1, hwaiting.2]
    omega
  case hcopies => exact hcopies

/-- {lit}`schedule`: the chunk waits for its next attempt, and its slot is free. -/
theorem BooksInv.delay {delayed : List Nat} (h : BooksInv (handle :: hand) landed b)
    (howned : isOwned b.owners handle = true) (hdelayed : delayed.Perm (handle :: b.delayed)) :
    BooksInv hand landed { b with delayed, inflight := b.inflight - 1 } := by
  have hcount := fun a => hdelayed.count_eq a
  simp only [List.count_cons] at hcount
  apply h.hold howned
  case hsame => exact ⟨rfl, rfl, rfl, rfl, rfl, rfl⟩
  case hpending => rfl
  case hreads => rfl
  case hwaiting => exact ⟨rfl, rfl⟩
  case hheld =>
    rw [List.perm_iff_count]
    intro a
    have ha := hcount a
    simp only [Books.held, List.count_append, List.count_cons]
    omega
  case hinflight => rfl
  case hcopies => exact h.copies_eq

/-- {lit}`issue_copy`: the chunk is copied, and its slot is free. -/
theorem BooksInv.copy (h : BooksInv (handle :: hand) landed b)
    (howned : isOwned b.owners handle = true) :
    BooksInv hand landed
      { b with
        copying := b.copying ++ [handle]
        copiesIssued := b.copiesIssued + 1
        inflight := b.inflight - 1 } := by
  apply h.hold howned
  case hsame => exact ⟨rfl, rfl, rfl, rfl, rfl, rfl⟩
  case hpending => rfl
  case hreads => rfl
  case hwaiting => exact ⟨rfl, rfl⟩
  case hheld =>
    rw [List.perm_iff_count]
    intro a
    simp only [Books.held, List.count_append, List.count_cons, List.count_nil]
    omega
  case hinflight => rfl
  case hcopies =>
    have hcopies := h.copies_eq
    simp only [List.length_append, List.length_singleton]
    omega

/-- A retry that is due is pending again. -/
theorem BooksInv.promote {delayed : List Nat} (h : BooksInv hand landed b)
    (hdelayed : b.delayed = chunk.handle :: delayed) (hmade : chunk ∈ b.made) :
    BooksInv hand landed { b with delayed, pending := (chunk, 1) :: b.pending } := by
  apply h.move
  case hsame => exact ⟨rfl, rfl, rfl, rfl, rfl, rfl⟩
  case hperm =>
    rw [List.perm_iff_count]
    intro a
    simp only [Books.held, Books.outside, hdelayed, List.count_append, List.count_cons,
      List.map_cons]
    omega
  case hlive =>
    intro id hid
    left
    simp only [Books.held, hdelayed, List.map_cons, List.mem_append, List.mem_cons] at hid ⊢
    tauto
  case hpending =>
    intro item hitem
    rcases List.mem_cons.1 hitem with rfl | hold
    · exact Or.inr ⟨hmade, rfl⟩
    · exact Or.inl hold
  case hreads => exact fun _ hchunk => Or.inl hchunk
  case hcredit => exact h.credit
  case hcopies => exact h.copies_eq

/-- The issuer reports a copy. -/
theorem BooksInv.land {copying : List Nat} (h : BooksInv hand landed b)
    (hcopying : b.copying.Perm (handle :: copying)) :
    BooksInv hand landed { b with copying, copies := b.copies ++ [handle] } := by
  have hcount := fun a => hcopying.count_eq a
  simp only [List.count_cons] at hcount
  apply h.move
  case hsame => exact ⟨rfl, rfl, rfl, rfl, rfl, rfl⟩
  case hperm =>
    rw [List.perm_iff_count]
    intro a
    have ha := hcount a
    simp only [Books.held, Books.outside, List.count_append, List.count_cons, List.count_nil]
    omega
  case hlive =>
    intro id hid
    left
    have hsub := fun (hmem : id ∈ handle :: copying) => hcopying.symm.subset hmem
    simp only [Books.held, List.mem_append, List.mem_cons, List.not_mem_nil] at hid hsub ⊢
    tauto
  case hpending => exact fun _ hitem => Or.inl hitem
  case hreads => exact fun _ hchunk => Or.inl hchunk
  case hcredit => exact h.credit
  case hcopies =>
    have hcopies := h.copies_eq
    rw [hcopying.length_eq] at hcopies
    simp only [List.length_append, List.length_cons, List.length_nil] at hcopies ⊢
    omega

/-- The worker takes a copy that has landed. -/
theorem BooksInv.drainCopy {copies : List Nat} (h : BooksInv hand [] b)
    (hcopies : b.copies = handle :: copies) :
    BooksInv hand [handle] { b with copies, copiesIssued := b.copiesIssued - 1 } := by
  apply h.move
  case hsame => exact ⟨rfl, rfl, rfl, rfl, rfl, rfl⟩
  case hperm =>
    rw [List.perm_iff_count]
    intro a
    simp only [Books.held, Books.outside, hcopies, List.count_append, List.count_cons,
      List.count_nil]
    omega
  case hlive =>
    intro id hid
    left
    simp only [Books.held, hcopies, List.mem_append, List.mem_cons] at hid ⊢
    tauto
  case hpending => exact fun _ hitem => Or.inl hitem
  case hreads => exact fun _ hchunk => Or.inl hchunk
  case hcredit => exact h.credit
  case hcopies =>
    have hissued := h.copies_eq
    rw [hcopies, List.length_cons] at hissued
    dsimp only
    omega

/-- A chunk is lost, or a completion whose workload is gone is dropped. -/
theorem BooksInv.lose {hand' : List Nat} (h : BooksInv hand landed b)
    (hsub : hand'.Sublist hand) : BooksInv hand' landed b := by
  have hout : (hand' ++ landed ++ b.outside).Sublist (hand ++ landed ++ b.outside) :=
    (hsub.append (List.Sublist.refl _)).append (List.Sublist.refl _)
  refine ⟨h.core, h.ledger.lose hout, h.handles, h.made_shapes, h.made_pending, ?_,
    h.copies_eq⟩
  have hcredit := h.credit
  have hcount := (hsub.append (List.Sublist.refl b.outside)).countP_le
    (p := fun id => isOwned b.owners id)
  omega

end Moves

end ObjectStorage
end ModelStreamer
