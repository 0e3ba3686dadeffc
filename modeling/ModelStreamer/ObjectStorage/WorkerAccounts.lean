import ModelStreamer.ObjectStorage.WorkerBooks

/-!
# Closing the books of an object storage worker

What happens to the books when a chunk is completed, when a workload is enqueued, and when
everything is aborted.

Main results:

- Theorem {lit}`BooksInv.account_more`, {lit}`BooksInv.account_last`: a chunk is completed.
- Theorem {lit}`BooksInv.reserve`: a workload is enqueued.
- Theorem {lit}`BooksBase.abort`: what an abort leaves.
-/

namespace ModelStreamer
namespace ObjectStorage

open Common DeviceIo.Staging Lib Streamer

/-! ## Completing chunks -/

section Account

variable {hand hand' landed landed' : List Nat} {b : Books} {handle inflight : Nat}
  {shape : WorkloadShape}

/-- One chunk of a workload less. -/
def countDown (base : Nat) (shapes : List WorkloadShape) : List WorkloadShape :=
  shapes.map fun shape =>
    if shape.base = base then { shape with remaining := shape.remaining - 1 } else shape

/-- A workload is erased. -/
def eraseShape (base : Nat) (shapes : List WorkloadShape) : List WorkloadShape :=
  shapes.filter fun shape => shape.base ≠ base

theorem owners_countDown (base : Nat) (shapes : List WorkloadShape) :
    (countDown base shapes).map WorkloadShape.owner =
      (shapes.map WorkloadShape.owner).map fun x =>
        if x.block.base = base then { x with remaining := x.remaining - 1 } else x := by
  unfold countDown
  rw [List.map_map, List.map_map]
  apply List.map_congr_left
  intro shape _
  rw [Function.comp_apply, Function.comp_apply]
  change _ = if shape.base = base then _ else _
  split
  · rfl
  · rfl

theorem owners_eraseShape (base : Nat) (shapes : List WorkloadShape) :
    (eraseShape base shapes).map WorkloadShape.owner =
      (shapes.map WorkloadShape.owner).filter fun x => x.block.base ≠ base := by
  unfold eraseShape
  rw [List.filter_map]
  rfl

/-- A workload that has chunks to count. -/
theorem BooksInv.remaining_pos (h : BooksInv hand landed b) (hshape : shape ∈ b.shapes) :
    0 < shape.remaining :=
  h.ledger.pending _ (List.mem_map_of_mem hshape)

/-- The handle of a chunk is in the block of its workload. -/
theorem BooksInv.has_of_mem (h : BooksInv hand landed b) (hshape : shape ∈ b.shapes)
    {chunk : ObjectChunk} (hchunk : chunk ∈ shape.chunks) :
    shape.owner.block.Has chunk.handle := by
  rcases List.getElem?_of_mem hchunk with ⟨i, hi⟩
  rcases List.getElem?_eq_some_iff.1 hi with ⟨hlt, -⟩
  rw [h.handles shape hshape i chunk hi]
  exact ⟨Nat.le_add_right _ _, Nat.add_lt_add_left hlt _⟩

/-- The ledger when a chunk is done. -/
theorem BooksInv.done_ledger (h : BooksInv hand landed b)
    (hout : (hand ++ landed ++ b.outside).Perm (handle :: (hand' ++ landed' ++ b.outside))) :
    IdLedger b.owners b.blocks b.held (handle :: (hand' ++ landed' ++ b.outside)) :=
  h.ledger.move (hout.symm.append_left b.held) fun _ hid => Or.inl hid

/-- One of several chunks of a workload is done. -/
theorem BooksInv.account_more (h : BooksInv hand landed b) (hshape : shape ∈ b.shapes)
    (hhas : shape.owner.block.Has handle)
    (hout : (hand ++ landed ++ b.outside).Perm (handle :: (hand' ++ landed' ++ b.outside)))
    (hinflight : ((hand' ++ b.outside).countP fun id => isOwned b.owners id) +
      (b.waitingRetries.length + b.waiting.length) ≤ inflight)
    (hmore : 1 < shape.remaining) :
    BooksInv hand' landed' { b with shapes := countDown shape.base b.shapes, inflight } := by
  have hdown := (h.done_ledger hout).count_down (List.mem_map_of_mem hshape) hhas hmore
  have hshapes : ∀ x ∈ countDown shape.base b.shapes, ∃ y ∈ b.shapes,
      x.base = y.base ∧ x.chunks = y.chunks := by
    intro x hx
    rcases List.mem_map.1 hx with ⟨y, hy, rfl⟩
    refine ⟨y, hy, ?_⟩
    split
    · exact ⟨rfl, rfl⟩
    · exact ⟨rfl, rfl⟩
  have howners := owners_countDown shape.base b.shapes
  refine ⟨h.core.transfer rfl rfl rfl rfl (fun _ => Or.inl) (fun _ => Or.inl), ?_, ?_, ?_,
    h.made_pending, ?_, h.copies_eq⟩
  · change IdLedger ((countDown shape.base b.shapes).map WorkloadShape.owner) _ _ _
    rw [howners]
    exact hdown
  · intro x hx i chunk hchunk
    rcases hshapes x hx with ⟨y, hy, hbase, hchunks⟩
    rw [hchunks] at hchunk
    rw [hbase]
    exact h.handles y hy i chunk hchunk
  · intro x hx chunk hchunk
    rcases hshapes x hx with ⟨y, hy, -, hchunks⟩
    rw [hchunks] at hchunk
    exact h.made_shapes y hy chunk hchunk
  · change ((hand' ++ b.outside).countP fun id =>
      isOwned ((countDown shape.base b.shapes).map WorkloadShape.owner) id) +
        (b.waitingRetries.length + b.waiting.length) ≤ inflight
    simp only [howners, isOwned_count_down]
    exact hinflight

/-- The last chunk of a workload is the only one that is not done. -/
theorem BooksInv.none_last (h : BooksInv hand landed b) (hshape : shape ∈ b.shapes)
    (hhas : shape.owner.block.Has handle)
    (hout : (hand ++ landed ++ b.outside).Perm (handle :: (hand' ++ landed' ++ b.outside)))
    (hlast : shape.remaining = 1) {id : Nat} (hid : id ∈ b.outside) :
    ¬ shape.owner.block.Has id := by
  apply (h.done_ledger hout).none_left (List.mem_map_of_mem hshape) hhas hlast
  exact List.mem_append_right _ (List.mem_append_right _ hid)

/-- No other chunk loses its workload when the last chunk of one is done. -/
theorem BooksInv.isOwned_last (h : BooksInv hand landed b) (hshape : shape ∈ b.shapes)
    (hhas : shape.owner.block.Has handle)
    (hout : (hand ++ landed ++ b.outside).Perm (handle :: (hand' ++ landed' ++ b.outside)))
    (hlast : shape.remaining = 1) {id : Nat} (hid : id ∈ hand' ++ b.outside) :
    isOwned ((eraseShape shape.base b.shapes).map WorkloadShape.owner) id =
      isOwned b.owners id := by
  rw [owners_eraseShape]
  apply (h.done_ledger hout).isOwned_finish (List.mem_map_of_mem hshape) hhas hlast
  simp only [List.mem_append] at hid ⊢
  tauto

/-- The last chunk of a workload is done. -/
theorem BooksInv.account_last (h : BooksInv hand landed b) (hshape : shape ∈ b.shapes)
    (hhas : shape.owner.block.Has handle)
    (hout : (hand ++ landed ++ b.outside).Perm (handle :: (hand' ++ landed' ++ b.outside)))
    (hinflight : ((hand' ++ b.outside).countP fun id => isOwned b.owners id) +
      (b.waitingRetries.length + b.waiting.length) ≤ inflight)
    (hlast : shape.remaining = 1) :
    BooksInv hand' landed' { b with shapes := eraseShape shape.base b.shapes, inflight } := by
  have hfinish := (h.done_ledger hout).finish (List.mem_map_of_mem hshape) hhas hlast
  refine ⟨h.core.transfer rfl rfl rfl rfl (fun _ => Or.inl) (fun _ => Or.inl), ?_, ?_, ?_,
    h.made_pending, ?_, h.copies_eq⟩
  · change IdLedger ((eraseShape shape.base b.shapes).map WorkloadShape.owner) _ _ _
    rw [owners_eraseShape]
    exact hfinish
  · intro x hx
    exact h.handles x (List.mem_filter.1 hx).1
  · intro x hx
    exact h.made_shapes x (List.mem_filter.1 hx).1
  · change ((hand' ++ b.outside).countP fun id =>
      isOwned ((eraseShape shape.base b.shapes).map WorkloadShape.owner) id) +
        (b.waitingRetries.length + b.waiting.length) ≤ inflight
    refine le_of_eq_of_le ?_ hinflight
    congr 1
    apply List.countP_congr
    intro id hid
    exact Bool.eq_iff_iff.1 (h.isOwned_last hshape hhas hout hlast hid)

end Account

/-! ## New workloads, and aborts -/

/-- What holds of the books also in the middle of an abort. -/
structure BooksBase (b : Books) : Prop where
  core : BooksCore b
  apart : b.blocks.Pairwise fun x y => x.base + x.size ≤ y.base
  outside_nodup : b.outside.Nodup

/-- Nothing is left but what the plugin still holds. -/
def Books.cleared (b : Books) : Books :=
  { b with
    shapes := []
    pending := []
    inflight := 0
    delayed := []
    waitingRetries := []
    waiting := []
    copies := []
    copying := []
    copiesIssued := 0 }

section Reserve

variable {hand landed : List Nat} {b : Books} {size : Nat} {chunks : List ObjectChunk}

theorem BooksInv.toBase (h : BooksInv hand landed b) : BooksBase b := by
  refine ⟨h.core, h.ledger.apart, ?_⟩
  have hnodup := (List.nodup_append.1 h.ledger.nodup).2.1
  exact (List.nodup_append.1 hnodup).2.1

/-- What an abort leaves. -/
theorem BooksBase.abort (h : BooksBase b) : BooksInv [] [] b.cleared := by
  refine ⟨h.core.transfer rfl rfl rfl rfl (fun _ => Or.inl) (fun _ => Or.inl),
    ⟨h.apart, nofun, List.Pairwise.nil, h.outside_nodup, ?_, nofun, nofun, nofun⟩, nofun, nofun,
    nofun, ?_, rfl⟩
  · intro id hid
    rcases List.mem_map.1 hid with ⟨chunk, hchunk, rfl⟩
    exact h.core.made_known chunk (h.core.made_reads hchunk)
  · have hnone : ∀ id, isOwned ([] : List IdOwner) id = false := fun _ => rfl
    change ((([] : List Nat) ++ b.outside).countP fun id =>
      isOwned ([] : List IdOwner) id) + (0 + 0) ≤ 0
    simp [hnone]

/-- The plugin holds fewer reads. -/
theorem BooksBase.fewer {b' : Books} (h : BooksBase b) (hblocks : b'.blocks = b.blocks)
    (hcounter : b'.handleCounter = b.handleCounter) (hmade : b'.made = b.made)
    (hsubmitted : b'.submitted = b.submitted) (happlied : b'.applied = b.applied)
    (hreads : b'.reads.Sublist b.reads) : BooksBase b' := by
  refine ⟨h.core.transfer hblocks hcounter hmade hsubmitted ?_ ?_, ?_, ?_⟩
  · exact fun chunk hchunk => Or.inl (hreads.subset hchunk)
  · rw [happlied]
    exact fun _ => Or.inl
  · rw [hblocks]
    exact h.apart
  · exact h.outside_nodup.sublist (hreads.map _)

/-- The next block of handles begins behind all others. -/
theorem BooksCore.next_base (h : BooksCore b) (hpos : 0 < size)
    (htotal : b.total + size < 2 ^ 64) : b.handleCounter = 1 + b.total := by
  rw [h.counter]
  exact toWord_of_lt (by omega)

/-- All handles so far are below the next block. -/
theorem BooksCore.above (h : BooksCore b) (hpos : 0 < size) (htotal : b.total + size < 2 ^ 64) :
    ∀ x ∈ b.blocks, x.base + x.size ≤ (IdBlock.mk b.handleCounter size).base := by
  intro x hx
  have hle := (h.below x hx).2
  have hbase := h.next_base hpos htotal
  dsimp only
  omega

/-- A new block of handles, and the chunks that get the first of them. -/
theorem BooksBase.extend (h : BooksBase b) (hpos : 0 < size) (htotal : b.total + size < 2 ^ 64)
    (hhandles : ∀ i chunk, chunks[i]? = some chunk → chunk.handle = b.handleCounter + i)
    (hlength : chunks.length ≤ size) :
    BooksBase
      { b with
        blocks := b.blocks ++ [IdBlock.mk b.handleCounter size]
        handleCounter := wordAdd 64 b.handleCounter size
        made := b.made ++ chunks } := by
  have hbase := h.core.next_base hpos htotal
  have habove := h.core.above hpos htotal
  have hnew : ∀ chunk ∈ chunks, (IdBlock.mk b.handleCounter size).Has chunk.handle := by
    intro chunk hchunk
    rcases List.getElem?_of_mem hchunk with ⟨i, hi⟩
    rcases List.getElem?_eq_some_iff.1 hi with ⟨hlt, -⟩
    rw [hhandles i chunk hi]
    exact ⟨Nat.le_add_right _ _, by dsimp only; omega⟩
  have hsum : ((b.blocks ++ [IdBlock.mk b.handleCounter size]).map IdBlock.size).sum =
      b.total + size := by
    rw [List.map_append, List.sum_append]
    simp [Books.total]
  refine ⟨⟨?_, ?_, ?_, ?_, ?_, h.core.submitted_reads, ?_⟩, apart_concat h.apart habove, h.outside_nodup⟩
  · unfold Books.total
    dsimp only
    rw [hsum, hbase]
    unfold wordAdd
    congr 1
    omega
  · intro block hblock
    unfold Books.total
    dsimp only
    rw [hsum]
    rcases List.mem_append.1 hblock with hold | hlast
    · have hle := h.core.below block hold
      omega
    · rw [List.mem_singleton.1 hlast]
      dsimp only
      omega
  · rw [List.map_append, List.nodup_append]
    refine ⟨h.core.made_nodup, ?_, ?_⟩
    · rw [List.Nodup, List.pairwise_iff_getElem]
      intro i j hi hj hij
      rw [List.length_map] at hi hj
      rw [List.getElem_map, List.getElem_map, hhandles i _ (List.getElem?_eq_getElem hi),
        hhandles j _ (List.getElem?_eq_getElem hj)]
      omega
    · intro x hx y hy heq
      rcases List.mem_map.1 hx with ⟨old, hold, rfl⟩
      rcases List.mem_map.1 hy with ⟨new, hnew', rfl⟩
      rcases h.core.made_known old hold with ⟨block, hblock, hhas⟩
      have hle := habove block hblock
      have hhas' := hnew new hnew'
      unfold IdBlock.Has at hhas hhas'
      omega
  · intro chunk hchunk
    rcases List.mem_append.1 hchunk with hold | hlast
    · rcases h.core.made_known chunk hold with ⟨block, hblock, hhas⟩
      exact ⟨block, List.mem_append_left _ hblock, hhas⟩
    · exact ⟨_, List.mem_append_right _ (List.mem_singleton_self _), hnew chunk hlast⟩
  · intro chunk hchunk
    exact List.mem_append_left _ (h.core.made_submitted chunk hchunk)
  · intro p hp
    rcases h.core.made_applied p hp with ⟨hmade, hhandle⟩
    exact ⟨List.mem_append_left _ hmade, hhandle⟩

/-- A workload is enqueued. -/
theorem BooksInv.reserve {shapes : List WorkloadShape} (h : BooksInv [] [] b)
    (hpos : 0 < chunks.length) (htotal : b.total + chunks.length < 2 ^ 64)
    (hhandles : ∀ i chunk, chunks[i]? = some chunk → chunk.handle = b.handleCounter + i)
    (hmem : ∀ x, x ∈ shapes ↔
      x = { base := b.handleCounter, chunks, remaining := chunks.length } ∨ x ∈ b.shapes)
    (hsorted : (shapes.map WorkloadShape.owner).Pairwise fun x y => x.block.base < y.block.base) :
    BooksInv [] []
      { b with
        shapes
        blocks := b.blocks ++ [IdBlock.mk b.handleCounter chunks.length]
        handleCounter := wordAdd 64 b.handleCounter chunks.length
        made := b.made ++ chunks
        pending := b.pending ++ chunks.map fun chunk => (chunk, 1) } := by
  have hext := h.toBase.extend hpos htotal hhandles (Nat.le_refl _)
  let o : IdOwner := ⟨⟨b.handleCounter, chunks.length⟩, chunks.length⟩
  have habove : ∀ x ∈ b.blocks, x.base + x.size ≤ o.block.base := h.core.above hpos htotal
  have howners : ∀ x, x ∈ shapes.map WorkloadShape.owner ↔ x = o ∨ x ∈ b.owners := by
    intro x
    rw [List.mem_map]
    constructor
    · rintro ⟨shape, hshape, rfl⟩
      rcases (hmem shape).1 hshape with rfl | hold
      · exact Or.inl rfl
      · exact Or.inr (List.mem_map_of_mem hold)
    · rintro (rfl | hold)
      · exact ⟨_, (hmem _).2 (Or.inl rfl), rfl⟩
      · rcases List.mem_map.1 hold with ⟨shape, hshape, rfl⟩
        exact ⟨shape, (hmem shape).2 (Or.inr hshape), rfl⟩
  have hrange : (chunks.map fun chunk => (chunk, 1)).map (fun item => item.1.handle) =
      List.range' o.block.base o.block.size := by
    rw [List.map_map]
    apply List.ext_getElem
    · rw [List.length_map, List.length_range']
    · intro i hi hi'
      rw [List.length_map] at hi
      rw [List.getElem_map, List.getElem_range', Nat.one_mul]
      exact hhandles i _ (List.getElem?_eq_getElem hi)
  have hledger := h.ledger.reserve habove hpos rfl howners hsorted
  refine ⟨hext.core.transfer rfl rfl rfl rfl (fun _ => Or.inl) (fun _ => Or.inl), ?_, ?_, ?_, ?_, ?_,
    h.copies_eq⟩
  · apply hledger.move
    · rw [List.perm_iff_count]
      intro a
      simp only [Books.held, Books.outside, List.map_append, hrange, List.count_append]
      omega
    · intro id hid
      left
      simp only [Books.held, List.map_append, hrange, List.mem_append] at hid ⊢
      tauto
  · intro shape hshape i chunk hchunk
    rcases (hmem shape).1 hshape with rfl | hold
    · exact hhandles i chunk hchunk
    · exact h.handles shape hold i chunk hchunk
  · intro shape hshape chunk hchunk
    rcases (hmem shape).1 hshape with rfl | hold
    · exact List.mem_append_right _ hchunk
    · exact List.mem_append_left _ (h.made_shapes shape hold chunk hchunk)
  · intro item hitem
    rcases List.mem_append.1 hitem with hold | hnew
    · rcases h.made_pending item hold with ⟨hmade, hcost⟩
      exact ⟨List.mem_append_left _ hmade, hcost⟩
    · rcases List.mem_map.1 hnew with ⟨chunk, hchunk, rfl⟩
      exact ⟨List.mem_append_right _ hchunk, rfl⟩
  · have hcredit := h.credit
    change (([] ++ b.outside).countP fun id =>
      isOwned (shapes.map WorkloadShape.owner) id) +
        (b.waitingRetries.length + b.waiting.length) ≤ b.inflight
    refine le_of_eq_of_le ?_ hcredit
    congr 1
    apply List.countP_congr
    intro id hid
    have hmem' : id ∈ b.held ++ ([] ++ [] ++ b.outside) := List.mem_append_right _ hid
    have hsame := h.ledger.isOwned_reserve habove howners hmem'
    exact Bool.eq_iff_iff.1 hsame

end Reserve

end ObjectStorage
end ModelStreamer
