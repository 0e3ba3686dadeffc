import ModelStreamer.ObjectStorage.WorkerAccounts

/-!
# Where a completion goes

{lit}`locate` finds the chunk of a handle in the books, and nothing else.

Main results:

- Theorem {lit}`BooksInv.locate_eq_some`: {lit}`locate` finds the chunk with the handle.
- Theorem {lit}`BooksInv.locate_eq_none`: {lit}`locate` finds nothing for a handle that is in no
  block of a workload.
-/

namespace ModelStreamer
namespace ObjectStorage

open Common DeviceIo.Staging Lib Streamer

/-! ## Locating a chunk -/

/-- A chunk of a workload, at its place. -/
def Books.Located (b : Books) (base index : Nat) (chunk : ObjectChunk) : Prop :=
  ∃ shape ∈ b.shapes, shape.base = base ∧ shape.chunks[index]? = some chunk

section Locate

variable {hand landed : List Nat} {b : Books} {w : Worker} {base index handle : Nat}
  {chunk : ObjectChunk}

/-- The worker has the chunk. -/
theorem Books.Located.chunkAt (h : w.books.Located base index chunk) :
    ∃ wl cs, w.chunkAt base index = some (wl, cs) ∧ cs.chunk = chunk := by
  rcases h with ⟨shape, hshape, hbase, hchunk⟩
  rcases List.mem_map.1 hshape with ⟨⟨key, wl⟩, hentry, rfl⟩
  change key = base at hbase
  subst hbase
  change (wl.chunks.map ChunkState.chunk)[index]? = some chunk at hchunk
  rw [List.getElem?_map, Option.map_eq_some_iff] at hchunk
  rcases hchunk with ⟨cs, hcs, heq⟩
  refine ⟨wl, cs, ?_, heq⟩
  unfold Worker.chunkAt
  rw [OrderedMap.find?_eq_some.2 hentry, Option.bind_some, hcs]
  rfl

/-- The chunk is the one with the handle of its place, it has an owner, and it was made. -/
theorem BooksInv.of_located (h : BooksInv hand landed b) (hlocated : b.Located base index chunk) :
    chunk.handle = base + index ∧ isOwned b.owners chunk.handle = true ∧ chunk ∈ b.made := by
  rcases hlocated with ⟨shape, hshape, rfl, hchunk⟩
  have hmem := List.mem_of_getElem? hchunk
  refine ⟨h.handles shape hshape index chunk hchunk, ?_, h.made_shapes shape hshape chunk hmem⟩
  exact isOwned_iff.2 ⟨_, List.mem_map_of_mem hshape, h.has_of_mem hshape hmem⟩

/-- What {lit}`locate` points at is a chunk of a workload. -/
theorem located_of_locate (hlocate : w.locate handle = some (base, index)) :
    base + index = handle ∧ ∃ chunk, w.books.Located base index chunk := by
  unfold Worker.locate at hlocate
  cases hfloor : w.workloads.floor handle with
  | none =>
      rw [hfloor] at hlocate
      cases hlocate
  | some e =>
      rcases e with ⟨key, wl⟩
      rcases OrderedMap.floor_eq_some hfloor with ⟨hentry, hle, -⟩
      rw [hfloor] at hlocate
      dsimp only at hlocate hle
      split at hlocate
      · cases hlocate
      · rename_i hlt
        cases hlocate
        refine ⟨by omega, wl.chunks[handle - base].chunk, shapeOf (base, wl),
          List.mem_map_of_mem hentry, rfl, ?_⟩
        change (wl.chunks.map ChunkState.chunk)[handle - base]? = _
        rw [List.getElem?_map, List.getElem?_eq_getElem (by omega)]
        rfl

/-- {lit}`locate` finds every chunk of every workload by its handle. -/
theorem BooksInv.locate_of_located (h : BooksInv hand landed w.books)
    (hlocated : w.books.Located base index chunk) : w.locate (base + index) = some (base, index) := by
  rcases hlocated with ⟨shape, hshape, hbase, hchunk⟩
  rcases List.getElem?_eq_some_iff.1 hchunk with ⟨hlt, -⟩
  rcases List.mem_map.1 hshape with ⟨⟨key, wl⟩, hentry, rfl⟩
  change key = base at hbase
  subst hbase
  change index < (wl.chunks.map ChunkState.chunk).length at hlt
  rw [List.length_map] at hlt
  unfold Worker.locate
  cases hfloor : w.workloads.floor (key + index) with
  | none =>
      have habove := OrderedMap.floor_eq_none hfloor _ hentry
      dsimp only at habove
      omega
  | some e =>
      rcases e with ⟨key', wl'⟩
      rcases OrderedMap.floor_eq_some hfloor with ⟨hentry', hle, hmax⟩
      have hkey := hmax _ hentry (Nat.le_add_right _ _)
      dsimp only at hle hkey
      have hblock := h.ledger.owned (shapeOf (key, wl)).owner
        (List.mem_map_of_mem (List.mem_map_of_mem hentry))
      have hblock' := h.ledger.owned (shapeOf (key', wl')).owner
        (List.mem_map_of_mem (List.mem_map_of_mem hentry'))
      have hsame : key = key' := by
        rcases eq_or_apart h.ledger.apart hblock hblock' with heq | hbelow | habove
        · exact congrArg IdBlock.base heq
        · change key + (wl.chunks.map ChunkState.chunk).length ≤ key' at hbelow
          rw [List.length_map] at hbelow
          omega
        · change key' + _ ≤ key at habove
          omega
      subst hsame
      rw [OrderedMap.eq_of_mem hentry' hentry]
      dsimp only
      rw [Nat.add_sub_cancel_left, if_neg (by omega)]

/-- What {lit}`locate` finds is the chunk of the handle. -/
theorem BooksInv.locate_eq_some (h : BooksInv hand landed w.books) :
    w.locate handle = some (base, index) ↔
      ∃ chunk, w.books.Located base index chunk ∧ chunk.handle = handle := by
  constructor
  · intro hlocate
    rcases located_of_locate hlocate with ⟨hsum, chunk, hlocated⟩
    exact ⟨chunk, hlocated, (h.of_located hlocated).1.trans hsum⟩
  · rintro ⟨chunk, hlocated, rfl⟩
    rw [(h.of_located hlocated).1]
    exact h.locate_of_located hlocated

/-- {lit}`locate` finds every handle that has an owner. -/
theorem BooksInv.locate_of_owned (h : BooksInv hand landed w.books)
    (howned : isOwned w.books.owners handle = true) :
    ∃ base index chunk, w.locate handle = some (base, index) ∧
      w.books.Located base index chunk ∧ chunk.handle = handle := by
  rcases isOwned_iff.1 howned with ⟨o, ho, hle, hlt⟩
  rcases List.mem_map.1 ho with ⟨shape, hshape, rfl⟩
  change shape.base ≤ handle at hle
  change handle < shape.base + shape.chunks.length at hlt
  have hlocated : w.books.Located shape.base (handle - shape.base)
      shape.chunks[handle - shape.base] :=
    ⟨shape, hshape, rfl, List.getElem?_eq_getElem (by omega)⟩
  have hhandle := (h.of_located hlocated).1
  refine ⟨_, _, _, h.locate_eq_some.2 ⟨_, hlocated, ?_⟩, hlocated, ?_⟩
  · omega
  · omega

/-- {lit}`locate` finds nothing for a handle that has no owner. -/
theorem BooksInv.locate_eq_none (h : BooksInv hand landed w.books) :
    w.locate handle = none ↔ isOwned w.books.owners handle = false := by
  constructor
  · intro hnone
    rw [Bool.eq_false_iff]
    intro howned
    rcases h.locate_of_owned howned with ⟨base, index, chunk, hlocate, -⟩
    rw [hnone] at hlocate
    cases hlocate
  · intro hdead
    cases hlocate : w.locate handle with
    | none => rfl
    | some place =>
        rcases h.locate_eq_some.1 hlocate with ⟨chunk, hlocated, rfl⟩
        rw [(h.of_located hlocated).2.1] at hdead
        cases hdead

end Locate

end ObjectStorage
end ModelStreamer
