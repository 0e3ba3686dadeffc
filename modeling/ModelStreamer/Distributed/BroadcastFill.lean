import ModelStreamer.Distributed.Broadcast
import Mathlib.Algebra.Order.Ring.Int

/-!
# Filling a staging buffer

A batch holds the chunks that were ready, in their order, each at its offset; the chunk that did
not fit is the first one of the next batch.

Main results:

- Theorem {lit}`prefillLoop_spec`: the loop takes the pending chunks in their order.
- Theorem {lit}`prefill_spec`: what a batch takes, and what is left for the next one.
-/

namespace ModelStreamer
namespace Distributed
namespace Broadcast

open Lib

variable {β : Type*}

/-! ## Batches -/

/-- A chunk under its original file and index. -/
def ReadyChunk.original (dict : Nat → Nat → Nat × Nat) (chunk : ReadyChunk β) : Yielded β :=
  { file := (dict chunk.id chunk.index).1
    chunk := (dict chunk.id chunk.index).2
    bytes := chunk.bytes }

/-- The chunks that a rank has not sent, in the order in which it will. -/
def Staging.pending (st : Staging β) : List (ReadyChunk β) :=
  st.leftover.toList ++ st.ready

/-- The chunks of a batch, read by the first rows. -/
def unpack (count : Nat) (rows : Nat → MetaRow) (buffer : Nat → β) : List (Yielded β) :=
  (List.range count).map fun j => (rows j).read buffer

/-- The rows name slices of the batch, and the last one ends it. -/
structure RowsOk (limit count dataSize : Nat) (rows : Nat → MetaRow) : Prop where
  inside : ∀ j < count, (rows j).offset + (rows j).size ≤ dataSize
  last : 0 < count → (rows (count - 1)).offset + (rows (count - 1)).size = dataSize
  le : dataSize ≤ limit

@[simp]
theorem length_unpack {count : Nat} {rows : Nat → MetaRow} {buffer : Nat → β} :
    (unpack count rows buffer).length = count := by
  simp [unpack]

/-- The next chunk of a batch. -/
theorem drop_unpack {count j : Nat} (rows : Nat → MetaRow) (buffer : Nat → β) (hj : j < count) :
    (unpack count rows buffer).drop j =
      (rows j).read buffer :: (unpack count rows buffer).drop (j + 1) := by
  unfold unpack
  rw [← List.map_drop, ← List.map_drop, List.drop_eq_getElem_cons (by simpa using hj),
    List.getElem_range]
  rfl

section Fill

variable {g : Group} {rank limit : Nat} {st st' : Staging β} {chunk : ReadyChunk β}

/-- The next chunk is the first pending one. -/
theorem next_eq_some (h : st.next = some (chunk, st')) :
    st.pending = chunk :: st'.pending ∧ st'.leftover = none ∧ st'.data = st.data ∧
      st'.batch = st.batch ∧ st'.dataSize = st.dataSize ∧ st'.count = st.count ∧
      st'.readingFromStorage = st.readingFromStorage := by
  unfold Staging.next at h
  split at h
  · rename_i hleftover
    cases h
    refine ⟨?_, rfl, rfl, rfl, rfl, rfl, rfl⟩
    unfold Staging.pending
    rw [hleftover]
    rfl
  · rename_i hleftover
    split at h
    · cases h
    · rename_i hready
      cases h
      refine ⟨?_, hleftover, rfl, rfl, rfl, rfl, rfl⟩
      unfold Staging.pending
      rw [hleftover, hready]
      rfl

/-- There is a next chunk exactly when one is pending. -/
theorem next_eq_none (h : st.next = none) : st.pending = [] := by
  unfold Staging.next at h
  unfold Staging.pending
  split at h
  · cases h
  · rename_i hleftover
    split at h
    · rename_i hready
      rw [hleftover, hready]
      rfl
    · cases h

/-- A chunk that is put behind the batch. -/
theorem put_spec {dict : Nat → Nat → Nat × Nat} {offset : Nat}
    (hrows : RowsOk limit st.count st.dataSize st.batch.rows) (hoffset : st.dataSize ≤ offset)
    (hfits : offset + chunk.bytes.length ≤ limit) :
    RowsOk limit (st.put dict chunk offset).count (st.put dict chunk offset).dataSize
        (st.put dict chunk offset).batch.rows ∧
      unpack (st.put dict chunk offset).count (st.put dict chunk offset).batch.rows
          (st.put dict chunk offset).data =
        unpack st.count st.batch.rows st.data ++ [chunk.original dict] := by
  have hold : ∀ j < st.count, (st.put dict chunk offset).batch.rows j = st.batch.rows j := by
    intro j hj
    exact Function.update_of_ne (by omega) _ _
  have hnew : (st.put dict chunk offset).batch.rows st.count =
      { file := (dict chunk.id chunk.index).1, chunk := (dict chunk.id chunk.index).2,
        size := chunk.bytes.length, offset } :=
    Function.update_self _ _ _
  constructor
  · refine ⟨fun j hj => ?_, fun _ => ?_, hfits⟩
    · change j < st.count + 1 at hj
      change _ ≤ offset + chunk.bytes.length
      rcases Nat.lt_or_eq_of_le (Nat.lt_succ_iff.1 hj) with hlt | rfl
      · rw [hold j hlt]
        have hinside := hrows.inside j hlt
        omega
      · rw [hnew]
    · have hlast : (st.put dict chunk offset).count - 1 = st.count := Nat.add_sub_cancel ..
      rw [hlast, hnew]
      rfl
  · unfold unpack
    change List.map _ (List.range (st.count + 1)) = _
    rw [List.range_succ, List.map_append, List.map_singleton, hnew]
    congr 1
    · apply List.map_congr_left
      intro j hj
      have hj := List.mem_range.1 hj
      have hinside := hrows.inside j hj
      rw [hold j hj]
      unfold MetaRow.read
      congr 1
      exact readAt_writeAt_apart (Or.inl (by omega))
    · unfold MetaRow.read ReadyChunk.original
      simp only [List.cons.injEq, Yielded.mk.injEq, and_true, true_and]
      exact readAt_writeAt

theorem le_alignedOffset (basePtr currentOffset alignment : Nat) :
    currentOffset ≤ alignedOffset basePtr currentOffset alignment := by
  unfold alignedOffset
  split
  · exact Nat.le_refl _
  · exact Nat.le_add_right _ _

/-- The first chunk of a batch is at the start of the staging buffer. -/
theorem alignedOffset_zero (rawPtr alignment : Nat) :
    alignedOffset (stagingPtr rawPtr alignment) 0 alignment = 0 := by
  unfold alignedOffset stagingPtr
  split
  · rfl
  · rename_i halignment
    have hnonneg : 0 ≤ (-(rawPtr : Int)) % alignment := Int.emod_nonneg _ (by omega)
    have hcast : ((rawPtr + ((-(rawPtr : Int)) % alignment).toNat + 0 : Nat) : Int) =
        rawPtr + (-(rawPtr : Int)) % alignment := by
      rw [Nat.add_zero, Nat.cast_add, Int.toNat_of_nonneg hnonneg]
    have hzero : (-((rawPtr : Int) + (-(rawPtr : Int)) % alignment)) % alignment = 0 := by
      rw [neg_add, ← sub_eq_add_neg, Int.sub_emod, Int.emod_emod, ← Int.sub_emod, sub_self,
        Int.zero_emod]
    rw [hcast, hzero]
    rfl

/-- What the loop of {lit}`prefill` adds to a batch. -/
structure Filled (g : Group) (rank room : Nat) (st st' : Staging β)
    (taken : List (ReadyChunk β)) : Prop where
  pending : st.pending = taken ++ st'.pending
  rows : RowsOk g.bufferBytesize st'.count st'.dataSize st'.batch.rows
  unpack : unpack st'.count st'.batch.rows st'.data =
    unpack st.count st.batch.rows st.data ++ taken.map (ReadyChunk.original (g.dicts rank))
  count : st'.count = st.count + taken.length
  length_le : taken.length ≤ room
  reading : st'.readingFromStorage = st.readingFromStorage
  /-- The loop stops before the batch is full only for a chunk that does not fit. -/
  stops : taken = [] → 0 < room → ∀ chunk ∈ st.pending.head?,
    g.bufferBytesize < alignedOffset (stagingPtr (g.rawPtr rank) g.alignment) st.dataSize
      g.alignment + chunk.bytes.length

/-- The loop of {lit}`prefill` takes the pending chunks in their order. -/
theorem prefillLoop_spec (room : Nat)
    (hrows : RowsOk g.bufferBytesize st.count st.dataSize st.batch.rows) :
    ∃ taken, Filled g rank room st (prefillLoop g rank room st) taken := by
  induction room generalizing st with
  | zero =>
      refine ⟨[], rfl, hrows, ?_, rfl, Nat.le_refl 0, rfl, ?_⟩
      · exact (List.append_nil _).symm
      · intro _ hpos
        exact absurd hpos (Nat.lt_irrefl 0)
  | succ room ih =>
      unfold prefillLoop
      cases hnext : st.next with
      | none =>
          refine ⟨[], rfl, hrows, (List.append_nil _).symm, rfl, Nat.zero_le _, rfl, ?_⟩
          intro _ _ chunk hchunk
          rw [next_eq_none hnext] at hchunk
          cases hchunk
      | some next =>
          rcases next with ⟨chunk, rest⟩
          rcases next_eq_some hnext with ⟨hpending, hnone, hdata, hbatch, hsize, hcount, hreading⟩
          dsimp only
          split
          · rename_i hfull
            rw [hsize] at hfull
            refine ⟨[], ?_, ?_, ?_, ?_, Nat.zero_le _, hreading, ?_⟩
            · rw [hpending]
              unfold Staging.pending
              rw [hnone]
              rfl
            · change RowsOk _ rest.count rest.dataSize rest.batch.rows
              rw [hcount, hsize, hbatch]
              exact hrows
            · change Broadcast.unpack rest.count rest.batch.rows rest.data = _
              rw [hcount, hbatch, hdata]
              exact (List.append_nil _).symm
            · exact hcount
            · intro _ _ other hother
              rw [hpending] at hother
              rw [← Option.some.inj hother]
              exact hfull
          · rename_i hfits
            have hrest : RowsOk g.bufferBytesize rest.count rest.dataSize rest.batch.rows := by
              rw [hcount, hsize, hbatch]
              exact hrows
            have hput := @put_spec β g.bufferBytesize rest chunk (g.dicts rank) _ hrest
              (le_alignedOffset (stagingPtr (g.rawPtr rank) g.alignment) _ g.alignment)
              (Nat.not_lt.1 hfits)
            rcases ih hput.1 with ⟨taken, hfilled⟩
            refine ⟨chunk :: taken, ?_, hfilled.rows, ?_, ?_, ?_, ?_, nofun⟩
            · rw [hpending, List.cons_append, ← hfilled.pending]
              rfl
            · rw [hfilled.unpack, hput.2, hcount, hbatch, hdata, List.append_assoc]
              rfl
            · rw [hfilled.count, List.length_cons]
              change rest.count + 1 + taken.length = _
              omega
            · rw [List.length_cons]
              have hle := hfilled.length_le
              omega
            · rw [hfilled.reading]
              exact hreading

/-- What {lit}`prefill` does to a rank. -/
structure Prefilled (g : Group) (rank : Nat) (st st' : Staging β)
    (taken : List (ReadyChunk β)) : Prop where
  pending : st.pending = taken ++ st'.pending
  rows : RowsOk g.bufferBytesize st'.count st'.dataSize st'.batch.rows
  unpack : unpack st'.count st'.batch.rows st'.data =
    taken.map (ReadyChunk.original (g.dicts rank))
  count : st'.count = taken.length
  batch_count : st'.batch.count = st'.count
  length_le : taken.length ≤ maxChunksPerBatch
  reading : st'.readingFromStorage = st.readingFromStorage
  /-- A rank that has a chunk left sends one. -/
  sends : (∀ chunk ∈ st.pending, chunk.bytes.length ≤ g.maxChunk) → taken = [] →
    st.pending = []

/-- What a batch takes, and what is left for the next one. -/
theorem prefill_spec (g : Group) (rank : Nat) (st : Staging β)
    (hreading : st.readingFromStorage = false → st.pending = []) :
    ∃ taken, Prefilled g rank st (prefill g rank st) taken := by
  have hempty : RowsOk g.bufferBytesize 0 0 st.batch.rows :=
    ⟨nofun, fun h => absurd h (Nat.lt_irrefl 0), Nat.zero_le _⟩
  unfold prefill
  dsimp only
  split
  · rename_i hread
    rcases @prefillLoop_spec β g rank { st with dataSize := 0, count := 0 } maxChunksPerBatch
      hempty with ⟨taken, hfilled⟩
    refine ⟨taken, hfilled.pending, hfilled.rows, hfilled.unpack, ?_, rfl, hfilled.length_le,
      hfilled.reading, fun hsizes htaken => ?_⟩
    · exact hfilled.count.trans (Nat.zero_add _)
    · have hstops := hfilled.stops htaken (by decide)
      by_contra hsome
      rcases List.exists_cons_of_ne_nil hsome with ⟨chunk, rest, hpending⟩
      have hhead : chunk ∈ st.pending.head? := by
        rw [hpending]
        rfl
      have hfull := hstops chunk hhead
      have hle := hsizes chunk (List.mem_of_head? hhead)
      dsimp only at hfull
      rw [alignedOffset_zero, Nat.zero_add] at hfull
      unfold Group.bufferBytesize at hfull
      omega
  · rename_i hread
    have hnone := hreading (Bool.eq_false_iff.2 hread)
    exact ⟨[], rfl, hempty, rfl, rfl, rfl, Nat.zero_le _, rfl, fun _ _ => hnone⟩

end Fill

end Broadcast
end Distributed
end ModelStreamer
