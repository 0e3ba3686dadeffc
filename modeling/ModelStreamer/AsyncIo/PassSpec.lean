import ModelStreamer.AsyncIo.DirectPass

/-!
# Where passes read to

A chunk is read into the caller's memory or into its staging buffer, and every position of
the file has one place there.  A pass that does not go through scratch writes each byte to
its place, and stays inside the memory behind it.

Main results:

- Theorem {lit}`EntryOk.inPlace`: passes of any shape but the bounced one are in place.
- Theorem {lit}`EntryOk.useful_pos`: a pass that is served in full brings bytes of the chunk.
-/

namespace ModelStreamer
namespace AsyncIo

open Common Lib Streamer PosixIo

/-! ## Entries between passes -/

/-- What the passes of a chunk keep of its entry. -/
structure EntryOk (strategy : Strategy) (mountBlock : Nat) (chunk : Chunk)
    (staging : Option StagingBuffer) (direct : Bool) (block : Nat) (entry : InflightChunk) :
    Prop where
  chunk_eq : entry.chunk = chunk
  staging_eq : entry.staging = staging
  direct_of : direct = true → strategy.isDirect = true
  block_pos : 0 < block
  block_dvd : block ∣ mountBlock
  cursor_le : chunk.offset ≤ entry.cursor
  stop_eq : entry.cursor + entry.remaining = chunk.offset + chunk.bytesize
  remaining_pos : 0 < entry.remaining
  notBouncing : entry.bounces = false
  skip_direct : entry.stagingSkip ≠ 0 → strategy.isDirect = true
  skip_lt : entry.stagingSkip < mountBlock
  skip_placed : direct = true → staging.isSome = true → entry.cursor = chunk.offset ∨
    ∃ placedAt, block ∣ placedAt ∧ entry.stagingSkip = chunk.offset % placedAt

/-- What the passes of a chunk need from the sizes of the mount and of the settings. -/
structure RoomOk (strategy : Strategy) (mountBlock settingsChunk : Nat) (chunk : Chunk)
    (staging : Option StagingBuffer) : Prop where
  mountBlock_pos : 0 < mountBlock
  bytesize_le : chunk.bytesize ≤ settingsChunk
  staging_size : ∀ buffer, staging = some buffer →
    buffer.bytesize = stagingBytesize settingsChunk mountBlock strategy.isDirect

section Entries

variable {strategy : Strategy} {mountBlock settingsChunk : Nat} {chunk : Chunk}
  {staging : Option StagingBuffer} {direct : Bool} {block : Nat} {entry : InflightChunk}

/-- An entry as {lit}`InflightChunks::add` made it. -/
theorem entryOk_make (workloadId batchIndex : Nat) (hpos : 0 < chunk.bytesize)
    (hmount : 0 < mountBlock) (hdirect : direct = true → strategy.isDirect = true)
    (hblock : 0 < block) (hdvd : block ∣ mountBlock) :
    EntryOk strategy mountBlock chunk staging direct block
      { InflightChunk.make chunk workloadId batchIndex with staging } :=
  { chunk_eq := rfl
    staging_eq := rfl
    direct_of := hdirect
    block_pos := hblock
    block_dvd := hdvd
    cursor_le := le_refl _
    stop_eq := rfl
    remaining_pos := hpos
    notBouncing := rfl
    skip_direct := fun hne => absurd rfl hne
    skip_lt := hmount
    skip_placed := fun _ _ => Or.inl rfl }

/-- A smaller block keeps the entry, when it divides the block in force. -/
theorem EntryOk.adopt (h : EntryOk strategy mountBlock chunk staging direct block entry)
    {block' : Nat} (hblock : 0 < block') (hdvd : block' ∣ block) :
    EntryOk strategy mountBlock chunk staging direct block' entry := by
  refine { h with block_pos := hblock, block_dvd := hdvd.trans h.block_dvd, skip_placed := ?_ }
  intro hdirect hstaging
  refine (h.skip_placed hdirect hstaging).imp_right ?_
  rintro ⟨placedAt, hplaced, hskip⟩
  exact ⟨placedAt, hdvd.trans hplaced, hskip⟩

/-- A file that is read buffered asks less of the entry. -/
theorem EntryOk.demote (h : EntryOk strategy mountBlock chunk staging direct block entry) :
    EntryOk strategy mountBlock chunk staging false block entry :=
  { h with
    direct_of := fun hfalse => absurd hfalse (by decide)
    skip_placed := fun hfalse => absurd hfalse (by decide) }

/-- Placing the entry for the next pass keeps all of it. -/
theorem EntryOk.placeInStaging (h : EntryOk strategy mountBlock chunk staging direct block entry)
    (hmount : 0 < mountBlock) :
    EntryOk strategy mountBlock chunk staging direct block
      (entry.placeInStaging block direct) := by
  unfold InflightChunk.placeInStaging
  split
  · rename_i hplace
    have hlt : entry.chunk.offset % block < mountBlock :=
      lt_of_lt_of_le (Nat.mod_lt _ h.block_pos) (Nat.le_of_dvd hmount h.block_dvd)
    exact { h with
      skip_direct := fun _ => h.direct_of hplace.1
      skip_lt := hlt
      skip_placed := fun _ _ => Or.inr ⟨block, dvd_refl block, by simp [h.chunk_eq]⟩ }
  · exact h

/-- The skip of a placed entry is a remainder at a block that the block in force divides. -/
theorem EntryOk.placed (h : EntryOk strategy mountBlock chunk staging direct block entry)
    (hdirect : direct = true) (hstaging : staging.isSome = true) :
    ∃ placedAt, block ∣ placedAt ∧
      (entry.placeInStaging block direct).stagingSkip = chunk.offset % placedAt := by
  by_cases hcursor : entry.cursor = chunk.offset
  · refine ⟨block, dvd_refl block, ?_⟩
    unfold InflightChunk.placeInStaging
    rw [if_pos ⟨hdirect, by rw [h.staging_eq]; exact hstaging, by rw [h.chunk_eq]; exact hcursor⟩]
    rw [h.chunk_eq]
  · obtain ⟨placedAt, hdvd, hskip⟩ := (h.skip_placed hdirect hstaging).resolve_left hcursor
    refine ⟨placedAt, hdvd, ?_⟩
    unfold InflightChunk.placeInStaging
    rw [if_neg]
    · exact hskip
    · rw [h.chunk_eq]
      exact fun hplace => hcursor hplace.2.2

/-- A short pass of a placed entry leaves an entry for the next pass. -/
theorem EntryOk.advance (h : EntryOk strategy mountBlock chunk staging direct block entry)
    (hplaced : direct = true → staging.isSome = true →
      ∃ placedAt, block ∣ placedAt ∧ entry.stagingSkip = chunk.offset % placedAt)
    {count : Nat} (hlt : count < entry.remaining) :
    EntryOk strategy mountBlock chunk staging direct block
      { entry with cursor := entry.cursor + count, remaining := entry.remaining - count } := by
  have hstop := h.stop_eq
  have hle := h.cursor_le
  exact { h with
    cursor_le := by simp only; omega
    stop_eq := by simp only; omega
    remaining_pos := by simp only; omega
    skip_placed := fun hdirect hstaging => Or.inr (hplaced hdirect hstaging) }

/-! ## Counts -/

/-- A count that covers what was owed completes the chunk. -/
theorem record_complete {entry : InflightChunk} {count : Nat} (h : entry.remaining ≤ count) :
    entry.record count =
      (.complete, { entry with cursor := entry.cursor + entry.remaining, remaining := 0 }) :=
  if_pos h

/-- A count of zero is taken for the end of the file while bytes are owed. -/
theorem record_zero {entry : InflightChunk} (h : 0 < entry.remaining) :
    entry.record 0 = (.eof, entry) := by
  unfold InflightChunk.record
  rw [if_neg (by omega), if_pos rfl]

/-- A short count advances the cursor. -/
theorem record_short {entry : InflightChunk} {count : Nat} (hpos : 0 < count)
    (hlt : count < entry.remaining) :
    entry.record count =
      (.partialRead,
        { entry with cursor := entry.cursor + count, remaining := entry.remaining - count }) := by
  unfold InflightChunk.record
  rw [if_neg (by omega), if_neg (by omega)]

/-- A short read advances the entry and leaves bytes to read. -/
theorem record_partialRead {entry entry' : InflightChunk} {count : Nat}
    (h : entry.record count = (.partialRead, entry')) :
    0 < count ∧ count < entry.remaining ∧
      entry' =
        { entry with cursor := entry.cursor + count, remaining := entry.remaining - count } := by
  unfold InflightChunk.record at h
  split_ifs at h with hall hzero
  · cases h
  · cases h
  · cases h
    exact ⟨by omega, by omega, rfl⟩

/-- A count above zero is never taken for the end of the file. -/
theorem record_ne_eof {entry : InflightChunk} {count : Nat} (h : 0 < count) :
    (entry.record count).1 ≠ .eof := by
  unfold InflightChunk.record
  split_ifs with hall hzero
  · simp
  · omega
  · simp

/-! ## Places -/

/-- Where the memory behind the chunk starts. -/
def InflightChunk.area (entry : InflightChunk) : Addr :=
  match entry.staging with
  | some buffer => buffer.data
  | none => entry.chunk.buffer

/-- How far into that memory the chunk starts. -/
def InflightChunk.lead (entry : InflightChunk) : Nat :=
  match entry.staging with
  | some _ => entry.stagingSkip
  | none => 0

/-- How long that memory is. -/
def InflightChunk.room (entry : InflightChunk) : Nat :=
  match entry.staging with
  | some buffer => buffer.bytesize
  | none => entry.chunk.bytesize

theorem InflightChunk.base_eq (entry : InflightChunk) :
    entry.base = ptrAdd entry.area entry.lead := by
  unfold InflightChunk.base InflightChunk.area InflightChunk.lead
  cases entry.staging <;> simp

theorem InflightChunk.pending_buffer (entry : InflightChunk) :
    entry.pending.buffer =
      ptrAdd entry.area (entry.lead + (entry.cursor - entry.chunk.offset)) := by
  rw [InflightChunk.pending, InflightChunk.base_eq, ptrAdd_ptrAdd]

/--
Each byte of the pass goes to its place: the pass starts {lit}`at_` bytes into the memory
behind the chunk, and stays inside it.
-/
def DirectPass.InPlace (pass : DirectPass) (entry : InflightChunk) : Prop :=
  ∃ at_, pass.buffer = ptrAdd entry.area at_ ∧
    pass.offset + entry.lead = entry.chunk.offset + at_ ∧
    at_ + pass.bytesize ≤ entry.room

/-- The place of the chunk in the memory behind it leaves room for it. -/
theorem EntryOk.lead_add_le (h : EntryOk strategy mountBlock chunk staging direct block entry)
    (hroom : RoomOk strategy mountBlock settingsChunk chunk staging) :
    entry.lead + chunk.bytesize ≤ entry.room := by
  have hchunk := hroom.bytesize_le
  have hlt := h.skip_lt
  unfold InflightChunk.lead InflightChunk.room
  rw [h.staging_eq, h.chunk_eq]
  cases hstaging : staging with
  | none => simp
  | some buffer =>
      simp only [hroom.staging_size buffer hstaging, stagingBytesize]
      by_cases hstrategy : strategy.isDirect = true
      · rw [if_pos hstrategy]
        have hle := le_ceilTo hroom.mountBlock_pos (settingsChunk + mountBlock - 1)
        omega
      · rw [if_neg hstrategy]
        have hskip : entry.stagingSkip = 0 := by
          by_contra hne
          exact hstrategy (h.skip_direct hne)
        omega

/-- A read at the cursor of at most what is pending is in place. -/
theorem EntryOk.exact_inPlace (h : EntryOk strategy mountBlock chunk staging direct block entry)
    (hroom : RoomOk strategy mountBlock settingsChunk chunk staging) {n : Nat}
    (hn : n ≤ entry.remaining) :
    DirectPass.InPlace { DirectPass.exact entry.pending with bytesize := n } entry := by
  have hlead := h.lead_add_le hroom
  have hstop := h.stop_eq
  have hle := h.cursor_le
  refine ⟨entry.lead + (entry.cursor - entry.chunk.offset), entry.pending_buffer, ?_, ?_⟩
  · rw [h.chunk_eq]
    simp only [DirectPass.exact, InflightChunk.pending]
    omega
  · rw [h.chunk_eq]
    simp only
    omega

/-- Whole blocks around the pending bytes are in place in the staging buffer. -/
theorem EntryOk.widened_inPlace
    (h : EntryOk strategy mountBlock chunk staging true block entry)
    (hroom : RoomOk strategy mountBlock settingsChunk chunk staging)
    {buffer : StagingBuffer} (hbuffer : staging = some buffer) {placedAt : Nat}
    (hdvd : block ∣ placedAt) (hskip : entry.stagingSkip = chunk.offset % placedAt) :
    (DirectPass.widened entry.pending block).InPlace entry := by
  have hblock := h.block_pos
  have harea : entry.area = buffer.data := by
    simp [InflightChunk.area, h.staging_eq, hbuffer]
  have hlead : entry.lead = entry.stagingSkip := by
    simp [InflightChunk.lead, h.staging_eq, hbuffer]
  have hsize : entry.room = buffer.bytesize := by
    simp [InflightChunk.room, h.staging_eq, hbuffer]
  -- the buffer starts {lit}`stagingSkip` bytes before the chunk, on a block of the file
  obtain ⟨base, hbase⟩ : ∃ base, base = chunk.offset - entry.stagingSkip := ⟨_, rfl⟩
  have hskiple : entry.stagingSkip ≤ chunk.offset := hskip ▸ Nat.mod_le _ _
  have hbasedvd : block ∣ base := by
    rw [hbase, hskip]
    exact hdvd.trans (Nat.dvd_sub_mod chunk.offset)
  have hle := h.cursor_le
  have hstop := h.stop_eq
  have hhead : base ≤ entry.cursor - entry.cursor % block := by
    obtain ⟨j, hj⟩ := hbasedvd
    have hjle : block * j ≤ entry.cursor := by omega
    have hdiv : j ≤ entry.cursor / block :=
      (Nat.le_div_iff_mul_le hblock).2 (by rwa [Nat.mul_comm])
    have hmul : block * j ≤ block * (entry.cursor / block) := Nat.mul_le_mul_left block hdiv
    have hsplit := Nat.div_add_mod entry.cursor block
    omega
  have hmodle := Nat.mod_le entry.cursor block
  refine ⟨entry.cursor - entry.cursor % block - base, ?_, ?_, ?_⟩
  · have hsum : entry.lead + (entry.cursor - entry.chunk.offset) =
        (entry.cursor - entry.cursor % block - base) + entry.cursor % block := by
      rw [h.chunk_eq, hlead]
      omega
    simp only [DirectPass.widened]
    rw [entry.pending_buffer, hsum, ← ptrAdd_ptrAdd]
    exact BitVec.add_sub_cancel _ _
  · rw [h.chunk_eq, hlead]
    simp only [DirectPass.widened, InflightChunk.pending]
    omega
  · have hlength : (DirectPass.widened entry.pending block).bytesize =
        ceilTo block (entry.cursor + entry.remaining) -
          (entry.cursor - entry.cursor % block) :=
      ceilTo_sub_floor hblock entry.cursor entry.remaining
    have hend : ceilTo block (entry.cursor + entry.remaining) =
        base + ceilTo block (entry.stagingSkip + chunk.bytesize) := by
      rw [← ceilTo_add_of_dvd hblock hbasedvd, hstop]
      congr 1
      omega
    have hceil := le_ceilTo hblock (entry.cursor + entry.remaining)
    have hfits : ceilTo block (entry.stagingSkip + chunk.bytesize) ≤ buffer.bytesize := by
      rw [hroom.staging_size buffer hbuffer, stagingBytesize, if_pos (h.direct_of rfl)]
      refine (ceilTo_le_ceilTo hblock hroom.mountBlock_pos h.block_dvd _).trans ?_
      refine ceilTo_mono hroom.mountBlock_pos ?_
      have hlt := h.skip_lt
      have hchunk := hroom.bytesize_le
      omega
    rw [hlength, hend, hsize]
    omega

variable {pool pool' : Option ScratchPool} {pass : DirectPass}

/-- A pass that does not go through scratch is in place. -/
theorem EntryOk.inPlace (h : EntryOk strategy mountBlock chunk staging direct block entry)
    (hroom : RoomOk strategy mountBlock settingsChunk chunk staging)
    (hplaced : direct = true → staging.isSome = true →
      ∃ placedAt, block ∣ placedAt ∧ entry.stagingSkip = chunk.offset % placedAt)
    (hshape : PassShape pool entry.pending block direct staging.isSome pass pool')
    (hscratch : pass.scratch = none) : pass.InPlace entry := by
  generalize hstaged : staging.isSome = staged at hshape
  cases hshape with
  | exact => exact h.exact_inPlace hroom (le_refl _)
  | widened =>
      obtain ⟨buffer, hbuffer⟩ := Option.isSome_iff_exists.1 hstaged
      obtain ⟨placedAt, hdvd, hskip⟩ := hplaced rfl hstaged
      exact h.widened_inPlace hroom hbuffer hdvd hskip
  | straight => exact h.exact_inPlace hroom (Nat.sub_le _ _)
  | bounced => cases hscratch

/-- A pass that is served in full brings bytes of the chunk. -/
theorem EntryOk.useful_pos (h : EntryOk strategy mountBlock chunk staging direct block entry)
    (hshape : PassShape pool entry.pending block direct staging.isSome pass pool') :
    0 < (entry.withPass pass).useful pass.bytesize := by
  have hpos := h.remaining_pos
  have hblock := h.block_pos
  have hmod := Nat.mod_lt entry.cursor hblock
  have hquiet := h.notBouncing
  generalize staging.isSome = staged at hshape
  cases hshape with
  | exact =>
      simpa [InflightChunk.withPass, DirectPass.exact, InflightChunk.useful, hquiet,
        InflightChunk.pending] using hpos
  | widened =>
      have hceil := le_ceilTo hblock (entry.cursor % block + entry.remaining)
      have hwanted : entry.remaining ≠ 0 := by omega
      simp only [InflightChunk.withPass, DirectPass.widened, InflightChunk.pending,
        InflightChunk.useful, InflightChunk.bounces, InflightChunk.setBounce]
      simp only [hwanted, ne_eq, not_false_eq_true, or_true, if_true, decide_true,
        Bool.or_true]
      rw [if_neg (by omega)]
      omega
  | straight hhead hwhole =>
      have hwhole : block ≤ entry.remaining := hwhole
      have hrest := Nat.mod_lt entry.remaining hblock
      have hlen : 0 < entry.remaining - entry.remaining % block := by omega
      simpa [InflightChunk.withPass, DirectPass.exact, InflightChunk.useful, hquiet,
        InflightChunk.pending] using hlen
  | bounced =>
      simp only [InflightChunk.withPass, DirectPass.bounced, InflightChunk.pending,
        InflightChunk.useful, InflightChunk.bounces, InflightChunk.setBounce,
        Option.isSome_some, true_or, if_true, Bool.true_or]
      rw [if_neg (by omega)]
      omega

end Entries

end AsyncIo
end ModelStreamer
