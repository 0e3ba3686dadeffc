import ModelStreamer.AsyncIo.ChunkRead
import ModelStreamer.AsyncIo.PassSpec

/-!
# Direct passes read exactly the asked bytes

Whatever counts the kernel reports, and whenever the block shrinks or the file is demoted,
direct passes are aligned, nothing outside the memory of the chunk is written, and a chunk
that completes holds the bytes of the file it was asked for.

Main results:

- Theorem {lit}`readOk_run`: the invariant of a chunk that is read.
- Theorem {lit}`directPasses_read_exactly`: what it says about passes, memory and content.
-/

namespace ModelStreamer
namespace AsyncIo

open Common Lib Streamer PosixIo

/-! ## The memory of a chunk -/

/--
A chunk, the block it starts with, and the memory it is read with.  A destination that is
read directly is congruent to the offset; the buffers of the worker are whole aligned blocks,
and the scratch buffers are not part of the destination.
-/
structure ReadSetup (strategy : Strategy) (mountBlock settingsChunk : Nat) (chunk : Chunk)
    (staging : Option StagingBuffer) (scratches : List Addr) (direct : Bool) (block : Nat) :
    Prop extends RoomOk strategy mountBlock settingsChunk chunk staging where
  bytesize_pos : 0 < chunk.bytesize
  mountBlock_pow : ∃ k ≤ 64, mountBlock = 2 ^ k
  block_pos : 0 < block
  block_dvd : block ∣ mountBlock
  direct_of : direct = true → strategy.isDirect = true
  settingsChunk_lt : settingsChunk < 2 ^ 64
  staging_lt : ∀ buffer, staging = some buffer → buffer.bytesize < 2 ^ 64
  congruent : direct = true → staging = none → isCongruent chunk.offset chunk.buffer block = true
  staging_aligned : ∀ buffer, staging = some buffer → mountBlock ∣ buffer.data.toNat
  scratch_aligned : ∀ a ∈ scratches, mountBlock ∣ a.toNat
  scratch_disjoint : staging = none → ∀ a ∈ scratches, ∀ x, Within a mountBlock x →
    ¬ Within chunk.buffer chunk.bytesize x

/-- The addresses that reading the chunk may write. -/
def OwnMemory (mountBlock : Nat) (chunk : Chunk) (staging : Option StagingBuffer)
    (scratches : List Addr) (x : Addr) : Prop :=
  match staging with
  | some buffer => Within buffer.data buffer.bytesize x
  | none => Within chunk.buffer chunk.bytesize x ∨ ∃ a ∈ scratches, Within a mountBlock x

/-- The {lit}`n` bytes from {lit}`a` on contain the whole pass. -/
def DirectPass.LiesIn (pass : DirectPass) (a : Addr) (n : Nat) : Prop :=
  ∃ at_, pass.buffer = ptrAdd a at_ ∧ at_ + pass.bytesize ≤ n

/-- The pass lies in the destination, in a scratch buffer or in the staging buffer. -/
def DirectPass.Inside (pass : DirectPass) (mountBlock : Nat) (chunk : Chunk)
    (staging : Option StagingBuffer) (scratches : List Addr) : Prop :=
  match staging with
  | some buffer => pass.LiesIn buffer.data buffer.bytesize
  | none =>
      pass.LiesIn chunk.buffer chunk.bytesize ∨ ∃ a ∈ scratches, pass.LiesIn a mountBlock

/-- Offset, length and address of the pass are multiples of the block it was planned for. -/
def IssuedPass.Aligned (issued : IssuedPass) : Prop :=
  issued.block ∣ issued.pass.offset ∧ issued.block ∣ issued.pass.bytesize ∧
    issued.block ∣ issued.pass.buffer.toNat

/-- Where the first byte of the chunk is read to. -/
def readPlace (chunk : Chunk) (staging : Option StagingBuffer) (stagingSkip : Nat) : Addr :=
  match staging with
  | some buffer => ptrAdd buffer.data stagingSkip
  | none => chunk.buffer

/-- The scratch buffers that a staged pass may take are these. -/
def ScratchFrom (scratches : List Addr) (action : ChunkAction) : Prop :=
  match action with
  | .stage (some pool) => ∀ a ∈ pool.free, a ∈ scratches
  | _ => True

section Setup

variable {strategy : Strategy} {mountBlock settingsChunk : Nat} {chunk : Chunk}
  {staging : Option StagingBuffer} {scratches : List Addr} {direct : Bool} {block : Nat}

/-- The block of the mount divides the address space. -/
theorem ReadSetup.mountBlock_dvd
    (h : ReadSetup strategy mountBlock settingsChunk chunk staging scratches direct block) :
    mountBlock ∣ 2 ^ 64 := by
  obtain ⟨k, hk, rfl⟩ := h.mountBlock_pow
  exact Nat.pow_dvd_pow 2 hk

/-- The remainder of an address at a block. -/
theorem ptrAdd_toNat_mod {n : Nat} (hdvd : block ∣ 2 ^ 64) (a : Addr) :
    (ptrAdd a n).toNat % block = (a.toNat + n) % block := by
  rw [ptrAdd, BitVec.toNat_add, BitVec.toNat_ofNat, Nat.mod_mod_of_dvd _ hdvd, Nat.add_mod,
    Nat.mod_mod_of_dvd _ hdvd, ← Nat.add_mod]

/-- A congruent destination is congruent at every smaller block. -/
theorem isCongruent_of_dvd {offset block' : Nat} {buffer : Addr} (hpos : 0 < block)
    (hdvd : block' ∣ block) (h : isCongruent offset buffer block = true) :
    isCongruent offset buffer block' = true := by
  have hpos' : 0 < block' := Nat.pos_of_dvd_of_pos hdvd hpos
  simp only [isCongruent, usable, Nat.ne_of_gt hpos, Nat.ne_of_gt hpos', if_false,
    decide_eq_true_eq] at h ⊢
  rw [← Nat.mod_mod_of_dvd buffer.toNat hdvd, h, Nat.mod_mod_of_dvd offset hdvd]

end Setup

/-! ## A pass in flight -/

/-- What holds between the entry of a chunk and its pass in flight. -/
structure FlightOk (mountBlock : Nat) (scratches : List Addr) (entry : InflightChunk)
    (pass : DirectPass) : Prop where
  bytesize_pos : 0 < pass.bytesize
  offset_add : pass.offset + entry.scratchSkip = entry.cursor
  useful_le : ∀ count ≤ pass.bytesize,
    entry.useful count ≤ count - entry.scratchSkip ∧ entry.useful count ≤ entry.remaining
  useful_zero : ∀ count, entry.useful count = 0 → count ≤ entry.scratchSkip
  place : entry.scratch = none ∧ pass.InPlace entry ∨
    ∃ a ∈ scratches, entry.scratch = some a ∧ pass.buffer = a ∧ entry.staging = none ∧
      pass.bytesize ≤ mountBlock

section Flight

variable {strategy : Strategy} {mountBlock settingsChunk : Nat} {chunk : Chunk}
  {staging : Option StagingBuffer} {scratches : List Addr} {direct : Bool} {block : Nat}
  {entry : InflightChunk} {pool pool' : Option ScratchPool} {pass : DirectPass}

/-- Recording a pass does not move the chunk. -/
theorem DirectPass.inPlace_withPass (other : DirectPass) (h : pass.InPlace entry) :
    pass.InPlace (entry.withPass other) := by
  obtain ⟨at_, hbuffer, hoffset, hroom⟩ := h
  refine ⟨at_, ?_, ?_, ?_⟩
  · simpa [InflightChunk.area] using hbuffer
  · simpa [InflightChunk.lead] using hoffset
  · simpa [InflightChunk.room] using hroom

/-- The fields of an entry without a pass. -/
theorem not_bounces_iff :
    entry.bounces = false ↔
      entry.scratch = none ∧ entry.scratchSkip = 0 ∧ entry.scratchWanted = 0 := by
  simp [InflightChunk.bounces, and_assoc]

/-- Clearing an entry without a pass changes nothing. -/
theorem clearBounce_of_quiet (h : entry.bounces = false) : entry.clearBounce = entry := by
  obtain ⟨hscratch, hskip, hwanted⟩ := not_bounces_iff.1 h
  cases entry
  simp_all [InflightChunk.clearBounce, InflightChunk.setBounce]

/-- The bytes of a pass that is translated: those after the skip, at most the wanted ones. -/
theorem useful_setBounce {scratch : Option Addr} {skip wanted count : Nat}
    (hwanted : 0 < wanted) :
    (entry.setBounce scratch skip wanted).useful count = min wanted (count - skip) := by
  have hbounces : (entry.setBounce scratch skip wanted).bounces = true := by
    have hne : wanted ≠ 0 := by omega
    simp [InflightChunk.bounces, InflightChunk.setBounce, hne]
  unfold InflightChunk.useful
  rw [if_pos hbounces]
  change (if count ≤ skip then 0 else min wanted (count - skip)) = min wanted (count - skip)
  split_ifs <;> omega

/-- The pass that was planned for a placed entry. -/
theorem EntryOk.flightOk (h : EntryOk strategy mountBlock chunk staging direct block entry)
    (hroom : RoomOk strategy mountBlock settingsChunk chunk staging)
    (hplaced : direct = true → staging.isSome = true →
      ∃ placedAt, block ∣ placedAt ∧ entry.stagingSkip = chunk.offset % placedAt)
    (hpool : ∀ p, pool = some p → ∀ a ∈ p.free, a ∈ scratches)
    (hshape : PassShape pool entry.pending block direct staging.isSome pass pool') :
    FlightOk mountBlock scratches (entry.withPass pass) pass := by
  obtain ⟨hscratch, hskip, hwanted⟩ := not_bounces_iff.1 h.notBouncing
  have hpos := h.remaining_pos
  have hblock := h.block_pos
  have hmod := Nat.mod_lt entry.cursor hblock
  have hmodle := Nat.mod_le entry.cursor block
  have hinPlace := h.inPlace hroom hplaced hshape
  generalize hstaged : staging.isSome = staged at hshape
  cases hshape with
  | exact =>
      have hkeep : entry.withPass (DirectPass.exact entry.pending) = entry := rfl
      have huseful : ∀ count, entry.useful count = count := by
        simp [InflightChunk.useful, h.notBouncing]
      rw [hkeep]
      exact
        { bytesize_pos := hpos
          offset_add := by simp [DirectPass.exact, InflightChunk.pending, hskip]
          useful_le := fun count hcount => by
            simpa [huseful, hskip, DirectPass.exact, InflightChunk.pending] using hcount
          useful_zero := fun count hzero => by
            rw [huseful] at hzero
            omega
          place := Or.inl ⟨hscratch, hinPlace rfl⟩ }
  | widened =>
      have hset : entry.withPass (DirectPass.widened entry.pending block) =
          entry.setBounce none (entry.cursor % block) entry.remaining := by
        have hne : entry.remaining ≠ 0 := by omega
        simp [InflightChunk.withPass, DirectPass.widened, InflightChunk.pending, hne]
      have hceil := le_ceilTo hblock (entry.cursor % block + entry.remaining)
      have hplace := DirectPass.inPlace_withPass
        (DirectPass.widened entry.pending block) (hinPlace rfl)
      rw [hset] at hplace ⊢
      exact
        { bytesize_pos := by
            simp only [DirectPass.widened, InflightChunk.pending]
            omega
          offset_add := by
            simp only [DirectPass.widened, InflightChunk.pending, InflightChunk.setBounce]
            omega
          useful_le := fun count hcount => by
            rw [useful_setBounce hpos]
            exact ⟨Nat.min_le_right _ _, Nat.min_le_left _ _⟩
          useful_zero := fun count hzero => by
            rw [useful_setBounce hpos] at hzero
            simp only [InflightChunk.setBounce]
            omega
          place := Or.inl ⟨rfl, hplace⟩ }
  | straight hhead hwhole =>
      have hkeep : entry.withPass { DirectPass.exact entry.pending with
          bytesize := entry.pending.bytesize - entry.pending.bytesize % block } = entry := rfl
      have huseful : ∀ count, entry.useful count = count := by
        simp [InflightChunk.useful, h.notBouncing]
      have hwhole : block ≤ entry.remaining := hwhole
      have hrest := Nat.mod_lt entry.remaining hblock
      rw [hkeep]
      exact
        { bytesize_pos := by
            simp only [InflightChunk.pending]
            omega
          offset_add := by simp [DirectPass.exact, InflightChunk.pending, hskip]
          useful_le := fun count hcount => by
            simp only [InflightChunk.pending] at hcount
            rw [huseful, hskip]
            omega
          useful_zero := fun count hzero => by
            rw [huseful] at hzero
            omega
          place := Or.inl ⟨hscratch, hinPlace rfl⟩ }
  | @bounced scratch p p' hp htake =>
      have hset : entry.withPass (DirectPass.bounced entry.pending block
          (entry.pending.offset % block)
          (min (block - entry.pending.offset % block) entry.pending.bytesize) scratch) =
          entry.setBounce (some scratch) (entry.cursor % block)
            (min (block - entry.cursor % block) entry.remaining) := rfl
      have hmin : 0 < min (block - entry.cursor % block) entry.remaining := by omega
      have hmem : scratch ∈ scratches := by
        refine hpool p hp scratch ?_
        unfold ScratchPool.take at htake
        cases hfree : p.free with
        | nil =>
            rw [hfree] at htake
            cases htake
        | cons a free =>
            rw [hfree] at htake
            cases htake
            exact List.mem_cons_self
      have hnone : entry.staging = none := by
        rw [h.staging_eq]
        exact Option.not_isSome_iff_eq_none.1 (by simp [hstaged])
      rw [hset]
      exact
        { bytesize_pos := hblock
          offset_add := by
            simp only [DirectPass.bounced, InflightChunk.pending, InflightChunk.setBounce]
            omega
          useful_le := fun count hcount => by
            rw [useful_setBounce hmin]
            exact ⟨Nat.min_le_right _ _,
              (Nat.min_le_left _ _).trans (Nat.min_le_right _ _)⟩
          useful_zero := fun count hzero => by
            rw [useful_setBounce hmin] at hzero
            simp only [InflightChunk.setBounce]
            omega
          place := Or.inr ⟨scratch, hmem, rfl, rfl, hnone,
            Nat.le_of_dvd hroom.mountBlock_pos h.block_dvd⟩ }

/-- A direct pass is aligned in the file and in memory. -/
theorem EntryOk.aligned {direct₀ : Bool} {block₀ : Nat}
    (h : EntryOk strategy mountBlock chunk staging true block entry)
    (hsetup : ReadSetup strategy mountBlock settingsChunk chunk staging scratches direct₀ block₀)
    (hcongruent : staging = none → isCongruent chunk.offset chunk.buffer block = true)
    (hplaced : staging.isSome = true →
      ∃ placedAt, block ∣ placedAt ∧ entry.stagingSkip = chunk.offset % placedAt)
    (hpool : ∀ p, pool = some p → ∀ a ∈ p.free, a ∈ scratches)
    (hshape : PassShape pool entry.pending block true staging.isSome pass pool') :
    IssuedPass.Aligned ⟨true, block, pass⟩ := by
  have hdvd : block ∣ 2 ^ 64 := h.block_dvd.trans hsetup.mountBlock_dvd
  have hflight := h.flightOk hsetup.toRoomOk (fun _ => hplaced) hpool hshape
  generalize hstaged : staging.isSome = staged at hshape
  cases hshape with
  | widened =>
      obtain ⟨buffer, hbuffer⟩ := Option.isSome_iff_exists.1 hstaged
      obtain ⟨placedAt, hplacedAt, hskip⟩ := hplaced hstaged
      obtain ⟨at_, haddr, hoffset, -⟩ :=
        h.widened_inPlace hsetup.toRoomOk hbuffer hplacedAt hskip
      have harea : entry.area = buffer.data := by
        simp [InflightChunk.area, h.staging_eq, hbuffer]
      have hlead : entry.lead = chunk.offset % placedAt := by
        simp [InflightChunk.lead, h.staging_eq, hbuffer, hskip]
      have hfile : block ∣ (DirectPass.widened entry.pending block).offset :=
        Nat.dvd_sub_mod entry.pending.offset
      -- the pass starts as far into the buffer as it starts after the block of the chunk
      have hbase : block ∣ chunk.offset - chunk.offset % placedAt :=
        hplacedAt.trans (Nat.dvd_sub_mod chunk.offset)
      have hat : block ∣ at_ := by
        have hsum : (DirectPass.widened entry.pending block).offset =
            chunk.offset - chunk.offset % placedAt + at_ := by
          have hmodle := Nat.mod_le chunk.offset placedAt
          rw [h.chunk_eq, hlead] at hoffset
          omega
        rw [hsum] at hfile
        exact (Nat.dvd_add_right hbase).1 hfile
      refine ⟨hfile, dvd_ceilTo _ _, Nat.dvd_of_mod_eq_zero ?_⟩
      have hdata : block ∣ buffer.data.toNat :=
        h.block_dvd.trans (hsetup.staging_aligned buffer hbuffer)
      change (DirectPass.widened entry.pending block).buffer.toNat % block = 0
      rw [haddr, harea, ptrAdd_toNat_mod hdvd]
      exact Nat.mod_eq_zero_of_dvd (Nat.dvd_add hdata hat)
  | straight hhead hwhole =>
      have hhead : entry.cursor % block = 0 := hhead
      have hnone : staging = none := Option.not_isSome_iff_eq_none.1 (by simp [hstaged])
      refine ⟨Nat.dvd_of_mod_eq_zero hhead, Nat.dvd_sub_mod _, Nat.dvd_of_mod_eq_zero ?_⟩
      have hbase : entry.base = chunk.buffer := by
        simp [InflightChunk.base, h.staging_eq, hnone, h.chunk_eq]
      have hcong : chunk.buffer.toNat % block = chunk.offset % block := by
        have hne := Nat.ne_of_gt h.block_pos
        simpa [isCongruent, usable, hne] using hcongruent hnone
      have hle := h.cursor_le
      change (ptrAdd entry.base (entry.cursor - entry.chunk.offset)).toNat % block = 0
      rw [hbase, h.chunk_eq, ptrAdd_toNat_mod hdvd, Nat.add_mod, hcong, ← Nat.add_mod]
      rw [Nat.add_sub_cancel' hle]
      exact hhead
  | @bounced scratch p p' hp htake =>
      refine ⟨Nat.dvd_sub_mod _, dvd_refl block, ?_⟩
      rcases hflight.place with ⟨hscratch, -⟩ | ⟨a, ha, -, hbuffer, -, -⟩
      · cases hscratch
      · have haligned := hsetup.scratch_aligned a ha
        rw [← hbuffer] at haligned
        exact h.block_dvd.trans haligned

/-- A pass in flight lies in the memory of the chunk. -/
theorem FlightOk.inside (h : FlightOk mountBlock scratches entry pass)
    (hchunk : entry.chunk = chunk) (hstaging : entry.staging = staging) :
    pass.Inside mountBlock chunk staging scratches := by
  unfold DirectPass.Inside
  rcases h.place with ⟨-, at_, hbuffer, -, hroom⟩ | ⟨a, ha, -, hbuffer, hnone, hle⟩
  · cases staging with
    | some buffer =>
        refine ⟨at_, ?_, ?_⟩
        · simpa [InflightChunk.area, hstaging] using hbuffer
        · simpa [InflightChunk.room, hstaging] using hroom
    | none =>
        refine Or.inl ⟨at_, ?_, ?_⟩
        · simpa [InflightChunk.area, hstaging, hchunk] using hbuffer
        · simpa [InflightChunk.room, hstaging, hchunk] using hroom
  · rw [hnone] at hstaging
    subst hstaging
    refine Or.inr ⟨a, ha, 0, ?_, ?_⟩
    · rw [hbuffer, ptrAdd_zero]
    · omega

end Flight

/-! ## Landing -/

section Landing

variable {file : FileData} {strategy : Strategy} {mountBlock settingsChunk : Nat}
  {chunk : Chunk} {staging : Option StagingBuffer} {scratches : List Addr}
  {direct direct₀ : Bool} {block block₀ : Nat} {entry : InflightChunk} {pass : DirectPass}
  {memory : HostMemory} {count : Nat}

/-- The memory behind the chunk does not wrap around. -/
theorem ReadSetup.room_lt
    (hsetup : ReadSetup strategy mountBlock settingsChunk chunk staging scratches direct₀ block₀)
    (hchunk : entry.chunk = chunk) (hstaging : entry.staging = staging) :
    entry.room < 2 ^ 64 := by
  unfold InflightChunk.room
  rw [hstaging, hchunk]
  cases hbuffer : staging with
  | some buffer => exact hsetup.staging_lt buffer hbuffer
  | none => exact lt_of_le_of_lt hsetup.bytesize_le hsetup.settingsChunk_lt

/-- The bytes that have landed are where the chunk is read to. -/
def Landed (file : FileData) (chunk : Chunk) (memory : HostMemory) (base : Addr)
    (upTo : Nat) : Prop :=
  ∀ i < upTo - chunk.offset, memory (ptrAdd base i) = file.bytes (chunk.offset + i)

/-- A pass that is in place leaves what it delivered where the chunk is read to. -/
theorem landed_inPlace (hcursor : chunk.offset ≤ entry.cursor)
    (hstop : entry.cursor + entry.remaining = chunk.offset + chunk.bytesize)
    (hlead : entry.lead + chunk.bytesize ≤ entry.room) (hroom : entry.room < 2 ^ 64)
    (hchunk : entry.chunk = chunk) (hflight : FlightOk mountBlock scratches entry pass)
    (hplace : pass.InPlace entry) (hcount : count ≤ pass.bytesize)
    (hold : Landed file chunk memory entry.base entry.cursor) :
    Landed file chunk (deliver file memory pass count) entry.base
      (entry.cursor + entry.useful count) := by
  obtain ⟨at_, hbuffer, hoffset, hlen⟩ := hplace
  obtain ⟨huseful, hremaining⟩ := hflight.useful_le count hcount
  have hskip := hflight.offset_add
  rw [hchunk] at hoffset
  intro i hi
  unfold deliver
  rw [entry.base_eq, ptrAdd_ptrAdd, hbuffer, ptrAdd, ptrAdd]
  by_cases hin : at_ ≤ entry.lead + i ∧ entry.lead + i < at_ + count
  · rw [fill_part (by omega) hin.1 hin.2]
    congr 1
    omega
  · rw [fill_part_outside (by omega) (by omega) hin]
    have hlanded := hold i (by omega)
    rwa [entry.base_eq, ptrAdd_ptrAdd] at hlanded

/-- A bounced pass leaves what it delivered where the chunk is read to. -/
theorem landed_bounced (hcursor : chunk.offset ≤ entry.cursor)
    (hstop : entry.cursor + entry.remaining = chunk.offset + chunk.bytesize)
    (hbytesize : chunk.bytesize < 2 ^ 64) (hmount : mountBlock ≤ 2 ^ 64)
    (hchunk : entry.chunk = chunk) (hflight : FlightOk mountBlock scratches entry pass)
    {a : Addr} (hscratch : entry.scratch = some a) (hbuffer : pass.buffer = a)
    (hstaging : entry.staging = none) (hle : pass.bytesize ≤ mountBlock)
    (hdisjoint : ∀ x, Within a mountBlock x → ¬ Within chunk.buffer chunk.bytesize x)
    (hcount : count ≤ pass.bytesize)
    (hold : Landed file chunk memory entry.base entry.cursor) :
    Landed file chunk (copyOut (deliver file memory pass count) entry (entry.useful count))
      entry.base (entry.cursor + entry.useful count) := by
  obtain ⟨huseful, hremaining⟩ := hflight.useful_le count hcount
  have hskip := hflight.offset_add
  have hbase : entry.base = chunk.buffer := by
    simp [InflightChunk.base, hstaging, hchunk]
  intro i hi
  have hpending : entry.pending.buffer = ptrAdd chunk.buffer (entry.cursor - chunk.offset) := by
    rw [InflightChunk.pending, hbase, hchunk]
  rw [copyOut, hscratch]
  simp only [hpending, hbase]
  rw [ptrAdd, ptrAdd]
  by_cases hin : entry.cursor - chunk.offset ≤ i ∧
      i < entry.cursor - chunk.offset + entry.useful count
  · rw [fill_part (by omega) hin.1 hin.2, deliver, hbuffer, ptrAdd,
      fill_add (by omega) (by omega)]
    congr 1
    omega
  · rw [fill_part_outside (by omega) (by omega) hin]
    have hlanded := hold i (by omega)
    rw [hbase, ptrAdd] at hlanded
    rw [deliver, fill_outside, hlanded]
    -- the address is in the destination, so it is not in the scratch buffer
    intro hwithin
    have hscratchAt : Within a mountBlock (chunk.buffer + BitVec.ofNat 64 i) := by
      rw [hbuffer] at hwithin
      exact lt_of_lt_of_le hwithin (hcount.trans hle)
    exact hdisjoint _ hscratchAt (within_add (by omega) (by omega))

/-- Landing a pass writes only the memory of the chunk. -/
theorem land_frame (file : FileData) (memory : HostMemory)
    (hcursor : chunk.offset ≤ entry.cursor)
    (hstop : entry.cursor + entry.remaining = chunk.offset + chunk.bytesize)
    (hroom : entry.room < 2 ^ 64) (hchunk : entry.chunk = chunk)
    (hstaging : entry.staging = staging)
    (hflight : FlightOk mountBlock scratches entry pass) (hcount : count ≤ pass.bytesize)
    {x : Addr} (hx : ¬ OwnMemory mountBlock chunk staging scratches x) :
    copyOut (deliver file memory pass count) entry (entry.useful count) x = memory x := by
  have huseful := (hflight.useful_le count hcount).2
  rcases hflight.place with ⟨hscratch, at_, hbuffer, -, hlen⟩ |
      ⟨a, ha, hscratch, hbuffer, hnone, hle⟩
  · rw [copyOut, hscratch]
    refine fill_outside fun hwithin => hx ?_
    have hpart : Within entry.area entry.room x := by
      rw [hbuffer, ptrAdd] at hwithin
      exact within_of_part (by omega) (by omega) hwithin
    unfold OwnMemory
    cases staging with
    | some buffer => simpa [InflightChunk.area, InflightChunk.room, hstaging] using hpart
    | none => exact Or.inl (by
        simpa [InflightChunk.area, InflightChunk.room, hstaging, hchunk] using hpart)
  · rw [hnone] at hstaging
    subst hstaging
    have hbase : entry.base = chunk.buffer := by
      simp [InflightChunk.base, hnone, hchunk]
    have hsize : entry.room = chunk.bytesize := by
      simp [InflightChunk.room, hnone, hchunk]
    rw [copyOut, hscratch]
    simp only
    rw [fill_outside, deliver, fill_outside]
    · intro hwithin
      rw [hbuffer] at hwithin
      exact hx (Or.inr ⟨a, ha, lt_of_lt_of_le hwithin (hcount.trans hle)⟩)
    · intro hwithin
      rw [InflightChunk.pending, hbase, hchunk, ptrAdd] at hwithin
      exact hx (Or.inl (within_of_part (by omega) (by omega) hwithin))

/-- Landing a pass leaves what it delivered where the chunk is read to. -/
theorem land_landed
    (hsetup : ReadSetup strategy mountBlock settingsChunk chunk staging scratches direct₀ block₀)
    (hentry : EntryOk strategy mountBlock chunk staging direct block entry.clearBounce)
    (hflight : FlightOk mountBlock scratches entry pass) (hcount : count ≤ pass.bytesize)
    (hold : Landed file chunk memory entry.base entry.cursor) :
    Landed file chunk (copyOut (deliver file memory pass count) entry (entry.useful count))
      entry.base (entry.cursor + entry.useful count) := by
  have hchunk : entry.chunk = chunk := hentry.chunk_eq
  have hstaging : entry.staging = staging := hentry.staging_eq
  have hlead : entry.lead + chunk.bytesize ≤ entry.room := hentry.lead_add_le hsetup.toRoomOk
  rcases hflight.place with ⟨hscratch, hplace⟩ | ⟨a, ha, hscratch, hbuffer, hnone, hle⟩
  · rw [copyOut, hscratch]
    exact landed_inPlace hentry.cursor_le hentry.stop_eq hlead
      (hsetup.room_lt hchunk hstaging) hchunk hflight hplace hcount hold
  · have hbytesize := lt_of_le_of_lt hsetup.bytesize_le hsetup.settingsChunk_lt
    have hmount : mountBlock ≤ 2 ^ 64 := Nat.le_of_dvd (by decide) hsetup.mountBlock_dvd
    have hdisjoint := hsetup.scratch_disjoint (hstaging.symm.trans hnone) a ha
    exact landed_bounced hentry.cursor_le hentry.stop_eq hbytesize hmount hchunk hflight
      hscratch hbuffer hnone hle hdisjoint hcount hold

end Landing

/-! ## The invariant -/

/-- What every step of a chunk keeps. -/
structure ReadOk (file : FileData) (strategy : Strategy) (mountBlock : Nat) (chunk : Chunk)
    (staging : Option StagingBuffer) (scratches : List Addr) (memory : HostMemory)
    (s : ChunkRead) : Prop where
  chunk_eq : s.entry.chunk = chunk
  staging_eq : s.entry.staging = staging
  entry : s.answer = none →
    EntryOk strategy mountBlock chunk staging s.direct s.block s.entry.clearBounce
  quiet : s.inFlight = none → s.entry.bounces = false
  congruent : s.direct = true → staging = none →
    isCongruent chunk.offset chunk.buffer s.block = true
  flight : ∀ pass, s.inFlight = some pass → FlightOk mountBlock scratches s.entry pass
  placed : s.inFlight.isSome = true → s.direct = true → staging.isSome = true →
    ∃ placedAt, s.block ∣ placedAt ∧ s.entry.stagingSkip = chunk.offset % placedAt
  landed : Landed file chunk s.memory s.entry.base s.entry.cursor
  frame : ∀ x, ¬ OwnMemory mountBlock chunk staging scratches x → s.memory x = memory x
  complete : s.answer = some .success → s.entry.cursor = chunk.offset + chunk.bytesize
  issued : ∀ issued ∈ s.issued,
    issued.pass.Inside mountBlock chunk staging scratches ∧
      (issued.direct = true → issued.Aligned)

section Steps

variable {file : FileData} {strategy : Strategy} {mountBlock settingsChunk : Nat}
  {chunk : Chunk} {staging : Option StagingBuffer} {scratches : List Addr}
  {direct₀ : Bool} {block₀ : Nat} {memory : HostMemory} {s : ChunkRead}

/-- A chunk before its first pass. -/
theorem readOk_start (file : FileData) (memory : HostMemory)
    (hsetup : ReadSetup strategy mountBlock settingsChunk chunk staging scratches direct₀ block₀) :
    ReadOk file strategy mountBlock chunk staging scratches memory
      (ChunkRead.start chunk staging direct₀ block₀ memory) :=
  { chunk_eq := rfl
    staging_eq := rfl
    entry := fun _ => entryOk_make 0 0 hsetup.bytesize_pos hsetup.mountBlock_pos
      hsetup.direct_of hsetup.block_pos hsetup.block_dvd
    quiet := fun _ => rfl
    congruent := hsetup.congruent
    flight := fun _ hpass => absurd hpass (by simp [ChunkRead.start])
    placed := fun hflight => absurd hflight (by simp [ChunkRead.start])
    landed := fun i hi => by
      simp only [ChunkRead.start, InflightChunk.make, Nat.sub_self] at hi
      omega
    frame := fun _ _ => rfl
    complete := fun hanswer => absurd hanswer (by simp [ChunkRead.start])
    issued := fun _ hissued => absurd hissued (by simp [ChunkRead.start]) }

/-- Placing an entry keeps what has landed. -/
theorem Landed.placeInStaging {entry : InflightChunk} {content : HostMemory} (block : Nat)
    (direct : Bool) (hchunk : entry.chunk = chunk)
    (h : Landed file chunk content entry.base entry.cursor) :
    Landed file chunk content (entry.placeInStaging block direct).base
      (entry.placeInStaging block direct).cursor := by
  unfold InflightChunk.placeInStaging
  split_ifs with hplace
  · -- nothing has landed yet
    intro i hi
    simp only [hplace.2.2, hchunk, Nat.sub_self] at hi
    omega
  · exact h

/-- Staging the next pass. -/
theorem ReadOk.stagePending {pool : Option ScratchPool}
    (hsetup : ReadSetup strategy mountBlock settingsChunk chunk staging scratches direct₀ block₀)
    (h : ReadOk file strategy mountBlock chunk staging scratches memory s)
    (hanswer : s.answer = none) (hidle : s.inFlight = none)
    (hpool : ∀ p, pool = some p → ∀ a ∈ p.free, a ∈ scratches) :
    ReadOk file strategy mountBlock chunk staging scratches memory (s.stagePending pool) := by
  have hentry := h.entry hanswer
  rw [clearBounce_of_quiet (h.quiet hidle)] at hentry
  have hnext := hentry.placeInStaging hsetup.mountBlock_pos
  have hplaced := hentry.placed
  have hlanded := h.landed.placeInStaging s.block s.direct h.chunk_eq
  generalize hplace : s.entry.placeInStaging s.block s.direct = entry at hnext hplaced hlanded
  unfold ChunkRead.stagePending
  simp only [hplace]
  rw [hnext.staging_eq]
  cases hplan : planPass pool entry.pending s.block s.direct staging.isSome with
  | none =>
      exact
        { h with
          chunk_eq := hnext.chunk_eq
          staging_eq := hnext.staging_eq
          entry := fun hnone => absurd hnone (by simp)
          quiet := fun _ => hnext.notBouncing
          flight := fun pass hpass => absurd hpass (by simp [hidle])
          placed := fun hflight => absurd hflight (by simp [hidle])
          landed := hlanded
          complete := fun hsuccess => absurd hsuccess (by simp) }
  | some planned =>
      obtain ⟨pass, pool'⟩ := planned
      have hshape := planPass_shape hplan
      have hflight := hnext.flightOk hsetup.toRoomOk hplaced hpool hshape
      have hbase : (entry.withPass pass).base = entry.base := by
        simp [InflightChunk.base]
      have hclear : (entry.withPass pass).clearBounce = entry := by
        unfold InflightChunk.withPass
        split_ifs
        · exact clearBounce_of_quiet hnext.notBouncing
        · exact clearBounce_of_quiet hnext.notBouncing
      have hchunk : (entry.withPass pass).chunk = chunk := by simp [hnext.chunk_eq]
      have hstaging : (entry.withPass pass).staging = staging := by simp [hnext.staging_eq]
      exact
        { h with
          chunk_eq := hchunk
          staging_eq := hstaging
          entry := fun _ => by
            simp only [hclear]
            exact hnext
          quiet := fun hnone => absurd hnone (by simp)
          flight := fun pass' hpass => by
            cases hpass
            exact hflight
          placed := fun _ hdirect hsome => by simpa using hplaced hdirect hsome
          landed := by simpa [hbase] using hlanded
          complete := fun hsuccess => absurd hsuccess (by simp [hanswer])
          issued := fun issued hissued => by
            rcases List.mem_append.1 hissued with hold | hnew
            · exact h.issued issued hold
            · rw [List.mem_singleton.1 hnew]
              refine ⟨hflight.inside hchunk hstaging, fun hdirect => ?_⟩
              have hdirect : s.direct = true := hdirect
              rw [hdirect] at hnext hplaced hshape ⊢
              exact hnext.aligned hsetup (h.congruent hdirect) (hplaced rfl) hpool hshape }

/-- What a count does to the entry. -/
theorem record_eq {entry : InflightChunk} {count : Nat} (hle : count ≤ entry.remaining) :
    (entry.record count).2 =
      { entry with cursor := entry.cursor + count, remaining := entry.remaining - count } := by
  unfold InflightChunk.record
  split_ifs with hall hzero
  · have heq : entry.remaining = count := by omega
    simp [heq]
  · simp [hzero]
  · rfl

/-- Landing the pass in flight. -/
theorem ReadOk.land {pass : DirectPass} {count : Nat}
    (hsetup : ReadSetup strategy mountBlock settingsChunk chunk staging scratches direct₀ block₀)
    (h : ReadOk file strategy mountBlock chunk staging scratches memory s)
    (hanswer : s.answer = none) (hpass : s.inFlight = some pass) (hcount : count ≤ pass.bytesize) :
    ReadOk file strategy mountBlock chunk staging scratches memory (s.land file pass count) := by
  have hentry := h.entry hanswer
  have hflight := h.flight pass hpass
  have hplaced := h.placed (by simp [hpass])
  have huseful := (hflight.useful_le count hcount).2
  have hrecord := @record_eq s.entry.clearBounce _ huseful
  have hcursor : chunk.offset ≤ s.entry.cursor := hentry.cursor_le
  have hstop : s.entry.cursor + s.entry.remaining = chunk.offset + chunk.bytesize :=
    hentry.stop_eq
  have hlanded := land_landed hsetup hentry hflight hcount h.landed
  have hbase : (s.entry.clearBounce.record (s.entry.useful count)).2.base = s.entry.base := by
    rw [hrecord]
    rfl
  unfold ChunkRead.land
  simp only
  exact
    { chunk_eq := by
        rw [hrecord]
        exact h.chunk_eq
      staging_eq := by
        rw [hrecord]
        exact h.staging_eq
      entry := fun hnone => by
        cases hcase : s.entry.clearBounce.record (s.entry.useful count) with
        | mk progress entry' =>
            rw [hcase] at hnone
            cases progress with
            | complete => cases hnone
            | eof => cases hnone
            | partialRead =>
                obtain ⟨-, hlt, rfl⟩ := record_partialRead hcase
                exact hentry.advance hplaced hlt
      quiet := fun _ => by
        rw [hrecord]
        rfl
      congruent := h.congruent
      flight := fun pass' hpass' => absurd hpass' (by simp)
      placed := fun hsome => absurd hsome (by simp)
      landed := by
        simp only [hbase]
        rw [hrecord]
        exact hlanded
      frame := fun x hx => by
        have hkeep := land_frame file s.memory hcursor hstop
          (hsetup.room_lt h.chunk_eq h.staging_eq) h.chunk_eq h.staging_eq hflight hcount hx
        exact hkeep.trans (h.frame x hx)
      complete := fun hsuccess => by
        unfold InflightChunk.record at hsuccess ⊢
        split_ifs at hsuccess ⊢ with hall hzero
        · exact hstop
        · cases hsuccess
        · cases hsuccess
      issued := h.issued }

/-- What a pass that failed leaves: a retry, a demotion or a code other than success. -/
theorem fail_cases {res : Int} (hres : res < 0) (s : ChunkRead) (reopened : Bool) :
    s.fail res reopened =
        { s with
          entry := { s.entry.clearBounce with
            transientRetries := s.entry.transientRetries + 1 }
          inFlight := none } ∨
      s.fail res reopened =
        { s with entry := s.entry.clearBounce, inFlight := none, direct := false } ∨
      ∃ code ≠ .success, s.fail res reopened =
        { s with entry := s.entry.clearBounce, inFlight := none, answer := some code } := by
  have hmapped : mapCompletion res ⟨0, s.direct⟩ ≠ .success := by
    unfold mapCompletion
    rw [if_neg (by omega)]
    split_ifs <;> simp
  unfold ChunkRead.fail
  simp only
  split
  · rename_i entry _ hretry
    left
    unfold InflightChunk.mayRetryTransient at hretry
    split_ifs at hretry
    rw [← Option.some.inj hretry]
    rfl
  · right
    split_ifs with hdemote hreopened
    · exact Or.inl rfl
    · exact Or.inr ⟨.fileAccessError, by simp, rfl⟩
    · exact Or.inr ⟨_, hmapped, rfl⟩

/-- A pass that failed. -/
theorem ReadOk.fail {res : Int} {reopened : Bool} (hres : res < 0)
    (h : ReadOk file strategy mountBlock chunk staging scratches memory s)
    (hanswer : s.answer = none) :
    ReadOk file strategy mountBlock chunk staging scratches memory (s.fail res reopened) := by
  have hentry := h.entry hanswer
  -- the chunk as it is tried again
  have hagain : ReadOk file strategy mountBlock chunk staging scratches memory
      { s with entry := s.entry.clearBounce, inFlight := none } :=
    { h with
      entry := fun _ => hentry
      quiet := fun _ => rfl
      flight := fun pass' hpass' => absurd hpass' (by simp)
      placed := fun hsome => absurd hsome (by simp)
      complete := fun hsuccess => absurd hsuccess (by simp [hanswer]) }
  rcases fail_cases hres s reopened with heq | heq | ⟨code, hcode, heq⟩
  · rw [heq]
    exact
      { hagain with
        entry := fun _ => { hentry with }
        quiet := fun _ => rfl
        flight := fun pass' hpass' => absurd hpass' (by simp) }
  · rw [heq]
    exact
      { hagain with
        entry := fun _ => hentry.demote
        congruent := fun hfalse => absurd hfalse (by simp)
        placed := fun hsome => absurd hsome (by simp) }
  · rw [heq]
    exact
      { hagain with
        entry := fun hnone => absurd hnone (by simp)
        complete := fun hsuccess => absurd (Option.some.inj hsuccess) hcode }

/-- What every step keeps. -/
theorem ReadOk.step {s' : ChunkRead} {action : ChunkAction}
    (hsetup : ReadSetup strategy mountBlock settingsChunk chunk staging scratches direct₀ block₀)
    (h : ReadOk file strategy mountBlock chunk staging scratches memory s)
    (hscratch : ScratchFrom scratches action) (hstep : chunkStep file s action = some s') :
    ReadOk file strategy mountBlock chunk staging scratches memory s' := by
  unfold chunkStep at hstep
  split_ifs at hstep with hanswered
  have hanswer : s.answer = none := Option.not_isSome_iff_eq_none.1 hanswered
  cases action with
  | stage pool =>
      cases hidle : s.inFlight with
      | some pass => simp [hidle] at hstep
      | none =>
          simp only [hidle, Option.some.injEq] at hstep
          subst hstep
          refine h.stagePending hsetup hanswer hidle fun p hp => ?_
          rw [hp] at hscratch
          exact hscratch
  | lands count =>
      cases hpass : s.inFlight with
      | none => simp [hpass] at hstep
      | some pass =>
          simp only [hpass] at hstep
          split_ifs at hstep with hmay
          cases hstep
          exact h.land hsetup hanswer hpass hmay.1
  | fails res reopened =>
      cases hpass : s.inFlight with
      | none => simp [hpass] at hstep
      | some pass =>
          simp only [hpass] at hstep
          split_ifs at hstep with hres
          cases hstep
          exact h.fail hres hanswer
  | adoptBlock block =>
      simp only at hstep
      split_ifs at hstep with hblock
      cases hstep
      have hentry := h.entry hanswer
      exact
        { h with
          entry := fun _ => hentry.adopt hblock.1 hblock.2
          congruent := fun hdirect hnone =>
            isCongruent_of_dvd hentry.block_pos hblock.2 (h.congruent hdirect hnone)
          placed := fun hsome hdirect hstaged => by
            obtain ⟨placedAt, hdvd, hskip⟩ := h.placed hsome hdirect hstaged
            exact ⟨placedAt, hblock.2.trans hdvd, hskip⟩ }
  | demote =>
      simp only [Option.some.injEq] at hstep
      subst hstep
      exact
        { h with
          entry := fun _ => (h.entry hanswer).demote
          congruent := fun hfalse => absurd hfalse (by simp)
          placed := fun _ hfalse => absurd hfalse (by simp) }

/-- The invariant holds at every point of reading a chunk. -/
theorem readOk_run {actions : List ChunkAction}
    (hsetup : ReadSetup strategy mountBlock settingsChunk chunk staging scratches direct₀ block₀)
    (hscratch : ∀ action ∈ actions, ScratchFrom scratches action)
    (hrun : run (chunkStep file) (ChunkRead.start chunk staging direct₀ block₀ memory) actions =
      some s) :
    ReadOk file strategy mountBlock chunk staging scratches memory s :=
  run_invariant_of (fun _ _ _ hok hfrom hstep => hok.step hsetup hfrom hstep)
    (readOk_start file memory hsetup) (eachStep_of_forall hscratch) hrun

end Steps

/--
Reading a chunk.  Every direct pass is aligned to the block it was planned for and lies in
the destination, in a scratch buffer or in the staging buffer; no other memory changes; and a
chunk that is answered with success holds the bytes of the file it was asked for.
-/
theorem directPasses_read_exactly {file : FileData} {strategy : Strategy}
    {mountBlock settingsChunk : Nat} {chunk : Chunk} {staging : Option StagingBuffer}
    {scratches : List Addr} {direct : Bool} {block : Nat} {memory : HostMemory}
    {actions : List ChunkAction} {s : ChunkRead}
    (hsetup : ReadSetup strategy mountBlock settingsChunk chunk staging scratches direct block)
    (hscratch : ∀ action ∈ actions, ScratchFrom scratches action)
    (hrun : run (chunkStep file) (ChunkRead.start chunk staging direct block memory) actions =
      some s) :
    (∀ issued ∈ s.issued, issued.direct = true →
      issued.Aligned ∧ issued.pass.Inside mountBlock chunk staging scratches) ∧
    (∀ x, ¬ OwnMemory mountBlock chunk staging scratches x → s.memory x = memory x) ∧
    (s.answer = some .success → ∀ i < chunk.bytesize,
      s.memory (ptrAdd (readPlace chunk staging s.entry.stagingSkip) i) =
        file.bytes (chunk.offset + i)) := by
  have hok := readOk_run hsetup hscratch hrun
  refine ⟨?_, hok.frame, ?_⟩
  · intro issued hissued hdirect
    obtain ⟨hinside, haligned⟩ := hok.issued issued hissued
    exact ⟨haligned hdirect, hinside⟩
  · intro hsuccess i hi
    have hcursor := hok.complete hsuccess
    have hbase : s.entry.base = readPlace chunk staging s.entry.stagingSkip := by
      have hstaging := hok.staging_eq
      have hchunk := hok.chunk_eq
      unfold InflightChunk.base readPlace
      cases staging with
      | none => simp only [hstaging, hchunk]
      | some buffer => simp only [hstaging]
    rw [← hbase]
    exact hok.landed i (by omega)

/-! A chunk of a host caller that is read with short counts, a retry and a smaller block. -/

/-- A file whose bytes count up. -/
def countingFile : FileData :=
  { size := 20000, bytes := fun i => UInt8.ofNat i }

/-- Bytes 5000 to 10000 into memory that is congruent at 4096. -/
def hostChunk : Chunk :=
  { offset := 5000, bytesize := 5000, buffer := 66440#64, firstTask := 0, taskCount := 1 }

/-- One scratch buffer that is free. -/
def oneScratch : Option ScratchPool :=
  some { block := 4096, free := [131072#64] }

/-- The head block, whole blocks with a short count, a bounced block and a buffered rest. -/
def hostActions : List ChunkAction :=
  [.stage oneScratch, .fails (-eINTR) false, .stage oneScratch, .lands 4096, .adoptBlock 512,
    .stage oneScratch, .lands 1000, .stage oneScratch, .lands 512, .demote, .stage none,
    .lands 784]

/-- The sizes of the example. -/
theorem hostChunk_setup :
    ReadSetup .ioUringDirect 4096 8192 hostChunk none [131072#64] true 4096 :=
  { mountBlock_pos := by decide
    bytesize_le := by decide
    staging_size := by simp
    bytesize_pos := by decide
    mountBlock_pow := ⟨12, by decide, by decide⟩
    block_pos := by decide
    block_dvd := by decide
    direct_of := by decide
    settingsChunk_lt := by decide
    staging_lt := by simp
    congruent := by simp [isCongruent, usable, hostChunk]
    staging_aligned := by simp
    scratch_aligned := by
      intro a ha
      rw [List.mem_singleton.1 ha]
      exact ⟨32, rfl⟩
    scratch_disjoint := by
      intro _ a ha x
      rw [List.mem_singleton.1 ha]
      unfold Within hostChunk
      bv_omega }

/-- The passes of the example take no other scratch buffer. -/
theorem hostActions_scratch : ∀ action ∈ hostActions, ScratchFrom [131072#64] action := by
  simp [hostActions, ScratchFrom, oneScratch]

theorem directPasses_read_exactly_hostChunk :
    ∃ s, run (chunkStep countingFile)
        (ChunkRead.start hostChunk none true 4096 fun _ => 0) hostActions = some s ∧
      s.answer = some .success ∧
      ∀ i < 5000, s.memory (ptrAdd 66440#64 i) = UInt8.ofNat (5000 + i) := by
  have hanswer : (run (chunkStep countingFile)
      (ChunkRead.start hostChunk none true 4096 fun _ => 0) hostActions).map (·.answer) =
        some (some .success) := by decide +kernel
  obtain ⟨s, hrun, hsuccess⟩ := Option.map_eq_some_iff.1 hanswer
  exact ⟨s, hrun, hsuccess,
    (directPasses_read_exactly hostChunk_setup hostActions_scratch hrun).2.2 hsuccess⟩

end AsyncIo
end ModelStreamer
