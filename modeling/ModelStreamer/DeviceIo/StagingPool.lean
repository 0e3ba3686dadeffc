import ModelStreamer.Common.ResponseCode
import ModelStreamer.Lib.Word
import Mathlib.Data.List.Basic
import Mathlib.Data.Nat.Bitwise

/-!
# Staging pool

Pinned host buffers for one worker.  The pool pins a slab when no buffer is free, cuts
buffers out of it, and hands them out again when they come back.  A buffer that something may
still write into is retired: it never comes back, and the slab that it was cut from is never
freed.

The functions here are the parts of the pool that run under its lock.

Main results:

- Theorem {lit}`StagingParams.Valid.normalised`: parameters that fit are kept as they are.
- Theorem {lit}`StagingPool.planSlab_spec`: a plan fits the room and leaves space to align.
- Theorem {lit}`StagingPool.mem_cut`: the buffers of a slab are aligned and inside it.
-/

namespace ModelStreamer
namespace DeviceIo
namespace Staging

open Common
open Lib

/-! ## Parameters -/

/-- {lit}`StagingPool::Params`. -/
structure StagingParams where
  /-- One read, and one copy. -/
  bufferBytesize : Nat := 0
  /-- What is registered at once, rounded up to whole buffers. -/
  slabBytesize : Nat := 0
  maxBuffers : Nat := 0
  alignment : Nat := 1
deriving DecidableEq, Repr

/-- {lit}`normalised`, which asserts that the alignment is a power of two. -/
def normalised (params : StagingParams) : Except Failure StagingParams := do
  let alignment := max params.alignment 1
  assertThat (alignment &&& (alignment - 1) = 0)
  let rounded := wordSub 64 (wordAdd 64 params.bufferBytesize alignment) 1 / alignment
  return { params with alignment, bufferBytesize := toWord 64 (rounded * alignment) }

/-- Parameters that a pool can work with. -/
structure StagingParams.Valid (params : StagingParams) : Prop where
  buffer_pos : 1 ≤ params.bufferBytesize
  alignment_pow : ∃ k, params.alignment = 2 ^ k
  alignment_dvd : params.alignment ∣ params.bufferBytesize
  max_pos : 1 ≤ params.maxBuffers
  max_lt : params.maxBuffers < 2 ^ 32
  slab_lt : params.slabBytesize < 2 ^ 64
  fits : params.maxBuffers * params.bufferBytesize + params.alignment < 2 ^ 64

/-! ## The pool -/

/-- {lit}`StagingBuffer`: a pinned host buffer on loan from a pool. -/
structure StagingBuffer where
  data : Nat := 0
  bytesize : Nat := 0
  index : Nat := 0
  slab : Nat := 0
deriving DecidableEq, Repr

/-- {lit}`valid`: the buffer has memory. -/
def StagingBuffer.valid (buffer : StagingBuffer) : Bool :=
  buffer.data ≠ 0

/-- {lit}`SlabRecord`: pinned memory and its size. -/
structure Slab where
  memory : Nat
  bytesize : Nat
deriving DecidableEq, Repr

/-- {lit}`StagingPool`. -/
structure StagingPool where
  params : StagingParams
  stopped : Bool := false
  slabs : List Slab := []
  buffers : List StagingBuffer := []
  /-- The indices of the free buffers, oldest first. -/
  free : List Nat := []
  retired : Nat := 0
  retiredCode : ResponseCode := .success
  leakedSlabs : List Nat := []
deriving DecidableEq, Repr

namespace StagingPool

/-- The constructor. -/
def make (params : StagingParams) : Except Failure StagingPool := do
  let params ← normalised params
  return { params }

/-- {lit}`hand_out`: the oldest free buffer. -/
def handOut (pool : StagingPool) : Option (StagingBuffer × StagingPool) :=
  match pool.free with
  | [] => none
  | index :: free => (pool.buffers[index]?).map fun buffer => (buffer, { pool with free })

/-- {lit}`plan_slab`: how many buffers the next slab yields, and its bytes. -/
def planSlab (pool : StagingPool) : Nat × Nat :=
  let room := wordSub 32 pool.params.maxBuffers (toWord 32 pool.buffers.length)
  if room = 0 then (0, 0)
  else if pool.params.bufferBytesize = 0 then (0, 0)
  else
    let whole := wordAdd 64 (pool.params.slabBytesize / pool.params.bufferBytesize)
      (if pool.params.slabBytesize % pool.params.bufferBytesize ≠ 0 then 1 else 0)
    let perSlab := max (toWord 32 (min whole room)) 1
    (perSlab,
      wordSub 64 (wordAdd 64 (toWord 64 (perSlab * pool.params.bufferBytesize))
        pool.params.alignment) 1)

/-- The first aligned address of a slab. -/
def firstAligned (pool : StagingPool) (slab : Slab) : Nat :=
  slab.memory + wordSub 64 0 slab.memory % pool.params.alignment

/-- The buffers that are cut out of a slab. -/
def cut (pool : StagingPool) (slab : Slab) (perSlab : Nat) : List StagingBuffer :=
  (List.range perSlab).map fun i =>
    { data := pool.firstAligned slab + i * pool.params.bufferBytesize
      bytesize := pool.params.bufferBytesize
      index := toWord 32 (pool.buffers.length + i)
      slab := toWord 32 pool.slabs.length }

/-- {lit}`add_slab` under the lock publishes a slab, unless it came too late. -/
def addSlab (pool : StagingPool) (slab : Slab) (perSlab : Nat) : Option StagingPool :=
  if pool.buffers.length + perSlab ≤ pool.params.maxBuffers then
    some
      { pool with
        slabs := pool.slabs ++ [slab]
        buffers := pool.buffers ++ pool.cut slab perSlab
        free := pool.free ++ (pool.cut slab perSlab).map StagingBuffer.index }
  else
    none

/-- What a call finds when it has the lock. -/
inductive Found where
  | stopped
  | buffer (out : StagingBuffer) (pool : StagingPool)
  /-- There is room for a slab. -/
  | room (perSlab bytesize : Nat)
  /-- {lit}`barren`: the pool can hold nothing. -/
  | barren
  /-- Every buffer is retired. -/
  | spent (code : ResponseCode)
  /-- Every buffer is in flight and the pool is at its ceiling. -/
  | inFlight
deriving DecidableEq, Repr

/-- What {lit}`try_acquire` and {lit}`acquire` do under the lock. -/
def look (pool : StagingPool) : Found :=
  if pool.stopped then .stopped
  else
    match pool.handOut with
    | some (out, pool) => .buffer out pool
    | none =>
        if pool.planSlab.1 = 0 then
          if pool.buffers = [] then .barren
          else if pool.buffers.length ≤ pool.retired then .spent pool.retiredCode
          else .inFlight
        else
          .room pool.planSlab.1 pool.planSlab.2

/-- {lit}`retire` under the lock. -/
def retire (pool : StagingPool) (buffer : StagingBuffer) (code : ResponseCode) : StagingPool :=
  { pool with
    retired := pool.retired + 1
    retiredCode := if pool.retiredCode = .success then code else pool.retiredCode
    leakedSlabs := pool.leakedSlabs ++ [buffer.slab] }

/-- {lit}`release` under the lock; a pool that is full drops the buffer. -/
def release (pool : StagingPool) (buffer : StagingBuffer) : Option StagingPool :=
  if pool.buffers.length ≤ pool.free.length then none
  else some { pool with free := pool.free ++ [buffer.index] }

/-- {lit}`stop` under the lock. -/
def stop (pool : StagingPool) : StagingPool :=
  { pool with stopped := true }

/-- The slabs that the destructor frees: all but the leaked ones. -/
def freedByDestructor (pool : StagingPool) : List Slab :=
  (pool.slabs.zipIdx.filter fun entry => entry.2 ∉ pool.leakedSlabs).map Prod.fst

end StagingPool

/-! ## Memory -/

/-- Two slabs share no byte. -/
def Slab.Apart (x y : Slab) : Prop :=
  x.memory + x.bytesize ≤ y.memory ∨ y.memory + y.bytesize ≤ x.memory

instance (x y : Slab) : Decidable (x.Apart y) :=
  inferInstanceAs (Decidable (_ ∨ _))

/-- Two buffers share no byte. -/
def StagingBuffer.Apart (x y : StagingBuffer) : Prop :=
  x.data + x.bytesize ≤ y.data ∨ y.data + y.bytesize ≤ x.data

/-- A buffer is inside a slab. -/
def StagingBuffer.Inside (buffer : StagingBuffer) (slab : Slab) : Prop :=
  slab.memory ≤ buffer.data ∧ buffer.data + buffer.bytesize ≤ slab.memory + slab.bytesize

/-- A plan that {lit}`plan_slab` makes. -/
structure Planned (params : StagingParams) (perSlab bytesize : Nat) : Prop where
  pos : 1 ≤ perSlab
  le_max : perSlab ≤ params.maxBuffers
  bytes : bytesize + 1 = perSlab * params.bufferBytesize + params.alignment

/-- Memory that the host allocator gave out. -/
structure Slab.Allocated (slab : Slab) : Prop where
  pos : 0 < slab.memory
  le : slab.memory + slab.bytesize ≤ 2 ^ 64

theorem Slab.Apart.symm {x y : Slab} (h : x.Apart y) : y.Apart x :=
  Or.symm h

/-- Memory that is not empty is not apart from itself. -/
theorem Slab.Apart.ne {x y : Slab} (h : x.Apart y) (hpos : 0 < x.bytesize) : x ≠ y := by
  rintro rfl
  unfold Slab.Apart at h
  omega

/-- Buffers of slabs that are apart are apart. -/
theorem StagingBuffer.apart_of_slabs {a b : StagingBuffer} {x y : Slab} (hxy : x.Apart y)
    (ha : a.Inside x) (hb : b.Inside y) : a.Apart b := by
  unfold StagingBuffer.Apart
  unfold StagingBuffer.Inside at ha hb
  rcases hxy with hxy | hxy <;> omega

/-! ## What the functions do -/

namespace StagingParams

variable {params : StagingParams}

theorem Valid.alignment_pos (h : params.Valid) : 1 ≤ params.alignment := by
  rcases h.alignment_pow with ⟨k, hk⟩
  rw [hk]
  exact Nat.one_le_two_pow

/-- The alignment divides the size of the address space. -/
theorem Valid.alignment_dvd_words (h : params.Valid) : params.alignment ∣ 2 ^ 64 := by
  rcases h.alignment_pow with ⟨k, hk⟩
  have hfits := h.fits
  rw [hk] at hfits ⊢
  have hlt : 2 ^ k < 2 ^ 64 := by omega
  exact pow_dvd_pow 2 (Nat.le_of_lt ((Nat.pow_lt_pow_iff_right (by decide)).1 hlt))

/-- As many buffers as the pool may have fit in the address space. -/
theorem Valid.bytes_lt (h : params.Valid) {n : Nat} (hn : n ≤ params.maxBuffers) :
    n * params.bufferBytesize + params.alignment < 2 ^ 64 := by
  have hle := Nat.mul_le_mul_right params.bufferBytesize hn
  have hfits := h.fits
  omega

/-- Parameters that fit are kept as they are. -/
theorem Valid.normalised (h : params.Valid) : normalised params = .ok params := by
  have hpos := h.alignment_pos
  have hpow : params.alignment &&& (params.alignment - 1) = 0 := by
    rcases h.alignment_pow with ⟨k, hk⟩
    rw [hk, Nat.and_two_pow_sub_one_eq_mod, Nat.mod_self]
  have hbytes := h.bytes_lt h.max_pos
  rw [Nat.one_mul] at hbytes
  have hround : (params.bufferBytesize + params.alignment - 1) / params.alignment
      * params.alignment = params.bufferBytesize := by
    rcases h.alignment_dvd with ⟨c, hc⟩
    have hquot : (params.bufferBytesize + params.alignment - 1) / params.alignment = c := by
      rw [hc]
      apply Nat.div_eq_of_lt_le
      · rw [Nat.mul_comm]
        omega
      · rw [Nat.succ_mul, Nat.mul_comm]
        omega
    rw [hquot, Nat.mul_comm, ← hc]
  unfold Staging.normalised
  simp only [Nat.max_eq_left hpos]
  rw [assertThat_of hpow, wordAdd_of_lt hbytes, wordSub_of_le (by omega) hbytes, hround,
    toWord_of_lt (by omega)]
  rfl

end StagingParams

namespace StagingPool

variable {pool : StagingPool}

/-- A new pool has the parameters that it was given. -/
theorem make_of_valid {params : StagingParams} (h : params.Valid) :
    make params = .ok { params } := by
  unfold make
  rw [h.normalised]
  rfl

/-- At the ceiling there is no plan. -/
theorem planSlab_full (hvalid : pool.params.Valid)
    (hfull : pool.buffers.length = pool.params.maxBuffers) : pool.planSlab.1 = 0 := by
  have hroom : wordSub 32 pool.params.maxBuffers (toWord 32 pool.buffers.length) = 0 := by
    rw [hfull, toWord_of_lt hvalid.max_lt, wordSub_of_le (Nat.le_refl _) hvalid.max_lt,
      Nat.sub_self]
  unfold planSlab
  simp only [hroom, if_true]

/-- Below the ceiling a plan fits the room and leaves space to align. -/
theorem planSlab_spec (hvalid : pool.params.Valid)
    (hless : pool.buffers.length < pool.params.maxBuffers) :
    Planned pool.params pool.planSlab.1 pool.planSlab.2 ∧
      pool.buffers.length + pool.planSlab.1 ≤ pool.params.maxBuffers := by
  have hmax := hvalid.max_lt
  have hroom : wordSub 32 pool.params.maxBuffers (toWord 32 pool.buffers.length) =
      pool.params.maxBuffers - pool.buffers.length := by
    rw [toWord_of_lt (by omega), wordSub_of_le (by omega) hmax]
  have hbuffer : pool.params.bufferBytesize ≠ 0 := by
    have := hvalid.buffer_pos
    omega
  unfold planSlab
  simp only [hroom]
  rw [if_neg (by omega), if_neg hbuffer]
  simp only
  generalize wordAdd 64 (pool.params.slabBytesize / pool.params.bufferBytesize)
    (if pool.params.slabBytesize % pool.params.bufferBytesize ≠ 0 then 1 else 0) = whole
  have hper : toWord 32 (min whole (pool.params.maxBuffers - pool.buffers.length)) =
      min whole (pool.params.maxBuffers - pool.buffers.length) :=
    toWord_of_lt (by omega)
  rw [hper]
  generalize hn : max (min whole (pool.params.maxBuffers - pool.buffers.length)) 1 = n
  have hle : pool.buffers.length + n ≤ pool.params.maxBuffers := by omega
  have hbytes := hvalid.bytes_lt (n := n) (by omega)
  have hpos := hvalid.alignment_pos
  refine ⟨⟨by omega, by omega, ?_⟩, hle⟩
  rw [toWord_of_lt (by omega), wordAdd_of_lt hbytes, wordSub_of_le (by omega) hbytes]
  omega

/-- The first aligned address is a multiple of the alignment, less than one alignment away. -/
theorem firstAligned_spec (hvalid : pool.params.Valid) {slab : Slab} (hslab : slab.Allocated)
    (hbytes : 0 < slab.bytesize) :
    pool.params.alignment ∣ pool.firstAligned slab ∧ slab.memory ≤ pool.firstAligned slab ∧
      pool.firstAligned slab < slab.memory + pool.params.alignment := by
  have hle := hslab.le
  have hpos := hslab.pos
  have hword : wordSub 64 0 slab.memory = 2 ^ 64 - slab.memory := by
    unfold wordSub
    rw [Nat.zero_add]
    exact toWord_of_lt (by omega)
  unfold firstAligned
  rw [hword]
  refine ⟨?_, Nat.le_add_right _ _, ?_⟩
  · have hsum : (slab.memory + (2 ^ 64 - slab.memory)) % pool.params.alignment = 0 := by
      rw [Nat.add_sub_cancel' (by omega)]
      exact Nat.mod_eq_zero_of_dvd hvalid.alignment_dvd_words
    rw [Nat.dvd_iff_mod_eq_zero, Nat.add_mod_mod]
    exact hsum
  · exact Nat.add_lt_add_left (Nat.mod_lt _ hvalid.alignment_pos) _

@[simp]
theorem length_cut (slab : Slab) (perSlab : Nat) : (pool.cut slab perSlab).length = perSlab := by
  simp [cut]

/-- The indices of new buffers go on from those of the old ones. -/
theorem cut_index {slab : Slab} {perSlab : Nat}
    (hle : pool.buffers.length + perSlab < 2 ^ 32) :
    (pool.cut slab perSlab).map StagingBuffer.index =
      (List.range perSlab).map fun i => pool.buffers.length + i := by
  unfold cut
  rw [List.map_map]
  apply List.map_congr_left
  intro i hi
  exact toWord_of_lt (by have := List.mem_range.1 hi; omega)

/-- The buffers of a slab are aligned and inside it. -/
theorem mem_cut (hvalid : pool.params.Valid) {slab : Slab} (hslab : slab.Allocated)
    {perSlab : Nat} (hplan : Planned pool.params perSlab slab.bytesize) {buffer : StagingBuffer}
    (hmem : buffer ∈ pool.cut slab perSlab) :
    buffer.bytesize = pool.params.bufferBytesize ∧ pool.params.alignment ∣ buffer.data ∧
      buffer.Inside slab ∧ buffer.slab = toWord 32 pool.slabs.length := by
  rcases List.mem_map.1 hmem with ⟨i, hi, rfl⟩
  have hbytes := hplan.bytes
  have hpos := Nat.mul_le_mul hplan.pos hvalid.buffer_pos
  have hfirst := firstAligned_spec hvalid hslab (by have := hvalid.alignment_pos; omega)
  rcases hfirst with ⟨haligned, hge, hlt⟩
  have hi := Nat.mul_le_mul_right pool.params.bufferBytesize (List.mem_range.1 hi)
  rw [Nat.succ_mul] at hi
  refine ⟨rfl, ?_, ⟨?_, ?_⟩, rfl⟩
  · exact Nat.dvd_add haligned (Nat.dvd_mul_left_of_dvd hvalid.alignment_dvd i)
  · exact Nat.le_trans hge (Nat.le_add_right _ _)
  · change pool.firstAligned slab + i * pool.params.bufferBytesize + pool.params.bufferBytesize ≤
      slab.memory + slab.bytesize
    omega

/-- The buffers of a slab share no byte. -/
theorem cut_apart (slab : Slab) (perSlab : Nat) :
    (pool.cut slab perSlab).Pairwise StagingBuffer.Apart := by
  unfold cut
  rw [List.pairwise_map]
  apply List.pairwise_lt_range.imp
  intro i j hij
  have hle := Nat.mul_le_mul_right pool.params.bufferBytesize hij
  rw [Nat.succ_mul] at hle
  left
  change pool.firstAligned slab + i * pool.params.bufferBytesize + pool.params.bufferBytesize ≤
    pool.firstAligned slab + j * pool.params.bufferBytesize
  omega

end StagingPool

end Staging
end DeviceIo
end ModelStreamer
