import ModelStreamer.AsyncIo.InflightChunks
import ModelStreamer.Lib.Blocks
import ModelStreamer.PosixIo.Alignment

/-!
# One pass of a chunk

A buffered pass reads exactly what is pending.  A direct pass reads whole blocks: into a
staging buffer the read is widened at both ends, and into the caller's memory the partial
blocks at the ends are read into a scratch buffer and the wanted bytes are copied out.
-/

namespace ModelStreamer
namespace AsyncIo

open Common Lib Streamer PosixIo

/-! ## Scratch buffers -/

/-- {lit}`ScratchPool`: buffers of one block; the one given back last is at the head. -/
structure ScratchPool where
  block : Nat
  free : List Addr
deriving DecidableEq, Repr

/-- {lit}`ScratchPool::take`. -/
def ScratchPool.take (pool : ScratchPool) : Option (Addr × ScratchPool) :=
  match pool.free with
  | [] => none
  | buffer :: free => some (buffer, { pool with free })

/-- {lit}`ScratchPool::give`. -/
def ScratchPool.give (pool : ScratchPool) (buffer : Addr) : ScratchPool :=
  { pool with free := buffer :: pool.free }

/-! ## Sizes -/

/-- {lit}`MaxProbeBlock`: the block of a mount that could not be measured. -/
def maxProbeBlock : Nat := 65536

/-- {lit}`staging_bytesize`: room for a chunk, widened to blocks when it is read directly. -/
def stagingBytesize (chunkBytesize block : Nat) (direct : Bool) : Nat :=
  if direct then ceilTo block (chunkBytesize + block - 1) else chunkBytesize

/-! ## Planning a pass -/

/-- {lit}`DirectPass`: the read of one pass, and which part of it is wanted. -/
structure DirectPass where
  offset : Nat
  bytesize : Nat
  buffer : Addr
  scratch : Option Addr
  skip : Nat
  wanted : Nat
deriving DecidableEq, Repr

/-- The pass that reads exactly what is pending. -/
def DirectPass.exact (pending : Chunk) : DirectPass :=
  { offset := pending.offset
    bytesize := pending.bytesize
    buffer := pending.buffer
    scratch := none
    skip := 0
    wanted := 0 }

/-- A pass of one block into scratch, of which the part from {lit}`skip` on is wanted. -/
def DirectPass.bounced (pending : Chunk) (block skip wanted : Nat) (scratch : Addr) :
    DirectPass :=
  { offset := pending.offset - skip
    bytesize := block
    buffer := scratch
    scratch := some scratch
    skip
    wanted }

/-- The pass into a staging buffer: the whole blocks around what is pending. -/
def DirectPass.widened (pending : Chunk) (block : Nat) : DirectPass :=
  let head := pending.offset % block
  { offset := pending.offset - head
    bytesize := ceilTo block (head + pending.bytesize)
    buffer := pending.buffer - BitVec.ofNat 64 head
    scratch := none
    skip := head
    wanted := pending.bytesize }

/-- Take a scratch buffer for a bounced pass; there may be no pool or no free buffer. -/
def bounceThrough (pool : Option ScratchPool) (pass : Addr → DirectPass) :
    Option (DirectPass × Option ScratchPool) :=
  (pool.bind ScratchPool.take).map fun (scratch, pool) => (pass scratch, some pool)

/-- {lit}`AsyncIoWorker::plan_direct_pass`. -/
def planDirectPass (pool : Option ScratchPool) (pending : Chunk) (block : Nat)
    (staged : Bool) : Option (DirectPass × Option ScratchPool) :=
  let head := pending.offset % block
  if staged then
    some (DirectPass.widened pending block, pool)
  else if head ≠ 0 then
    bounceThrough pool
      (DirectPass.bounced pending block head (min (block - head) pending.bytesize))
  else if pending.bytesize ≥ block then
    some ({ DirectPass.exact pending with
      bytesize := pending.bytesize - pending.bytesize % block }, pool)
  else
    bounceThrough pool (DirectPass.bounced pending block 0 pending.bytesize)

/-- The pass of a chunk whose file was opened this way. -/
def planPass (pool : Option ScratchPool) (pending : Chunk) (block : Nat)
    (direct staged : Bool) : Option (DirectPass × Option ScratchPool) :=
  if direct then planDirectPass pool pending block staged
  else some (DirectPass.exact pending, pool)

/--
Where a chunk sits inside its staging buffer is decided by its first direct pass and kept
while bytes of it have landed.
-/
def InflightChunk.placeInStaging (entry : InflightChunk) (block : Nat) (direct : Bool) :
    InflightChunk :=
  if direct ∧ entry.staging.isSome ∧ entry.cursor = entry.chunk.offset then
    { entry with stagingSkip := entry.chunk.offset % block }
  else
    entry

/-- The entry while the pass is in flight. -/
def InflightChunk.withPass (entry : InflightChunk) (pass : DirectPass) : InflightChunk :=
  if pass.scratch.isSome ∨ pass.wanted ≠ 0 then
    entry.setBounce pass.scratch pass.skip pass.wanted
  else
    entry

section WithPass

variable (entry : InflightChunk) (pass : DirectPass)

@[simp]
theorem withPass_chunk : (entry.withPass pass).chunk = entry.chunk := by
  unfold InflightChunk.withPass
  split <;> rfl

@[simp]
theorem withPass_cursor : (entry.withPass pass).cursor = entry.cursor := by
  unfold InflightChunk.withPass
  split <;> rfl

@[simp]
theorem withPass_remaining : (entry.withPass pass).remaining = entry.remaining := by
  unfold InflightChunk.withPass
  split <;> rfl

@[simp]
theorem withPass_staging : (entry.withPass pass).staging = entry.staging := by
  unfold InflightChunk.withPass
  split <;> rfl

@[simp]
theorem withPass_stagingSkip : (entry.withPass pass).stagingSkip = entry.stagingSkip := by
  unfold InflightChunk.withPass
  split <;> rfl

end WithPass

/-! ## Landing a pass -/

/-- The entry has a bounced or widened pass in flight. -/
def InflightChunk.bounces (entry : InflightChunk) : Bool :=
  entry.scratch.isSome || entry.scratchSkip ≠ 0 || entry.scratchWanted ≠ 0

/-- {lit}`land_bounced_pass`: how many of the bytes that arrived belong to the chunk. -/
def InflightChunk.useful (entry : InflightChunk) (bytesTransferred : Nat) : Nat :=
  if entry.bounces then
    if bytesTransferred ≤ entry.scratchSkip then 0
    else min entry.scratchWanted (bytesTransferred - entry.scratchSkip)
  else
    bytesTransferred

/-! ## Shapes of passes -/

/-- The four shapes of a pass. -/
inductive PassShape (pool : Option ScratchPool) (pending : Chunk) (block : Nat) :
    Bool → Bool → DirectPass → Option ScratchPool → Prop
  | exact (staged : Bool) :
      PassShape pool pending block false staged (DirectPass.exact pending) pool
  | widened : PassShape pool pending block true true (DirectPass.widened pending block) pool
  | straight : pending.offset % block = 0 → block ≤ pending.bytesize →
      PassShape pool pending block true false
        { DirectPass.exact pending with
          bytesize := pending.bytesize - pending.bytesize % block } pool
  | bounced {scratch : Addr} {p p' : ScratchPool} : pool = some p →
      p.take = some (scratch, p') →
      PassShape pool pending block true false
        (DirectPass.bounced pending block (pending.offset % block)
          (min (block - pending.offset % block) pending.bytesize) scratch) (some p')

/-- A pass that was planned has one of the shapes. -/
theorem planPass_shape {pool pool' : Option ScratchPool} {pending : Chunk} {block : Nat}
    {direct staged : Bool} {pass : DirectPass}
    (h : planPass pool pending block direct staged = some (pass, pool')) :
    PassShape pool pending block direct staged pass pool' := by
  have hbounce : ∀ {f : Addr → DirectPass}, bounceThrough pool f = some (pass, pool') →
      ∃ scratch p p', pool = some p ∧ p.take = some (scratch, p') ∧ pass = f scratch ∧
        pool' = some p' := by
    intro f hf
    simp only [bounceThrough, Option.map_eq_some_iff, Option.bind_eq_some_iff] at hf
    obtain ⟨⟨scratch, p'⟩, ⟨p, hp, htake⟩, heq⟩ := hf
    obtain ⟨rfl, rfl⟩ := Prod.mk.inj heq
    exact ⟨scratch, p, p', hp, htake, rfl, rfl⟩
  unfold planPass at h
  cases direct with
  | false =>
      cases h
      exact .exact staged
  | true =>
      simp only [if_true, planDirectPass] at h
      cases staged with
      | true =>
          cases h
          exact .widened
      | false =>
          simp only [Bool.false_eq_true, if_false] at h
          split_ifs at h with hhead hwhole
          · obtain ⟨scratch, p, p', hp, htake, rfl, rfl⟩ := hbounce h
            exact .bounced hp htake
          · cases h
            exact .straight (by omega) hwhole
          · obtain ⟨scratch, p, p', hp, htake, rfl, rfl⟩ := hbounce h
            have hzero : pending.offset % block = 0 := by omega
            have hmin : min (block - pending.offset % block) pending.bytesize =
                pending.bytesize := by omega
            have hshape : PassShape pool pending block true false _ _ := .bounced hp htake
            rw [hmin, hzero] at hshape
            exact hshape

end AsyncIo
end ModelStreamer
