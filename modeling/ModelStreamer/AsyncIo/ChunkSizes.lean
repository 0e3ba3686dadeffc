import ModelStreamer.AsyncIo.AsyncIoSettings
import ModelStreamer.AsyncIo.FsAsyncRouter
import ModelStreamer.AsyncIo.PassSpec
import ModelStreamer.PosixIo.IoEngine
import ModelStreamer.Streamer.SubmissionTiling

/-!
# Chunk sizes

The configured chunk size reaches two places: the streamer cuts tasks and chunks with it,
and the asynchronous reader sizes its staging buffers with it.  Only the second clamps it to
what the kernel reads in one go.

Main results:

- Theorem {lit}`chunkSizesAgree_iff`: the two agree, and every read fits its buffer and the
  engine, exactly when no chunk window is longer than the largest read, and for direct reads
  no chunk window widened to whole blocks.
-/

namespace ModelStreamer
namespace AsyncIo

open Common Lib Streamer PosixIo

/-! ## The passes of a chunk -/

/--
The states of a chunk's entry between two passes on a mount with this strategy and block,
with whether its file is read directly and the block in force.  The entry starts from
{lit}`InflightChunks::add` with its staging buffer; a measured block may replace a larger
provisional one, and a file that is read directly may be demoted.
-/
inductive BetweenPasses (strategy : Strategy) (mountBlock : Nat) (chunk : Chunk)
    (staging : Option StagingBuffer) : Bool → Nat → InflightChunk → Prop
  | start {direct : Bool} {block : Nat} (workloadId batchIndex : Nat) :
      (direct = true → strategy.isDirect = true) → 0 < block → block ∣ mountBlock →
      BetweenPasses strategy mountBlock chunk staging direct block
        { InflightChunk.make chunk workloadId batchIndex with staging }
  | adopt {direct : Bool} {block block' : Nat} {entry : InflightChunk} :
      BetweenPasses strategy mountBlock chunk staging direct block entry →
      0 < block' → block' ∣ block →
      BetweenPasses strategy mountBlock chunk staging direct block' entry
  | demote {block : Nat} {entry : InflightChunk} :
      BetweenPasses strategy mountBlock chunk staging true block entry →
      BetweenPasses strategy mountBlock chunk staging false block entry
  | retry {direct : Bool} {block retries : Nat} {entry : InflightChunk} :
      BetweenPasses strategy mountBlock chunk staging direct block entry →
      BetweenPasses strategy mountBlock chunk staging direct block
        { entry.placeInStaging block direct with transientRetries := retries }
  | pass {direct : Bool} {block count : Nat} {entry entry' : InflightChunk}
      {pool pool' : Option ScratchPool} {pass : DirectPass} :
      BetweenPasses strategy mountBlock chunk staging direct block entry →
      planPass pool (entry.placeInStaging block direct).pending block direct
        staging.isSome = some (pass, pool') →
      count ≤ pass.bytesize →
      ((entry.placeInStaging block direct).withPass pass).record
        (((entry.placeInStaging block direct).withPass pass).useful count) =
          (.partialRead, entry') →
      BetweenPasses strategy mountBlock chunk staging direct block entry'.clearBounce

/-- The memory that a pass writes to has room for its whole length. -/
def DirectPass.HasRoom (pass : DirectPass) (entry : InflightChunk) (scratchBlock : Nat) :
    Prop :=
  match pass.scratch, entry.staging with
  | some _, _ => pass.bytesize ≤ scratchBlock
  | none, some buffer =>
      ∃ at_, pass.buffer = ptrAdd buffer.data at_ ∧ at_ + pass.bytesize ≤ buffer.bytesize
  | none, none =>
      ∃ at_, pass.buffer = ptrAdd entry.chunk.buffer at_ ∧
        at_ + pass.bytesize ≤ entry.chunk.bytesize

/-- A pass that the engine, the entry of the ring and the memory behind it can take. -/
structure DirectPass.Fits (pass : DirectPass) (entry : InflightChunk)
    (maxRead scratchBlock : Nat) : Prop where
  le_maxRead : pass.bytesize ≤ maxRead
  representable : prepReadLength pass.bytesize = pass.bytesize
  room : pass.HasRoom entry scratchBlock
  no_eof : ((entry.withPass pass).record
    ((entry.withPass pass).useful (servedBytes maxRead pass.bytesize))).1 ≠ .eof

/--
The chunks that a configuration gives on a mount with this strategy and block: each is at
most the chunk size of the settings, and every pass of it fits.
-/
def ChunkSizesAgree (config : Config) (pageSize : Nat) (strategy : Strategy) (block : Nat) :
    Prop :=
  ∀ (request : List FileRanges) (groupByFile : List Int32) (submissionId : Nat)
    (device : Device) (nodeWideDepth processGroupSize : Nat) (a : Assigner)
    (heap : List Request) (batches : List Batch),
    let settings := AsyncIoSettings.make config nodeWideDepth processGroupSize
      (maxReadBytesize pageSize)
    RequestFits request →
    makeAssigner request config groupByFile = .ok a →
    buildBatches config submissionId device request a.transfers [] = .ok (heap, batches) →
    ∀ batch ∈ batches, batch.isObjectStorage = false → ∀ chunk ∈ batch.chunks,
      chunk.bytesize ≤ settings.chunkBytesize ∧
      ∀ (staging : Option StagingBuffer) (direct : Bool) (block' : Nat)
        (entry : InflightChunk) (pool pool' : Option ScratchPool) (pass : DirectPass),
        staging.isSome = readsThroughStaging batch.device →
        (∀ buffer, staging = some buffer → buffer.bytesize =
          stagingBytesize settings.chunkBytesize block strategy.isDirect) →
        BetweenPasses strategy block chunk staging direct block' entry →
        planPass pool (entry.placeInStaging block' direct).pending block' direct
          staging.isSome = some (pass, pool') →
        pass.Fits (entry.placeInStaging block' direct) (maxReadBytesize pageSize) block

/-- The bytes of chunk window {lit}`k`, widened to whole blocks. -/
def widenedWindow (c block k : Nat) : Nat :=
  ceilTo block ((k + 1) * c) - (k * c - k * c % block)

section Entries

variable {strategy : Strategy} {mountBlock : Nat} {chunk : Chunk}
  {staging : Option StagingBuffer} {direct : Bool} {block : Nat} {entry : InflightChunk}

/-- The entries between the passes of a chunk. -/
theorem BetweenPasses.entryOk (hmount : 0 < mountBlock) (hpos : 0 < chunk.bytesize)
    (h : BetweenPasses strategy mountBlock chunk staging direct block entry) :
    EntryOk strategy mountBlock chunk staging direct block entry := by
  induction h with
  | start workloadId batchIndex hdirect hblock hdvd =>
      exact entryOk_make workloadId batchIndex hpos hmount hdirect hblock hdvd
  | adopt _ hblock hdvd ih => exact ih.adopt hblock hdvd
  | demote _ ih => exact ih.demote
  | retry _ ih =>
      have hplaced := ih.placeInStaging hmount
      exact { hplaced with }
  | pass _ hplan hcount hrecord ih =>
      obtain ⟨hcountpos, hlt, rfl⟩ := record_partialRead hrecord
      rw [withPass_remaining] at hlt
      have hnext := (ih.placeInStaging hmount).advance ih.placed hlt
      exact { hnext with
        chunk_eq := by simpa using hnext.chunk_eq
        staging_eq := by simpa using hnext.staging_eq
        cursor_le := by simpa using hnext.cursor_le
        stop_eq := by simpa using hnext.stop_eq
        remaining_pos := by simpa using hnext.remaining_pos
        notBouncing := rfl
        skip_direct := by simpa using hnext.skip_direct
        skip_lt := by simpa using hnext.skip_lt
        skip_placed := by simpa using hnext.skip_placed }

/-! ## Every pass fits -/

/-- A read that is not longer than the largest read is served as it was asked for. -/
theorem servedBytes_of_le {maxRead bytesize : Nat} (hmax : maxRead ≤ intMax)
    (hle : bytesize ≤ maxRead) :
    prepReadLength bytesize = bytesize ∧ servedBytes maxRead bytesize = bytesize := by
  have hlength : prepReadLength bytesize = bytesize := by
    refine toWord_of_lt (lt_of_le_of_lt (hle.trans hmax) ?_)
    decide
  exact ⟨hlength, by rw [servedBytes, hlength, Nat.min_eq_left hle]⟩

/-- The bytes of a window that a chunk of it touches at a block that divides the mount's. -/
theorem blocks_le_widenedWindow {c k cursor stop : Nat} (hblock : 0 < block)
    (hmount : 0 < mountBlock) (hdvd : block ∣ mountBlock) (hlow : k * c ≤ cursor)
    (hstop : stop ≤ (k + 1) * c) :
    ceilTo block stop - (cursor - cursor % block) ≤ widenedWindow c mountBlock k := by
  have hup : ceilTo block stop ≤ ceilTo mountBlock ((k + 1) * c) :=
    (ceilTo_le_ceilTo hblock hmount hdvd stop).trans (ceilTo_mono hmount hstop)
  have hdown : k * c - k * c % mountBlock ≤ cursor - cursor % block := by
    have hmultiple : block ∣ k * c - k * c % mountBlock :=
      hdvd.trans (Nat.dvd_sub_mod (k * c))
    have hle : k * c - k * c % mountBlock ≤ cursor := (Nat.sub_le _ _).trans hlow
    obtain ⟨j, hj⟩ := hmultiple
    rw [hj] at hle ⊢
    have hjdiv : j ≤ cursor / block := (Nat.le_div_iff_mul_le hblock).2 (by rwa [Nat.mul_comm])
    have hsplit := Nat.div_add_mod cursor block
    have hmul : block * j ≤ block * (cursor / block) := Nat.mul_le_mul_left block hjdiv
    omega
  unfold widenedWindow
  omega

/-- Windows repeat with the period of the block. -/
theorem widenedWindow_mod (hmount : 0 < mountBlock) (c k : Nat) :
    widenedWindow c mountBlock k = widenedWindow c mountBlock (k % mountBlock) := by
  have hsplit : k = mountBlock * (k / mountBlock) + k % mountBlock :=
    (Nat.div_add_mod k mountBlock).symm
  have hdvd : mountBlock ∣ mountBlock * (k / mountBlock) * c :=
    Dvd.dvd.mul_right (Nat.dvd_mul_right _ _) c
  have hstart : k * c = mountBlock * (k / mountBlock) * c + k % mountBlock * c := by
    rw [← Nat.add_mul, ← hsplit]
  have hend : (k + 1) * c = mountBlock * (k / mountBlock) * c + (k % mountBlock + 1) * c := by
    rw [Nat.add_mul, hstart, Nat.add_mul, Nat.add_assoc]
  have hmod : k * c % mountBlock = k % mountBlock * c % mountBlock := by
    rw [hstart, Nat.add_mod, Nat.mod_eq_zero_of_dvd hdvd, Nat.zero_add, Nat.mod_mod]
  have hle := Nat.mod_le (k % mountBlock * c) mountBlock
  unfold widenedWindow
  rw [hend, ceilTo_add_of_dvd hmount hdvd, hmod, hstart]
  omega

/-- A block lies inside every widened window. -/
theorem mountBlock_le_widenedWindow {c : Nat} (hmount : 0 < mountBlock) (hc : 0 < c) (k : Nat) :
    mountBlock ≤ widenedWindow c mountBlock k := by
  have hfloor : mountBlock ∣ k * c - k * c % mountBlock := Nat.dvd_sub_mod (k * c)
  have hmodle := Nat.mod_le (k * c) mountBlock
  have hlt : k * c - k * c % mountBlock < ceilTo mountBlock ((k + 1) * c) := by
    have hle := le_ceilTo hmount ((k + 1) * c)
    rw [Nat.add_mul, Nat.one_mul] at hle ⊢
    omega
  have hdiff : mountBlock ∣
      ceilTo mountBlock ((k + 1) * c) - (k * c - k * c % mountBlock) :=
    Nat.dvd_sub (dvd_ceilTo _ _) hfloor
  exact Nat.le_of_dvd (by unfold widenedWindow at *; omega) hdiff

/-- What the passes of a chunk need from the sizes of the mount and of the settings. -/
structure SizesOk (strategy : Strategy) (mountBlock c maxRead settingsChunk : Nat)
    (chunk : Chunk) (staging : Option StagingBuffer) : Prop
    extends RoomOk strategy mountBlock settingsChunk chunk staging where
  maxRead_le : maxRead ≤ intMax
  settingsChunk_le : settingsChunk ≤ maxRead
  window : ∃ k, k * c ≤ chunk.offset ∧ chunk.offset + chunk.bytesize ≤ (k + 1) * c
  widened_le : strategy.isDirect = true → ∀ k, widenedWindow c mountBlock k ≤ maxRead
  block_le : strategy.isDirect = true → mountBlock ≤ maxRead

variable {c maxRead settingsChunk : Nat} {pool pool' : Option ScratchPool} {pass : DirectPass}

/-- A pass of any shape is at most the largest read. -/
theorem EntryOk.bytesize_le (h : EntryOk strategy mountBlock chunk staging direct block entry)
    (hsizes : SizesOk strategy mountBlock c maxRead settingsChunk chunk staging)
    (hshape : PassShape pool entry.pending block direct staging.isSome pass pool') :
    pass.bytesize ≤ maxRead := by
  have hremaining : entry.remaining ≤ maxRead := by
    have hstop := h.stop_eq
    have hle := h.cursor_le
    have hchunk := hsizes.bytesize_le
    have hsettings := hsizes.settingsChunk_le
    omega
  generalize hstaged : staging.isSome = staged at hshape
  cases hshape with
  | exact => exact hremaining
  | widened =>
      obtain ⟨k, hlow, hhigh⟩ := hsizes.window
      have hblocks := blocks_le_widenedWindow (k := k) (c := c) h.block_pos
        hsizes.mountBlock_pos h.block_dvd (hlow.trans h.cursor_le) (h.stop_eq ▸ hhigh)
      rw [← ceilTo_sub_floor h.block_pos] at hblocks
      exact hblocks.trans (hsizes.widened_le (h.direct_of rfl) k)
  | straight => exact (Nat.sub_le _ _).trans hremaining
  | bounced =>
      have hle := Nat.le_of_dvd hsizes.mountBlock_pos h.block_dvd
      exact hle.trans (hsizes.block_le (h.direct_of rfl))

/-- A pass of any shape has room for its length. -/
theorem EntryOk.hasRoom (h : EntryOk strategy mountBlock chunk staging direct block entry)
    (hroom : RoomOk strategy mountBlock settingsChunk chunk staging)
    (hplaced : direct = true → staging.isSome = true →
      ∃ placedAt, block ∣ placedAt ∧ entry.stagingSkip = chunk.offset % placedAt)
    (hshape : PassShape pool entry.pending block direct staging.isSome pass pool') :
    pass.HasRoom entry mountBlock := by
  have hmount := Nat.le_of_dvd hroom.mountBlock_pos h.block_dvd
  cases hscratch : pass.scratch with
  | some scratch =>
      generalize staging.isSome = staged at hshape
      cases hshape with
      | exact => cases hscratch
      | widened => cases hscratch
      | straight => cases hscratch
      | bounced => exact hmount
  | none =>
      obtain ⟨at_, hbuffer, -, hle⟩ := h.inPlace hroom hplaced hshape hscratch
      unfold InflightChunk.area at hbuffer
      unfold InflightChunk.room at hle
      unfold DirectPass.HasRoom
      rw [hscratch]
      cases hstaging : entry.staging with
      | none =>
          simp only [hstaging] at hbuffer hle
          exact ⟨at_, hbuffer, hle⟩
      | some buffer =>
          simp only [hstaging] at hbuffer hle
          exact ⟨at_, hbuffer, hle⟩

/-- Every pass of a chunk fits when the sizes do. -/
theorem BetweenPasses.fits (hsizes : SizesOk strategy mountBlock c maxRead settingsChunk chunk staging)
    (hpos : 0 < chunk.bytesize)
    (h : BetweenPasses strategy mountBlock chunk staging direct block entry)
    (hplan : planPass pool (entry.placeInStaging block direct).pending block direct
      staging.isSome = some (pass, pool')) :
    pass.Fits (entry.placeInStaging block direct) maxRead mountBlock := by
  have hentry := h.entryOk hsizes.mountBlock_pos hpos
  have hplaced := hentry.placeInStaging hsizes.mountBlock_pos
  have hshape := planPass_shape hplan
  have hle := hplaced.bytesize_le hsizes hshape
  obtain ⟨hlength, hserved⟩ := servedBytes_of_le hsizes.maxRead_le hle
  refine ⟨hle, hlength, hplaced.hasRoom hsizes.toRoomOk hentry.placed hshape, ?_⟩
  rw [hserved]
  exact record_ne_eof (hplaced.useful_pos hshape)

end Entries

/-! ## A request for one range -/

/-- A request for one range of one file. -/
def oneRange (offset size : Nat) : List FileRanges :=
  [{ path := ['a'], ranges := [⟨offset, size, 0⟩] }]

/-- One range is one transfer. -/
theorem coalesce_oneRange (offset size : Nat) :
    coalesce (oneRange offset size) =
      .ok { transfers := [openedTransfer 0 0 ⟨offset, size, 0⟩], totalBytes := size,
            openIndex := 0 } := by
  simp [coalesce, oneRange, coalesceFiles, coalesceRanges, coalesceRange, bind, Except.bind]

/-- A group with one worker takes its only transfer as one slice. -/
theorem assignGroup_single {b size : Nat} {t : ContiguousTransfer} {ws : List Nat}
    {gs : List Int} {group : Int} (hsize : t.size = size) (hpos : 0 < size) (hlt : size < 2 ^ 64) :
    assignGroup b [0] 1 0 size group
      { transfers := [t], workerBytes := 0 :: ws, groupByWorkload := (-1) :: gs } =
      .ok (1,
        { transfers := [t.addTask (t.slice 0 0 size)], workerBytes := size :: ws,
          groupByWorkload := group :: gs }) := by
  have hworkloads : (bytesPerWorkerFor b size 1).workloads = 1 := by
    have hmax : max (min (size / b) 1) 1 = 1 := by omega
    simp only [bytesPerWorkerFor, hmax]
    rfl
  have htarget : (bytesPerWorkerFor b size 1).target 0 = size := by
    have hmax : max (min (size / b) 1) 1 = 1 := by omega
    have hone : toWord 32 1 = 1 := rfl
    have hle := Nat.div_mul_le_self size b
    simp only [WorkerShare.target, if_true, bytesPerWorkerFor, hmax, hone, Nat.div_one,
      Nat.one_mul]
    rw [wordSub_of_le hle hlt, wordAdd_of_lt (by omega)]
    omega
  have hsub : wordSub 64 size 0 = size := wordSub_of_le (Nat.zero_le _) hlt
  have hadd : wordAdd 64 0 size = size := by
    rw [wordAdd_of_lt (by omega), Nat.zero_add]
  have hzero : wordAdd 32 0 0 = 0 := rfl
  simp only [assignGroup, List.cons_ne_nil, if_false, hworkloads]
  simp only [assignSlots, htarget, hzero, List.length_singleton, bind, Except.bind]
  have hmore : ¬ (0 < size ∧ size = 0) := by omega
  simp [assignSlot, hsize, AssignState.give, hsub, hadd, hmore]

/-- A file of an async group is read by one worker, in one slice. -/
theorem assigner_oneRange (config : Config) {offset size : Nat} (hpos : 0 < size)
    (h : offset + size < 2 ^ 63) :
    ∃ a, makeAssigner (oneRange offset size) config [0] = .ok a ∧
      a.transfers = [(openedTransfer 0 0 ⟨offset, size, 0⟩).addTask
        ((openedTransfer 0 0 ⟨offset, size, 0⟩).slice 0 0 size)] := by
  have hlt : size < 2 ^ 64 := by omega
  have hstorage : checkObjectStorage (oneRange offset size) = false := rfl
  have hgroups : groupTransfers [0] 0 [openedTransfer 0 0 ⟨offset, size, 0⟩] .empty .empty =
      (.empty, (OrderedMap.empty.update 0 .empty fun load => load.add 0 size)) := by
    rfl
  have hadd : wordAdd 64 0 size = size := by
    rw [wordAdd_of_lt (by omega), Nat.zero_add]
  have hentries : (OrderedMap.empty.update (0 : Int) GroupLoad.empty
      fun load => load.add 0 size).entries = [(0, ⟨[0], size⟩)] := by
    simp [OrderedMap.update, updateEntries, GroupLoad.add, GroupLoad.empty, hadd]
  have hceiling : toWord 32 (config.numWorkers false + toWord 32 1 + 1) =
      config.numWorkers false + 2 := by
    have hle := config.numWorkers_le false
    unfold maxConcurrency at hle
    exact toWord_of_lt (by simp only [toWord]; omega)
  have hsingle : assignGroup (config.blockBytesize false) [0] 1 0 size 0
      { transfers := [openedTransfer 0 0 ⟨offset, size, 0⟩]
        workerBytes := 0 :: 0 :: List.replicate (config.numWorkers false) 0
        groupByWorkload := (-1) :: (-1) :: List.replicate (config.numWorkers false) (-1) } = _ :=
    assignGroup_single rfl hpos hlt
  have hsum : sumSizes [size] = size := by
    rw [sumSizes, List.sum_singleton, toWord_of_lt hlt]
  have hassign : assign (config.blockBytesize false) (config.numWorkers false) [0]
      [openedTransfer 0 0 ⟨offset, size, 0⟩] size =
      .ok
        { transfers := [(openedTransfer 0 0 ⟨offset, size, 0⟩).addTask
            ((openedTransfer 0 0 ⟨offset, size, 0⟩).slice 0 0 size)]
          numWorkloads := 1
          groupByWorkload := [0]
          numAsyncGroups := 1 } := by
    simp only [assign, hgroups, hentries, List.length_singleton, hceiling, List.replicate_succ,
      bind, Except.bind]
    rw [show assignGroup (config.blockBytesize false) GroupLoad.empty.indices
      (config.numWorkers false) 0 GroupLoad.empty.bytes (-1) = fun s => .ok (0, s) from
        funext fun s => by simp [assignGroup, GroupLoad.empty]]
    simp only [assignAsyncGroups, bind, Except.bind]
    rw [hsingle]
    have hbytes : sumSizes (resize 0 (max (wordAdd 32 0 1) 1)
        (size :: 0 :: List.replicate (config.numWorkers false) 0)) = size := by
      simpa [resize, wordAdd, toWord] using hsum
    have htasks : ∀ t ∈ [(openedTransfer 0 0 ⟨offset, size, 0⟩).addTask
        ((openedTransfer 0 0 ⟨offset, size, 0⟩).slice 0 0 size)],
        sumSizes (t.tasks.map FileReadTask.size) = t.size := by
      intro t ht
      rw [List.mem_singleton.1 ht]
      exact hsum
    simp only [assertThat_of hbytes, assertThat_of htasks]
    simp [resize, wordAdd, toWord, pure, Except.pure]
  simp only [makeAssigner, coalesce_oneRange, bind, Except.bind, hstorage]
  rw [if_neg (by simp [oneRange]), if_neg (by simp), hassign]
  exact ⟨_, rfl, rfl⟩

/-- A range inside one chunk window becomes one chunk. -/
theorem batches_oneRange (config : Config) (device : Device) {offset size : Nat}
    (hpos : 0 < size) (h : offset + size < 2 ^ 63)
    (hwindow : size ≤ config.fsAsyncChunkBytesize - offset % config.fsAsyncChunkBytesize) :
    ∃ heap batch, buildBatches config 0 device (oneRange offset size)
        [(openedTransfer 0 0 ⟨offset, size, 0⟩).addTask
          ((openedTransfer 0 0 ⟨offset, size, 0⟩).slice 0 0 size)] [] = .ok (heap, [batch]) ∧
      batch.isObjectStorage = false ∧ batch.device = device ∧
      batch.chunks = [⟨offset, size, 0, 0, 1⟩] := by
  have hoffset : wordAdd 64 offset 0 = offset := by
    rw [wordAdd_of_lt (by omega), Nat.add_zero]
  have hstop : wordAdd 64 offset size = offset + size := wordAdd_of_lt (by omega)
  have hzero : size ≠ 0 := by omega
  have hcut : ∀ itr : BatchItr, itr.currentWorkerBytesize = size →
      cutRange config.fsAsyncChunkBytesize (size + 1) itr offset size 0 =
        .ok ([(itr.currentTaskIndex, TaskInfo.make offset size 0)],
          { itr with currentWorkerBytesize := 0 }) := by
    intro itr hitr
    have hmin : min size
        (config.fsAsyncChunkBytesize - offset % config.fsAsyncChunkBytesize) = size := by omega
    simp [cutRange, hmin, BatchItr.consume, BatchItr.advance, hitr, hzero, bind, Except.bind,
      pure, Except.pure]
  have hparse : (StorageUri.parse ['a']).isSome = false := by decide
  have hc : config.chunkBytesize false = config.fsAsyncChunkBytesize := rfl
  have hne : config.fsAsyncChunkBytesize ≠ 0 := by
    have hcpos := config.fsAsyncChunkBytesize_pos
    omega
  have hadd : addTasks 0 [(0, TaskInfo.make offset size 0)] [[]] =
      .ok [[Task.make 0 (TaskInfo.make offset size 0)]] := by
    simp [addTasks, assertThat, bind, Except.bind]
  have hsplit : splitIntoChunks [Request.make offset 0 (toWord 32 0) 1 size 0]
      [Task.make 0 (TaskInfo.make offset size 0)] config.fsAsyncChunkBytesize =
        .ok [⟨offset, size, 0, 0, 1⟩] := by
    simp [splitIntoChunks, splitTasks, splitTask, assertThat, hne, startsAChunk, bind,
      Except.bind, Task.make, TaskInfo.make, Task.destination, Request.make, pure, Except.pure,
      hzero]
  have hle : ¬ (Task.make 0 (TaskInfo.make offset size 0)).info.stop <
      (Task.make 0 (TaskInfo.make offset size 0)).info.offset := by
    simp only [Task.make, TaskInfo.make, hstop]
    omega
  simp only [buildBatches, batchesOf, oneRange, ContiguousTransfer.addTask, openedTransfer,
    ContiguousTransfer.slice, makeBatches, cutTransfer, BatchItr.make, BatchItr.readTask, originOf, bind,
    Except.bind, buildRequests, handleRequest, hoffset, List.getElem?_cons_zero, hparse, hc,
    List.nil_append, List.length_singleton, List.length_nil, List.replicate_one, ptrAdd_zero,
    hcut, hadd, pure, Except.pure, collectBatches, List.cons_ne_nil, if_false, Batch.make,
    hsplit, List.head?_cons, List.getLast?_singleton, Option.map_some, Option.getD_some, hle]
  exact ⟨_, _, rfl, rfl, rfl, rfl⟩

theorem requestFits_oneRange {offset size : Nat} (h : offset + size < 2 ^ 63) :
    RequestFits (oneRange offset size) := by
  constructor
  · intro file hfile range hrange
    rw [oneRange, List.mem_singleton] at hfile
    subst hfile
    rw [List.mem_singleton] at hrange
    subst hrange
    exact h
  · have htotal : totalSize (placedFiles 0 (oneRange offset size)) = size := by
      simp [oneRange, placedFiles, placedRanges, totalSize]
    rw [htotal]
    omega

/-- What agreement says about a range that is one chunk. -/
theorem ChunkSizesAgree.oneRange {config : Config} {pageSize block : Nat}
    {strategy : Strategy} (h : ChunkSizesAgree config pageSize strategy block)
    (device : Device) {offset size : Nat} (hpos : 0 < size) (hstop : offset + size < 2 ^ 63)
    (hwindow : size ≤ config.fsAsyncChunkBytesize - offset % config.fsAsyncChunkBytesize) :
    size ≤ min config.fsAsyncChunkBytesize (maxReadBytesize pageSize) ∧
      (device.type = .cuda → strategy.isDirect = true → 0 < block →
        ceilTo block (offset % block + size) ≤ maxReadBytesize pageSize) := by
  obtain ⟨a, ha, htransfers⟩ := assigner_oneRange config hpos hstop
  obtain ⟨heap, batch, hbuild, hstorage, hdevice, hchunks⟩ :=
    batches_oneRange config device hpos hstop hwindow
  rw [← htransfers] at hbuild
  obtain ⟨hle, hpasses⟩ := h _ _ 0 device 1 1 a heap [batch] (requestFits_oneRange hstop) ha
    hbuild batch (by simp) hstorage ⟨offset, size, 0, 0, 1⟩ (by simp [hchunks])
  refine ⟨hle, fun hcuda hdirect hblock => ?_⟩
  have hfits := hpasses
    (some ⟨0, stagingBytesize (min config.fsAsyncChunkBytesize (maxReadBytesize pageSize)) block
      strategy.isDirect⟩) true block _ none none
    (DirectPass.widened ⟨offset, size, ptrAdd (ptrAdd 0 (offset % block)) 0, 0, 1⟩ block)
    (by simp [readsThroughStaging, hdevice, hcuda])
    (fun buffer hbuffer => by cases hbuffer; rfl)
    (.start 0 0 (fun _ => hdirect) hblock (dvd_refl block))
    (by simp [planPass, planDirectPass, InflightChunk.placeInStaging, InflightChunk.make,
      InflightChunk.pending, InflightChunk.base])
  exact hfits.le_maxRead

/-- The window of an offset holds a chunk that the windows were cut for. -/
theorem window_of_windowEnd {c offset stop : Nat} (h : stop ≤ windowEnd c offset) :
    ∃ k, k * c ≤ offset ∧ stop ≤ (k + 1) * c :=
  ⟨offset / c, Nat.div_mul_le_self offset c, h⟩

/--
The chunk size of the settings bounds every chunk, and every pass of every chunk fits its
buffer, the largest read and the 32-bit length, exactly when a chunk window is at most the
largest read and, on a direct mount, so is every window widened to whole blocks.
-/
theorem chunkSizesAgree_iff (config : Config) (pageSize : Nat) (strategy : Strategy)
    {block : Nat} (hblock : 0 < block) (hle : block ≤ 2 ^ 31) :
    ChunkSizesAgree config pageSize strategy block ↔
      config.fsAsyncChunkBytesize ≤ maxReadBytesize pageSize ∧
      (strategy.isDirect = true → ∀ k < block,
        widenedWindow config.fsAsyncChunkBytesize block k ≤ maxReadBytesize pageSize) := by
  have hc := config.fsAsyncChunkBytesize_pos
  have hmax := maxReadBytesize_le pageSize
  have hintMax : intMax = 2 ^ 31 - 1 := rfl
  constructor
  · intro h
    have hchunk : config.fsAsyncChunkBytesize ≤ maxReadBytesize pageSize := by
      by_contra hgt
      have hstop : 0 + (maxReadBytesize pageSize + 1) < 2 ^ 63 := by omega
      have hone := (h.oneRange ⟨.cpu, 0⟩ (by omega) hstop (by rw [Nat.zero_mod]; omega)).1
      omega
    refine ⟨hchunk, fun hdirect k hk => ?_⟩
    have hmod : k * config.fsAsyncChunkBytesize % config.fsAsyncChunkBytesize = 0 :=
      Nat.mul_mod_left k _
    have hstop : k * config.fsAsyncChunkBytesize + config.fsAsyncChunkBytesize < 2 ^ 63 := by
      have hprod : (k + 1) * config.fsAsyncChunkBytesize ≤ 2 ^ 31 * intMax :=
        Nat.mul_le_mul (by omega) (by omega)
      rw [Nat.add_mul, Nat.one_mul] at hprod
      omega
    have hone := (h.oneRange ⟨.cuda, 0⟩ hc hstop (by rw [hmod]; omega)).2 rfl hdirect hblock
    rw [ceilTo_sub_floor hblock] at hone
    unfold widenedWindow
    rw [Nat.add_mul, Nat.one_mul]
    exact hone
  · rintro ⟨hchunk, hwide⟩
    intro request groupByFile submissionId device nodeWideDepth processGroupSize a heap batches
      settings hfits ha hbuild batch hbatch hstorage chunk hmem
    have hsettings : settings.chunkBytesize = config.fsAsyncChunkBytesize :=
      Nat.min_eq_left hchunk
    obtain ⟨a', ha', hassigned⟩ := makeAssigner_spec config groupByFile hfits
    obtain rfl : a = a' := Except.ok.inj (ha.symm.trans ha')
    obtain ⟨heap', slices, -, -, hcountable, hbuilds⟩ :=
      buildBatches_spec config submissionId device hassigned
    obtain ⟨batches', hbuild', -, heach⟩ := hbuilds (hcountable _ hbuild)
    obtain ⟨rfl, rfl⟩ := Prod.mk.inj (Except.ok.inj (hbuild.symm.trans hbuild'))
    have hchunked := (heach batch hbatch).2.2
    rw [hstorage] at hchunked
    have hof := hchunked.each chunk hmem
    have hpos := hchunked.positive chunk hmem
    obtain ⟨k, hlow, hhigh⟩ := window_of_windowEnd hof.window
    have hbytes : chunk.bytesize ≤ config.fsAsyncChunkBytesize := by
      have hspan := hhigh
      rw [Nat.add_mul, Nat.one_mul] at hspan
      have hcfg : config.chunkBytesize false = config.fsAsyncChunkBytesize := rfl
      omega
    refine ⟨hsettings ▸ hbytes, ?_⟩
    intro staging direct block' entry pool pool' pass _ hstaging hbetween hplan
    have hwideAll : strategy.isDirect = true → ∀ k,
        widenedWindow config.fsAsyncChunkBytesize block k ≤ maxReadBytesize pageSize := by
      intro hdirect k
      rw [widenedWindow_mod hblock]
      exact hwide hdirect _ (Nat.mod_lt k hblock)
    have hsizes : SizesOk strategy block config.fsAsyncChunkBytesize (maxReadBytesize pageSize)
        settings.chunkBytesize chunk staging :=
      { mountBlock_pos := hblock
        maxRead_le := hmax
        bytesize_le := hsettings ▸ hbytes
        settingsChunk_le := hsettings ▸ hchunk
        window := ⟨k, hlow, hhigh⟩
        widened_le := hwideAll
        block_le := fun hdirect =>
          (mountBlock_le_widenedWindow hblock hc 0).trans (hwideAll hdirect 0)
        staging_size := hstaging }
    exact hbetween.fits hsizes hpos hplan

theorem chunkSizesAgree_tinyConfig :
    0 < 512 ∧ 512 ≤ 2 ^ 31 ∧ ChunkSizesAgree tinyConfig 4096 .ioUringDirect 512 := by
  refine ⟨by decide, by decide, ?_⟩
  refine (chunkSizesAgree_iff tinyConfig 4096 .ioUringDirect (by decide) (by decide)).2 ?_
  have hmax : maxReadBytesize 4096 = 2147479552 := by decide
  have hc : tinyConfig.fsAsyncChunkBytesize = 3 := rfl
  rw [hmax, hc]
  refine ⟨by decide, fun _ k _ => ?_⟩
  have hmod := Nat.mod_lt (k * 3) (show 0 < 512 by decide)
  have hceil := ceilTo_lt (show 0 < 512 by decide) ((k + 1) * 3)
  unfold widenedWindow
  omega

/-- A chunk of 4 GiB, more than the kernel reads in one go. -/
def wideConfig : Config :=
  { tinyConfig with
    fsAsyncChunkBytesize := 2 ^ 32
    fsAsyncChunkBytesize_pos := by decide
    fsAsyncChunkBytesize_lt := by decide }

/--
With chunks of 4 GiB a range of 4 GiB is one chunk.  The staging buffer behind it is half as
long, and the length of its read does not fit in 32 bits: the kernel is asked for nothing,
and the chunk is taken for the end of the file.
-/
theorem wide_chunk_disagrees :
    ¬ ChunkSizesAgree wideConfig 4096 .ioUringBuffered maxProbeBlock ∧
    ∃ a heap batch chunk,
      makeAssigner (oneRange 0 (2 ^ 32)) wideConfig [0] = .ok a ∧
      buildBatches wideConfig 0 ⟨.cuda, 0⟩ (oneRange 0 (2 ^ 32)) a.transfers [] =
        .ok (heap, [batch]) ∧
      batch.chunks = [chunk] ∧
      chunk.bytesize = 2 ^ 32 ∧
      stagingBytesize (AsyncIoSettings.make wideConfig 64 1 (maxReadBytesize 4096)).chunkBytesize
        maxProbeBlock false = 2147479552 ∧
      ((InflightChunk.make chunk 0 0).record
        (servedBytes (maxReadBytesize 4096) chunk.bytesize)).1 = .eof := by
  have hmax : maxReadBytesize 4096 = 2147479552 := by decide
  have hc : wideConfig.fsAsyncChunkBytesize = 2 ^ 32 := rfl
  have hpos : 0 < 2 ^ 32 := by decide
  have hstop : 0 + 2 ^ 32 < 2 ^ 63 := by decide
  have hwindow : 2 ^ 32 ≤
      wideConfig.fsAsyncChunkBytesize - 0 % wideConfig.fsAsyncChunkBytesize := by
    rw [hc]
    decide
  constructor
  · intro hagree
    have hle := (hagree.oneRange ⟨.cuda, 0⟩ hpos hstop hwindow).1
    rw [hc, hmax] at hle
    exact absurd hle (by decide)
  · obtain ⟨a, ha, htransfers⟩ := assigner_oneRange wideConfig hpos hstop
    obtain ⟨heap, batch, hbuild, -, -, hchunks⟩ :=
      batches_oneRange wideConfig ⟨.cuda, 0⟩ hpos hstop hwindow
    rw [← htransfers] at hbuild
    refine ⟨a, heap, batch, _, ha, hbuild, hchunks, rfl, ?_, ?_⟩
    · rw [hmax]
      rfl
    · rw [hmax]
      rfl

end AsyncIo
end ModelStreamer
