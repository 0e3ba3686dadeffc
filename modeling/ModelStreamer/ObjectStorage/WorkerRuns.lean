import ModelStreamer.ObjectStorage.WorkerAborts

/-!
# Runs of an object storage worker

Every call keeps the books, also an enqueue that runs out of memory.  It keeps what holds of the
staging buffers, if the completions that arrive while it waits in an abort are of reads of the
workloads.

Main results:

- Theorem {lit}`WorkerInv.enqueue_ends`: a workload is enqueued.
- Theorem {lit}`Reserved.step_ends`: one call.
- Theorem {lit}`reserved_run`: a run.
-/

namespace ModelStreamer
namespace ObjectStorage

open Common DeviceIo.Staging Lib Streamer

variable {watched : Prop} {w : Worker}

/-! ## Enqueueing a workload -/

/-- The item is a chunk. -/
def Worker.EnqueueItem.isChunk : Worker.EnqueueItem → Bool
  | .task _ _ => false
  | .chunk _ _ => true

/-- What the loops of {lit}`enqueue` have built. -/
structure EnqueuedInv (base : Nat) (queue : CapacityQueue ObjectChunk) (s : Worker.Enqueued) :
    Prop where
  handles : ∀ i cs, s.workload.chunks[i]? = some cs → cs.chunk.handle = wordAdd 64 base i
  pending : s.queue.pending = queue.pending ++ s.workload.chunks.map fun cs => (cs.chunk, 1)
  inflight : s.queue.inflight = queue.inflight
  /-- A new chunk has no buffer. -/
  lending : s.workload.lending = []

/-- One turn of the loops. -/
theorem EnqueuedInv.item {base : Nat} {queue : CapacityQueue ObjectChunk} {s : Worker.Enqueued}
    (h : EnqueuedInv base queue s) (item : Worker.EnqueueItem) :
    EnqueuedInv base queue (Worker.enqueueItem base s item) ∧
      (Worker.enqueueItem base s item).workload.chunks.length =
        s.workload.chunks.length + [item].countP Worker.EnqueueItem.isChunk := by
  cases item with
  | task batch task => exact ⟨⟨h.handles, h.pending, h.inflight, h.lending⟩, rfl⟩
  | chunk taskBase chunk =>
      unfold Worker.enqueueItem
      dsimp only
      refine ⟨⟨?_, ?_, h.inflight, ?_⟩, ?_⟩
      · intro i cs hcs
        rw [List.getElem?_append] at hcs
        split at hcs
        · exact h.handles i cs hcs
        · rename_i hge
          rcases List.getElem?_eq_some_iff.1 hcs with ⟨hlt, rfl⟩
          rw [List.length_singleton] at hlt
          have hi : i = s.workload.chunks.length := by omega
          subst hi
          simp
      · rw [CapacityQueue.enqueue_pending, h.pending, List.map_append, List.append_assoc]
        rfl
      · have hlending := h.lending
        unfold Inflight.lending at hlending ⊢
        rw [List.flatMap_append, hlending]
        rfl
      · rw [List.length_append]
        rfl

/-- All turns of the loops. -/
theorem EnqueuedInv.items {base : Nat} {queue : CapacityQueue ObjectChunk}
    (items : List Worker.EnqueueItem) {s : Worker.Enqueued} (h : EnqueuedInv base queue s) :
    EnqueuedInv base queue (items.foldl (Worker.enqueueItem base) s) ∧
      (items.foldl (Worker.enqueueItem base) s).workload.chunks.length =
        s.workload.chunks.length + items.countP Worker.EnqueueItem.isChunk := by
  induction items generalizing s with
  | nil => exact ⟨h, rfl⟩
  | cons item items ih =>
      rcases h.item item with ⟨hs', hlength⟩
      rcases ih hs' with ⟨hs'', hlength'⟩
      refine ⟨hs'', ?_⟩
      rw [List.foldl_cons, hlength', hlength, Nat.add_assoc, ← List.countP_append]
      rfl

/-- The loops go over every chunk of the batches. -/
theorem countP_enqueueItems (taskBase : Nat) (batches : List Batch) :
    (Worker.enqueueItems taskBase batches).countP Worker.EnqueueItem.isChunk =
      (batches.map fun batch => batch.chunks.length).sum := by
  induction batches generalizing taskBase with
  | nil => rfl
  | cons batch batches ih =>
      unfold Worker.enqueueItems
      rw [List.countP_append, List.countP_append, ih, List.countP_map, List.countP_map,
        List.map_cons, List.sum_cons]
      congr 1
      have htasks : batch.tasks.countP (Worker.EnqueueItem.isChunk ∘
          Worker.EnqueueItem.task batch) = 0 :=
        List.countP_eq_zero.2 fun _ _ => Bool.false_ne_true
      have hchunks : batch.chunks.countP (Worker.EnqueueItem.isChunk ∘
          Worker.EnqueueItem.chunk taskBase) = batch.chunks.length :=
        List.countP_eq_length.2 fun _ _ => rfl
      rw [htasks, hchunks, Nat.zero_add]

/-- The turns that are made begin the loops. -/
theorem enqueueTurns_sublist (chunkBytesize : Nat) (batches : List Batch)
    (oom : Option Worker.OutOfMemory) :
    (Worker.enqueueTurns chunkBytesize batches oom).Sublist (Worker.enqueueItems 0 batches) := by
  unfold Worker.enqueueTurns
  refine (List.takeWhile_sublist _).trans ?_
  split
  · exact List.take_sublist _ _
  · exact List.Sublist.refl _

/-- How many handles a workload gets. -/
def totalChunks (batches : List Batch) : Nat :=
  (batches.map fun batch => batch.chunks.length).sum

theorem total_reserved {w' : Worker} {base size : Nat}
    (hblocks : w'.blocks = w.blocks ++ [IdBlock.mk base size]) :
    w'.books.total = w.books.total + size := by
  unfold Books.total Worker.books
  dsimp only
  rw [hblocks, List.map_append, List.sum_append]
  rfl

/-- The chunks that were built have the handles from the base on. -/
theorem EnqueuedInv.chunk_handles {base : Nat} {queue : CapacityQueue ObjectChunk}
    {s : Worker.Enqueued} (h : EnqueuedInv base queue s)
    (hroom : base + s.workload.chunks.length ≤ 2 ^ 64) (i : Nat) (chunk : ObjectChunk)
    (hchunk : (s.workload.chunks.map ChunkState.chunk)[i]? = some chunk) :
    chunk.handle = base + i := by
  rw [List.getElem?_map, Option.map_eq_some_iff] at hchunk
  rcases hchunk with ⟨cs, hcs, rfl⟩
  rcases List.getElem?_eq_some_iff.1 hcs with ⟨hlt, -⟩
  rw [h.handles i cs hcs, wordAdd_of_lt (by omega)]

/-- What holds of a worker after a call. -/
structure Reserved (watched : Prop) (total : Nat) (w : Worker) : Prop where
  books : BooksInv [] [] w.books
  total_eq : w.books.total = total
  buffers : watched → BuffersInv w

/-- What holds of a worker after a call that throws. -/
def ThrowsAt (watched : Prop) (total : Nat) : Stop → Prop
  | .assertion which w => which.misrouted = false ∧ Reserved watched total w
  | _ => True

/-- A call after which so many handles are reserved. -/
abbrev Reserves (watched : Prop) (total : Nat) (call : Except Stop Worker) : Prop :=
  Ends (Reserved watched total) (ThrowsAt watched total) call

/-- The scope of a call that begins. -/
def Worker.scope (w : Worker) (watched : Prop) : Scope :=
  { blocks := w.blocks, gone := fun id => isOwned w.books.owners id = false, watched }

/-- A call begins. -/
theorem Reserved.begin {total : Nat} (h : Reserved watched total w) :
    WorkerInv (w.scope watched) [] [] w := by
  refine ⟨⟨h.books, rfl, h.buffers⟩, fun id _ => ?_⟩
  cases howned : isOwned w.books.owners id with
  | true => exact Or.inl rfl
  | false => exact Or.inr howned

/-- A call is over. -/
theorem Kept.reserves {scope : Scope} {call : Except Stop Worker} {total : Nat}
    (h : Ends (Kept scope [] []) (Throws scope) call)
    (htotal : (scope.blocks.map IdBlock.size).sum = total) :
    Reserves scope.watched total call := by
  have hkept : ∀ w' : Worker, Kept scope [] [] w' → Reserved scope.watched total w' := by
    intro w' hw'
    refine ⟨hw'.books, ?_, hw'.buffers⟩
    change (w'.blocks.map IdBlock.size).sum = total
    rw [hw'.blocks_eq]
    exact htotal
  apply h.mono hkept
  intro stop hstop
  cases stop with
  | assertion which left => exact ⟨hstop.1, hkept left hstop.2⟩
  | undefined => trivial
  | refused => trivial

/-- A call without an abort is over. -/
theorem Keeps.kept {scope : Scope} {call : Except Stop Worker} (h : Keeps scope [] call) :
    Ends (Kept scope [] []) (Throws scope) call :=
  h.imp fun _ hw => hw.toKept

/-- The completions that a call waits for are of reads of the workloads. -/
def Worker.Awaits (w : Worker) (rounds : List Round) : Prop :=
  ∀ round ∈ rounds, ∀ event ∈ round.completions, (w.locate event.handle).isSome = true

instance (w : Worker) (rounds : List Round) : Decidable (w.Awaits rounds) :=
  inferInstanceAs (Decidable (∀ round ∈ rounds, ∀ event ∈ round.completions,
    (w.locate event.handle).isSome = true))

/-- A completion that is waited for is of a handle that a workload has. -/
theorem BooksInv.owned_of_awaits {hand landed : List Nat} {rounds : List Round}
    (h : BooksInv hand landed w.books) (hawaits : w.Awaits rounds) :
    ∀ round ∈ rounds, ∀ event ∈ round.completions,
      isOwned w.books.owners event.handle = true := by
  intro round hround event hevent
  have hfound := hawaits round hround event hevent
  cases howned : isOwned w.books.owners event.handle with
  | true => rfl
  | false =>
      rw [h.locate_eq_none.2 howned] at hfound
      cases hfound

/-- A handle that a workload has was given out. -/
theorem BooksInv.known_of_owned {hand landed : List Nat} {id : Nat}
    (h : BooksInv hand landed w.books) (howned : isOwned w.books.owners id = true) :
    (w.blocks.any fun block => block.Has id) = true := by
  rcases isOwned_iff.1 howned with ⟨o, ho, hhas⟩
  exact List.any_eq_true.2 ⟨o.block, h.ledger.owned o ho, decide_eq_true hhas⟩

/-- An exception in {lit}`enqueue`: the handles stay reserved. -/
theorem WorkerInv.exception_ends (h : WorkerInv (w.scope watched) [] [] w) {w' : Worker}
    {size : Nat} {chunks : List ObjectChunk} {queue : CapacityQueue ObjectChunk}
    {answers : List Answer} {workloads : OrderedMap Nat Inflight} (hpos : 0 < size)
    (hroom : w.books.total + size < 2 ^ 64)
    (hhandles : ∀ i chunk, chunks[i]? = some chunk → chunk.handle = w.handleCounter + i)
    (hlength : chunks.length ≤ size) (hinflight : queue.inflight = w.queue.inflight)
    (hheld : ({ w with workloads } : Worker).loans.held = w.loans.held)
    (hw' : w' =
      { w with
        handleCounter := wordAdd 64 w.handleCounter size
        blocks := w.blocks ++ [IdBlock.mk w.handleCounter size]
        queue
        made := w.made ++ chunks
        answers
        workloads }) {rounds : List Round} (hrounds : watched → w.Awaits rounds) :
    Reserves watched (w.books.total + size) (w'.abortAll .unknownError true rounds) := by
  let scope : Scope :=
    { w.scope watched with blocks := w.blocks ++ [IdBlock.mk w.handleCounter size] }
  have hbegin := h.toAbort
  have habort : AbortInv scope w.books.owners w' := by
    subst hw'
    refine ⟨?_, rfl, h.outside, ?_, ?_, fun hwatched => ?_⟩
    · exact (h.books.toBase.extend hpos hroom hhandles hlength).fewer rfl rfl rfl rfl rfl
        (List.Sublist.refl _)
    · intro x hx
      exact hbegin.held x (hheld ▸ hx)
    · have hcredit := hbegin.credit
      rw [← hinflight] at hcredit
      exact hcredit
    · exact (h.buffers hwatched).frame hheld ⟨rfl, rfl, rfl, rfl⟩
  have hallows : watched → scope.Allows true rounds := by
    intro hwatched
    refine ⟨rfl, fun round hround event hevent => ?_⟩
    have howned := h.books.owned_of_awaits (hrounds hwatched) round hround event hevent
    refine ⟨?_, fun hgone => ?_⟩
    · change ((w.blocks ++ [_]).any fun block => block.Has event.handle) = true
      rw [List.any_append, h.books.known_of_owned howned, Bool.true_or]
    · change isOwned w.books.owners event.handle = false at hgone
      rw [howned] at hgone
      cases hgone
  apply Kept.reserves (habort.abortAll_ends _ _ _ hallows)
  change ((w.blocks ++ [IdBlock.mk w.handleCounter size]).map IdBlock.size).sum = _
  rw [List.map_append, List.sum_append]
  rfl

/-- {lit}`enqueue`: the workload gets its entry. -/
theorem BooksInv.registered (h : BooksInv [] [] w.books) {w' : Worker} {s : Worker.Enqueued}
    {batches : List Batch} (hs : EnqueuedInv w.handleCounter w.queue s)
    (hlength : s.workload.chunks.length = totalChunks batches) (hpos : 0 < totalChunks batches)
    (hroom : w.books.total + totalChunks batches < 2 ^ 64)
    (hfresh : w.workloads.find? w.handleCounter = none)
    (hbooks : w'.books =
      { w.books with
        shapes := (w.workloads.update w.handleCounter
          { s.workload with remainingChunks := totalChunks batches } id).entries.map shapeOf
        blocks := w.blocks ++ [IdBlock.mk w.handleCounter (totalChunks batches)]
        handleCounter := wordAdd 64 w.handleCounter (totalChunks batches)
        made := w.made ++ s.workload.chunks.map ChunkState.chunk
        pending := s.queue.pending
        inflight := s.queue.inflight }) :
    BooksInv [] [] w'.books := by
  have hbase := h.core.next_base hpos hroom
  change w.handleCounter = 1 + w.books.total at hbase
  have hhandles := hs.chunk_handles (by omega)
  have hsize : (s.workload.chunks.map ChunkState.chunk).length = totalChunks batches := by
    rw [List.length_map, hlength]
  rw [← hsize] at hpos hroom
  have hnew : ∀ e ∈ w.workloads.entries, e.1 ≠ w.handleCounter :=
    OrderedMap.find?_eq_none.1 hfresh
  let wl : Inflight := { s.workload with remainingChunks := totalChunks batches }
  let workloads := w.workloads.update w.handleCounter wl id
  have hshape : shapeOf (w.handleCounter, id wl) =
      { base := w.handleCounter
        chunks := s.workload.chunks.map ChunkState.chunk
        remaining := (s.workload.chunks.map ChunkState.chunk).length } := by
    rw [hsize]
    rfl
  have hmem : ∀ x, x ∈ workloads.entries.map shapeOf ↔
      x = { base := w.handleCounter
            chunks := s.workload.chunks.map ChunkState.chunk
            remaining := (s.workload.chunks.map ChunkState.chunk).length } ∨
        x ∈ w.books.shapes := by
    intro x
    rw [← hshape, List.mem_map]
    constructor
    · rintro ⟨e, he, rfl⟩
      rcases (OrderedMap.mem_update_new hnew).1 he with rfl | hold
      · exact Or.inl rfl
      · exact Or.inr (List.mem_map_of_mem hold)
    · rintro (rfl | hold)
      · exact ⟨_, (OrderedMap.mem_update_new hnew).2 (Or.inl rfl), rfl⟩
      · rcases List.mem_map.1 hold with ⟨e, he, rfl⟩
        exact ⟨e, (OrderedMap.mem_update_new hnew).2 (Or.inr he), rfl⟩
  have hsorted : ((workloads.entries.map shapeOf).map WorkloadShape.owner).Pairwise fun x y =>
      x.block.base < y.block.base := by
    rw [List.pairwise_map, List.pairwise_map]
    exact workloads.sorted
  have hreserved := h.reserve hpos hroom hhandles hmem hsorted
  rw [hsize, List.map_map] at hreserved
  rw [hbooks, hs.pending, hs.inflight]
  exact hreserved

/-- {lit}`enqueue`: the handles of a workload are reserved, also if memory runs out. -/
theorem WorkerInv.enqueue_ends (h : WorkerInv (w.scope watched) [] [] w) (batches : List Batch)
    (oom : Option Worker.OutOfMemory) {rounds : List Round}
    (hroom : w.books.total + totalChunks batches < 2 ^ 64)
    (hrounds : watched → w.Awaits rounds) :
    Reserves watched (w.books.total + totalChunks batches) (w.enqueue batches oom rounds) := by
  unfold Worker.enqueue
  dsimp only
  rw [show (batches.map fun batch => batch.chunks.length).sum = totalChunks batches from rfl]
  split
  · rename_i hzero
    rw [hzero]
    exact ⟨h.books, rfl, fun hwatched => (h.buffers hwatched).frame rfl ⟨rfl, rfl, rfl, rfl⟩⟩
  · rename_i hnonzero
    have hpos := Nat.pos_of_ne_zero hnonzero
    have hbase := h.books.core.next_base hpos hroom
    change w.handleCounter = 1 + w.books.total at hbase
    have hinit : EnqueuedInv w.handleCounter w.queue
        { workload := { batches }, queue := w.queue, answers := [] } := by
      refine ⟨?_, ?_, rfl, rfl⟩
      · intro i cs hcs
        cases hcs
      · rw [List.map_nil, List.append_nil]
    split
    · have hnone : ∀ i chunk, ([] : List ObjectChunk)[i]? = some chunk →
          chunk.handle = w.handleCounter + i := nofun
      apply h.exception_ends hpos hroom hnone
      case hlength => exact Nat.zero_le _
      case hinflight => rfl
      case hheld => rfl
      case hw' => rw [List.append_nil]
      case hrounds => exact hrounds
    · rename_i hfresh
      simp only [not_or, Bool.not_eq_true, Option.isSome_eq_false_iff,
        Option.isNone_iff_eq_none] at hfresh
      have hturns := enqueueTurns_sublist w.chunkBytesize batches oom
      have hchunks := countP_enqueueItems 0 batches
      rcases hinit.items (Worker.enqueueTurns w.chunkBytesize batches oom) with ⟨hs, hlength⟩
      rw [List.length_nil, Nat.zero_add] at hlength
      split
      · have hle : _ ≤ totalChunks batches := hlength.trans_le (hturns.countP_le.trans_eq hchunks)
        apply h.exception_ends hpos hroom (hs.chunk_handles (by omega))
        case hlength => exact (List.length_map _).trans_le hle
        case hinflight => exact hs.inflight
        case hheld => exact held_update_new hfresh.2 hs.lending
        case hw' => rfl
        case hrounds => exact hrounds
      · rename_i hfinished
        have hall : Worker.enqueueTurns w.chunkBytesize batches oom =
            Worker.enqueueItems 0 batches := by
          apply hturns.eq_of_length_le
          simp only [not_or, not_lt] at hfinished
          exact hfinished.2
        rw [hall, hchunks] at hlength
        refine ⟨h.books.registered hs (by rw [hall]; exact hlength) hpos hroom hfresh.2 rfl,
          total_reserved rfl, fun hwatched => ?_⟩
        apply (h.buffers hwatched).frame
        · exact held_update_new hfresh.2 hs.lending
        · exact ⟨rfl, rfl, rfl, rfl⟩

/-! ## The other calls -/

/-- The issuer reports a copy. -/
theorem WorkerInv.copyLands_ends {scope : Scope} (h : WorkerInv scope [] [] w) (done : CopyDone) :
    Keeps scope [] (w.copyLands done) := by
  unfold Worker.copyLands
  cases hfind : w.copying.find? fun copy => copy.handle = done.handle with
  | none => trivial
  | some copy =>
      have hperm := perm_cons_of_find? hfind
      have hhandle := List.find?_some hfind
      rw [decide_eq_true_eq] at hhandle
      have hland := h.books.land (hperm.map IssuedCopy.handle)
      rw [hhandle] at hland
      apply h.frame _ hland ⟨rfl, rfl, rfl⟩
      · exact fun hb => hb.land hperm _
      · unfold Worker.books Worker.giveBack
        dsimp only
        rw [List.map_append]
        rfl

/-- {lit}`drain_batch`. -/
theorem WorkerInv.drainBatch_ends {scope : Scope} (h : WorkerInv scope [] [] w)
    (answer : Worker.DrainAnswer)
    (hallows : scope.watched → scope.Allows (!answer.stopped) answer.aborting) :
    Ends (Kept scope [] []) (Throws scope) (w.drainBatch answer) := by
  unfold Worker.drainBatch
  split
  · rename_i hstopped
    rw [hstopped] at hallows
    exact h.toAbort.abortAll_ends _ _ _ hallows
  · rename_i hrunning
    rw [Bool.not_eq_true] at hrunning
    rw [hrunning] at hallows
    apply Ends.bind (h.drainCopies_ends _)
    intro w₁ h₁
    apply Ends.bind (h₁.resumeWaiting_ends _)
    intro w₂ h₂
    split
    · exact h₂.toKept
    · split
      · split
        · exact h₂.toKept
        · exact h₂.toAbort.abortAll_ends _ _ _ hallows
      · apply Ends.bind (h₂.handOut_ends answer.round.completions)
        intro w₃ h₃
        rw [List.nil_append] at h₃
        apply Ends.bind (h₃.routeEvents_ends false)
        rintro ⟨progressed, w₄⟩ h₄
        dsimp only at h₄ ⊢
        split
        · exact h₄.toAbort.abortAll_ends _ _ _ hallows
        · exact h₄.toKept

/-! ## Runs -/

/-- How many handles a call reserves. -/
def Worker.Action.handles : Worker.Action → Nat
  | .enqueue batches _ _ => totalChunks batches
  | _ => 0

/-- The completions that arrive while the call waits in an abort. -/
def Worker.Action.aborting : Worker.Action → List Round
  | .enqueue _ _ aborting => aborting
  | .drainBatch answer => answer.aborting
  | _ => []

/-- The call tears the worker down. -/
def Worker.Action.teardown : Worker.Action → Bool
  | .drainBatch answer => answer.stopped
  | _ => false

/-- One call. -/
theorem Reserved.step_ends {total : Nat} (h : Reserved watched total w) (action : Worker.Action)
    (hroom : total + action.handles < 2 ^ 64)
    (hwatch : watched → action.teardown = false ∧ w.Awaits action.aborting) :
    Reserves watched (total + action.handles) (w.step action) := by
  have hbegin := h.begin
  have htotal := h.total_eq
  subst htotal
  cases action with
  | enqueue batches oom rounds =>
      exact hbegin.enqueue_ends batches oom hroom fun hwatched => (hwatch hwatched).2
  | pump now answers => exact Kept.reserves (hbegin.pump_ends now answers).kept rfl
  | drainBatch answer =>
      apply Kept.reserves (hbegin.drainBatch_ends answer _) rfl
      intro hwatched
      rcases hwatch hwatched with ⟨hrunning, hrounds⟩
      refine ⟨?_, fun round hround event hevent => ?_⟩
      · change answer.stopped = false at hrunning
        rw [hrunning]
        rfl
      · have howned := h.books.owned_of_awaits hrounds round hround event hevent
        refine ⟨h.books.known_of_owned howned, fun hgone => ?_⟩
        change isOwned w.books.owners event.handle = false at hgone
        rw [howned] at hgone
        cases hgone
  | copyLands done => exact Kept.reserves (hbegin.copyLands_ends done).kept rfl

/-- One call, also one that throws. -/
theorem Reserved.next {total : Nat} (h : Reserved watched total w) {action : Worker.Action}
    {w' : Worker} (hroom : total + action.handles < 2 ^ 64)
    (hwatch : watched → action.teardown = false ∧ w.Awaits action.aborting)
    (hnext : w.next action = some w') : Reserved watched (total + action.handles) w' := by
  have hstep := h.step_ends action hroom hwatch
  unfold Worker.next at hnext
  cases hcall : w.step action with
  | ok left =>
      rw [hcall] at hnext hstep
      cases hnext
      exact hstep
  | error stop =>
      rw [hcall] at hnext hstep
      cases stop with
      | assertion which left =>
          cases hnext
          exact hstep.2
      | undefined => cases hnext
      | refused => cases hnext

/-- A worker without workloads. -/
theorem reserved_start (chunkBytesize capacity : Nat) (timeout : Int) :
    Reserved watched 0 (Worker.start chunkBytesize capacity timeout) := by
  have hbase : BooksBase (Worker.start chunkBytesize capacity timeout).books :=
    ⟨⟨rfl, nofun, List.nodup_nil, nofun, nofun, nofun, nofun⟩, List.Pairwise.nil, List.nodup_nil⟩
  have hsound : (Worker.start chunkBytesize capacity timeout).loans.Sound :=
    ⟨List.nodup_nil, nofun, nofun, List.nodup_nil⟩
  exact ⟨hbase.abort, rfl, fun _ => ⟨hsound, nofun, nofun⟩⟩

/-- A run. -/
theorem reserved_run {total : Nat} {actions : List Worker.Action} {w' : Worker}
    (h : Reserved watched total w)
    (hroom : total + (actions.map Worker.Action.handles).sum < 2 ^ 64)
    (hwatch : watched → EachStep Worker.next
      (fun w action => action.teardown = false ∧ w.Awaits action.aborting) w actions)
    (hrun : run Worker.next w actions = some w') :
    Reserved watched (total + (actions.map Worker.Action.handles).sum) w' := by
  induction actions generalizing total w with
  | nil =>
      cases hrun
      exact h
  | cons action actions ih =>
      rcases run_cons.1 hrun with ⟨w₁, hnext, hrest⟩
      rw [List.map_cons, List.sum_cons] at hroom ⊢
      have h₁ := h.next (by omega) (fun hwatched => (hwatch hwatched).1) hnext
      rw [← Nat.add_assoc]
      exact ih h₁ (by omega) (fun hwatched => (hwatch hwatched).2 w₁ hnext) hrest

end ObjectStorage
end ModelStreamer
