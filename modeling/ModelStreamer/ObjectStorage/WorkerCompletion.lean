import ModelStreamer.Lib.Outcome
import ModelStreamer.ObjectStorage.WorkerBuffers
import ModelStreamer.ObjectStorage.WorkerRouting

/-!
# Submitting and completing a chunk

What a worker does with a chunk that it has in its hand keeps the books.  The assertions about
handles are among the errors that are excluded.

Main results:

- Theorem {lit}`BooksInv.completeChunk_ends`: a read is completed.
- Theorem {lit}`BooksInv.completeCopy_ends`: a copy is completed.
- Theorem {lit}`BooksInv.submit_ends`: a chunk is submitted.
-/

namespace ModelStreamer
namespace ObjectStorage

open Common DeviceIo.Staging Lib Streamer

/-! ## What holds in the middle of a call -/

/-- What is fixed while a call runs. -/
structure Scope where
  blocks : List IdBlock
  /-- No workload had the handle when the call began. -/
  gone : Nat → Prop
  /-- The staging buffers are watched. -/
  watched : Prop

/-- What holds of a worker when a call is over. -/
structure Kept (scope : Scope) (hand landed : List Nat) (w : Worker) : Prop where
  books : BooksInv hand landed w.books
  blocks_eq : w.blocks = scope.blocks
  buffers : scope.watched → BuffersInv w

/-- What holds of a worker while a call runs: no workload was given up yet. -/
structure WorkerInv (scope : Scope) (hand landed : List Nat) (w : Worker) : Prop
    extends Kept scope hand landed w where
  outside : ∀ id ∈ w.books.outside, isOwned w.books.owners id = true ∨ scope.gone id

/-- The assertions about the handles of chunks, and about the count of a workload. -/
def WorkerAssert.misrouted : WorkerAssert → Bool
  | .submitHandle _ => true
  | .retryHandle _ => true
  | .noneOutstanding => true
  | _ => false

/-- An assertion that throws is about the tasks of a chunk, and the chunks in the hand of the
worker are lost. -/
def Throws (scope : Scope) : Stop → Prop
  | .assertion which w => which.misrouted = false ∧ Kept scope [] [] w
  | _ => True

/-- A part of a call that is not an abort. -/
abbrev Keeps (scope : Scope) (hand : List Nat) (call : Except Stop Worker) : Prop :=
  Ends (WorkerInv scope hand []) (Throws scope) call

section Scopes

variable {scope : Scope} {w w' : Worker} {b' : Books} {hand hand' landed landed' : List Nat}

/-- Chunks change places, and no read is added. -/
theorem WorkerInv.frame (h : WorkerInv scope hand landed w) (hbooks : w'.books = b')
    (hinv : BooksInv hand' landed' b')
    (hsame : b'.blocks = w.books.blocks ∧ b'.owners = w.books.owners ∧
      b'.outside = w.books.outside)
    (hbuffers : BuffersInv w → BuffersInv w') : WorkerInv scope hand' landed' w' := by
  subst hbooks
  rcases hsame with ⟨hblocks, howners, houtside⟩
  refine ⟨⟨hinv, ?_, fun hwatched => hbuffers (h.buffers hwatched)⟩, ?_⟩
  · change w'.books.blocks = scope.blocks
    rw [hblocks]
    exact h.blocks_eq
  · rw [howners, houtside]
    exact h.outside

/-- Chunks change places inside of the worker. -/
theorem WorkerInv.shift (h : WorkerInv scope hand landed w)
    (hinv : BooksInv hand' landed' w'.books)
    (hsame : w'.blocks = w.blocks ∧ w'.workloads = w.workloads ∧ w'.reads = w.reads ∧
      w'.copying = w.copying ∧ w'.lent = w.lent ∧ w'.givenBack = w.givenBack) :
    WorkerInv scope hand' landed' w' := by
  rcases hsame with ⟨hblocks, hworkloads, hreads, hcopying, hlent, hgiven⟩
  apply h.frame rfl hinv
  case hsame =>
    refine ⟨hblocks, ?_, ?_⟩
    · unfold Books.owners Worker.books
      dsimp only
      rw [hworkloads]
    · unfold Books.outside Worker.books
      dsimp only
      rw [hreads]
  case hbuffers =>
    intro hb
    apply hb.frame _ ⟨hreads, hcopying, hlent, hgiven⟩
    unfold Worker.loans
    dsimp only
    rw [hworkloads]

/-- A chunk that the worker has in its hand, or whose copy has landed, has no read. -/
theorem BooksInv.no_read {id : Nat} (h : BooksInv hand landed w.books)
    (hid : id ∈ hand ++ landed) : ∀ read ∈ w.reads, read.chunk.handle ≠ id := by
  rintro read hread rfl
  have hout := (List.nodup_append.1 h.ledger.nodup).2.1
  have houtside : read.chunk.handle ∈ w.books.outside :=
    List.mem_map_of_mem (List.mem_map_of_mem hread)
  exact (List.nodup_append.1 hout).2.2 _ hid _ houtside rfl

end Scopes

/-! ## What is not in the books -/

section Frames

variable {w : Worker} {base index : Nat}

/-- A workload may change where the books do not look. -/
theorem shapes_modify {f : Inflight → Inflight}
    (hf : ∀ wl, (f wl).chunks.map ChunkState.chunk = wl.chunks.map ChunkState.chunk ∧
      (f wl).remainingChunks = wl.remainingChunks) :
    (w.workloads.modify base f).entries.map shapeOf = w.workloads.entries.map shapeOf := by
  unfold OrderedMap.modify
  rw [List.map_map]
  apply List.map_congr_left
  intro e _
  rw [Function.comp_apply]
  split
  · rcases hf e.2 with ⟨hchunks, hremaining⟩
    unfold shapeOf
    dsimp only
    rw [hchunks, hremaining]
  · rfl

/-- A chunk changes, but not what it reads. -/
theorem books_setChunk {f : ChunkState → ChunkState} (hf : ∀ cs, (f cs).chunk = cs.chunk) :
    (w.setChunk base index f).books = w.books := by
  have hchunks : ∀ chunks : List ChunkState,
      (chunks.modify index f).map ChunkState.chunk = chunks.map ChunkState.chunk := by
    intro chunks
    apply List.ext_getElem?
    intro i
    rw [List.getElem?_map, List.getElem?_map, List.getElem?_modify, Option.map_eq_map,
      Option.map_map]
    congr 1
    funext cs
    rw [Function.comp_apply]
    split
    · exact hf cs
    · rfl
  have hshapes : (w.workloads.modify base fun wl =>
      { wl with chunks := wl.chunks.modify index f }).entries.map shapeOf =
      w.workloads.entries.map shapeOf :=
    shapes_modify fun wl => ⟨hchunks wl.chunks, rfl⟩
  unfold Worker.books Worker.setChunk
  dsimp only
  rw [hshapes]

/-- The chunk at a place that has changed. -/
theorem chunkAt_setChunk {wl : Inflight} {cs : ChunkState}
    (hat : w.chunkAt base index = some (wl, cs)) (f : ChunkState → ChunkState) :
    (w.setChunk base index f).chunkAt base index =
      some ({ wl with chunks := wl.chunks.modify index f }, f cs) := by
  unfold Worker.chunkAt at hat
  rw [Option.bind_eq_some_iff] at hat
  rcases hat with ⟨wl', hfind, hchunk⟩
  rw [Option.map_eq_some_iff] at hchunk
  rcases hchunk with ⟨cs', hget, heq⟩
  cases heq
  have hentry : (base, { wl with chunks := wl.chunks.modify index f }) ∈
      (w.setChunk base index f).workloads.entries :=
    OrderedMap.mem_modify.2 (Or.inl ⟨wl, OrderedMap.find?_eq_some.1 hfind, rfl⟩)
  unfold Worker.chunkAt
  rw [OrderedMap.find?_eq_some.2 hentry, Option.bind_some]
  dsimp only
  rw [List.getElem?_modify_eq, hget]
  rfl

/-- The buffer of a chunk goes back. -/
theorem books_releaseStaging (cs : ChunkState) :
    (w.releaseStaging base index cs).books = w.books := by
  unfold Worker.releaseStaging
  split
  · exact books_setChunk fun _ => rfl
  · rfl

/-- A slot of the window is free. -/
theorem books_complete (cost : Nat) :
    ({ w with queue := w.queue.complete cost } : Worker).books =
      { w.books with inflight := w.books.inflight - cost } := by
  unfold Worker.books
  dsimp only
  rw [CapacityQueue.complete_inflight]
  rfl

/-- A chunk is copied. -/
theorem books_issueCopy (cs : ChunkState) :
    (w.issueCopy base index cs).books =
      { w.books with
        copying := w.books.copying ++ [cs.chunk.handle]
        copiesIssued := w.books.copiesIssued + 1
        inflight := w.books.inflight - 1 } := by
  let freed : Worker := { w with queue := w.queue.complete 1 }
  let emptied : Worker := freed.setChunk base index fun cs => { cs with staging := {} }
  have hsame : emptied.books = freed.books := books_setChunk fun _ => rfl
  have hfreed : freed.books = { w.books with inflight := w.books.inflight - 1 } :=
    books_complete 1
  calc (w.issueCopy base index cs).books =
      { emptied.books with
        copying := w.books.copying ++ [cs.chunk.handle]
        copiesIssued := w.books.copiesIssued + 1 } := by
        unfold Worker.issueCopy Worker.books
        dsimp only
        rw [List.map_append]
        rfl
    _ = _ := by rw [hsame, hfreed]

/-- The tasks of a workload are answered. -/
theorem answerTasks_shape (ret : ResponseCode) (tasks : List Nat) (s : Inflight × List Answer) :
    (Worker.answerTasks ret tasks s).1.chunks = s.1.chunks ∧
      (Worker.answerTasks ret tasks s).1.remainingChunks = s.1.remainingChunks := by
  induction tasks generalizing s with
  | nil => exact ⟨rfl, rfl⟩
  | cons i rest ih =>
      rcases s with ⟨wl, answers⟩
      unfold Worker.answerTasks
      split
      · exact ih _
      · split
        · exact ih _
        · split
          · exact ih _
          · exact ih _

end Frames

/-! ## Accounting a chunk -/

section Account

variable {scope : Scope} {w : Worker} {hand hand' landed : List Nat} {base index : Nat}
  {chunk : ObjectChunk} {wl : Inflight}

/-- One chunk of a workload less. -/
theorem shapes_countDown {wl' : Inflight} (hentry : (base, wl) ∈ w.workloads.entries)
    (hchunks : wl'.chunks = wl.chunks)
    (hremaining : wl'.remainingChunks = wl.remainingChunks - 1) :
    (w.workloads.modify base fun _ => wl').entries.map shapeOf =
      countDown base (w.workloads.entries.map shapeOf) := by
  unfold OrderedMap.modify countDown
  dsimp only
  rw [List.map_map, List.map_map]
  apply List.map_congr_left
  intro e he
  rcases e with ⟨key, value⟩
  rw [Function.comp_apply, Function.comp_apply]
  by_cases hkey : key = base
  · subst hkey
    rw [OrderedMap.eq_of_mem he hentry, if_pos rfl]
    unfold shapeOf
    dsimp only
    rw [if_pos rfl, hchunks, hremaining]
  · rw [if_neg hkey]
    exact (if_neg hkey).symm

/-- A workload is erased. -/
theorem shapes_erase :
    (w.workloads.erase base).entries.map shapeOf =
      eraseShape base (w.workloads.entries.map shapeOf) := by
  unfold OrderedMap.erase eraseShape
  dsimp only
  rw [List.filter_map]
  rfl

/-- A chunk in the hand of the worker, or one whose copy has landed, is accounted. -/
theorem WorkerInv.accountChunk_ends {w₀ : Worker} (h : WorkerInv scope hand landed w₀)
    (hbooks : w.books = { w₀.books with inflight := w.books.inflight })
    (hbuffers : scope.watched → BuffersInv w) (hlocated : w₀.books.Located base index chunk)
    (hout : (hand ++ landed ++ w₀.books.outside).Perm
      (chunk.handle :: (hand' ++ [] ++ w₀.books.outside)))
    (hinflight : ((hand' ++ w₀.books.outside).countP fun id => isOwned w₀.books.owners id) +
      (w₀.books.waitingRetries.length + w₀.books.waiting.length) ≤ w.books.inflight)
    (cs : ChunkState) (ret : ResponseCode) :
    Keeps scope hand' (w.accountChunk base cs ret) := by
  rcases hlocated with ⟨shape, hshape, hbase, hchunk⟩
  have hhas := h.books.has_of_mem hshape (List.mem_of_getElem? hchunk)
  have hpos := h.books.remaining_pos hshape
  have hblocks : w.blocks = scope.blocks := (congrArg Books.blocks hbooks).trans h.blocks_eq
  have houtside : w.books.outside = w₀.books.outside := (congrArg Books.outside hbooks).trans rfl
  have hshapes : w.workloads.entries.map shapeOf = w₀.books.shapes :=
    congrArg Books.shapes hbooks
  have hmem := hshape
  rw [← hshapes] at hmem
  rcases List.mem_map.1 hmem with ⟨⟨key, wl⟩, hentry, hwl⟩
  have hkey : key = base := (congrArg WorkloadShape.base hwl).trans hbase
  have hremaining : wl.remainingChunks = shape.remaining := congrArg WorkloadShape.remaining hwl
  subst hkey
  unfold Worker.accountChunk
  rw [OrderedMap.find?_eq_some.2 hentry]
  dsimp only
  rcases hanswer : Worker.answerTasks ret (List.range' cs.first cs.count) (wl, []) with
    ⟨wl', answers⟩
  rcases answerTasks_shape ret (List.range' cs.first cs.count) (wl, []) with ⟨hchunks', hcount'⟩
  rw [hanswer] at hchunks' hcount'
  dsimp only at hchunks' hcount' ⊢
  rw [hcount', hremaining, if_neg (Nat.ne_of_gt hpos)]
  split
  · rename_i hzero
    have hlast : shape.remaining = 1 := by omega
    have hnew := h.books.account_last hshape hhas hout hinflight hlast
    have hentry' : (key, { wl' with remainingChunks := shape.remaining - 1 }) ∈
        (w.workloads.modify key fun _ =>
          { wl' with remainingChunks := shape.remaining - 1 }).entries :=
      OrderedMap.mem_modify.2 (Or.inl ⟨wl, hentry, rfl⟩)
    unfold Worker.finalize
    dsimp only
    rw [OrderedMap.find?_eq_some.2 hentry']
    dsimp only
    rw [OrderedMap.erase_modify]
    refine ⟨⟨?_, hblocks, ?_⟩, ?_⟩
    · change BooksInv hand' []
        { w.books with shapes := (w.workloads.erase key).entries.map shapeOf }
      rw [shapes_erase, hshapes, hbooks, ← hbase]
      exact hnew
    · intro hwatched
      have hfree : ∀ cs ∈ wl.chunks, ∀ read ∈ w.reads, read.chunk.handle ≠ cs.chunk.handle := by
        intro cs hcs read hread heq
        have hid : read.chunk.handle ∈ w.books.outside :=
          List.mem_map_of_mem (List.mem_map_of_mem hread)
        have hown : cs.chunk ∈ shape.chunks := by
          rw [← hwl]
          exact List.mem_map_of_mem hcs
        rw [houtside, heq] at hid
        exact h.books.none_last hshape hhas hout hlast hid (h.books.has_of_mem hshape hown)
      exact ((hbuffers hwatched).erase hentry hfree).frame rfl ⟨rfl, rfl, rfl, rfl⟩
    · intro id hid
      change id ∈ w.books.outside at hid
      rw [houtside] at hid
      change isOwned (((w.workloads.erase key).entries.map shapeOf).map WorkloadShape.owner) id =
        true ∨ scope.gone id
      rw [shapes_erase, hshapes, ← hbase,
        h.books.isOwned_last hshape hhas hout hlast (List.mem_append_right _ hid)]
      exact h.outside id hid
  · rename_i hmore
    have hnew := h.books.account_more hshape hhas hout hinflight (by omega)
    have hdown : (w.workloads.modify key fun _ =>
        { wl' with remainingChunks := shape.remaining - 1 }).entries.map shapeOf =
        countDown key (w.workloads.entries.map shapeOf) := by
      apply shapes_countDown hentry
      · exact hchunks'
      · rw [hremaining]
    refine ⟨⟨?_, hblocks, ?_⟩, ?_⟩
    · change BooksInv hand' []
        { w.books with
          shapes := (w.workloads.modify key fun _ =>
            { wl' with remainingChunks := shape.remaining - 1 }).entries.map shapeOf }
      rw [hdown, hshapes, hbooks, ← hbase]
      exact hnew
    · intro hwatched
      exact (hbuffers hwatched).frame (held_modify hentry hchunks') ⟨rfl, rfl, rfl, rfl⟩
    · intro id hid
      change id ∈ w.books.outside at hid
      rw [houtside] at hid
      change isOwned (((w.workloads.modify key fun _ =>
        { wl' with remainingChunks := shape.remaining - 1 }).entries.map shapeOf).map
          WorkloadShape.owner) id = true ∨ scope.gone id
      rw [hdown, hshapes, owners_countDown, isOwned_count_down]
      exact h.outside id hid

/-- A chunk is completed without a copy. -/
theorem WorkerInv.completeRest_ends {w₀ : Worker}
    (h : WorkerInv scope (chunk.handle :: hand) [] w₀)
    (hbooks : w.books = { w₀.books with inflight := w₀.books.inflight - 1 })
    (hbuffers : scope.watched → BuffersInv w)
    (hlocated : w₀.books.Located base index chunk) (cs : ChunkState) (ret : ResponseCode) :
    Keeps scope hand (w.accountChunk base cs ret) := by
  have hinflight : w.books.inflight = w₀.books.inflight - 1 := congrArg Books.inflight hbooks
  have hcredit := h.books.credit
  rw [List.cons_append, countP_hand_cons _ (h.books.of_located hlocated).2.1] at hcredit
  apply h.accountChunk_ends
  case hbooks => rw [hinflight, hbooks]
  case hbuffers => exact hbuffers
  case hlocated => exact hlocated
  case hout => exact List.Perm.refl _
  case hinflight =>
    rw [hinflight]
    omega

/-- A read is completed: it is copied, or accounted. -/
theorem WorkerInv.completeChunk_ends (h : WorkerInv scope (chunk.handle :: hand) [] w)
    (hlocated : w.books.Located base index chunk) (ret : ResponseCode) :
    Keeps scope hand (w.completeChunk base index ret true) := by
  rcases hlocated.chunkAt with ⟨wl, cs, hat, heq⟩
  have hfree : ∀ read ∈ w.reads, read.chunk.handle ≠ cs.chunk.handle := by
    rw [heq]
    exact h.books.no_read List.mem_cons_self
  unfold Worker.completeChunk
  rw [hat]
  dsimp only
  split
  · rename_i hcopied
    apply h.frame (books_issueCopy cs)
    case hinv =>
      rw [heq]
      exact h.books.copy (h.books.of_located hlocated).2.1
    case hsame => exact ⟨rfl, rfl, rfl⟩
    case hbuffers => exact fun hb => hb.issueCopy hat hcopied.2.1 hfree
  · rw [if_pos rfl]
    apply h.completeRest_ends
    case hbooks => rw [books_complete, books_releaseStaging]
    case hbuffers =>
      intro hwatched
      exact ((h.buffers hwatched).releaseStaging hat hfree).frame rfl ⟨rfl, rfl, rfl, rfl⟩
    case hlocated => exact hlocated

/-- A copy is completed, and its chunk is accounted. -/
theorem WorkerInv.completeCopy_ends (h : WorkerInv scope hand [chunk.handle] w)
    (hlocated : w.books.Located base index chunk) (ret : ResponseCode) :
    Keeps scope hand (w.completeChunk base index ret false) := by
  rcases hlocated.chunkAt with ⟨wl, cs, hat, heq⟩
  unfold Worker.completeChunk
  rw [hat]
  dsimp only
  rw [if_neg (by simp), if_neg (by simp)]
  apply h.accountChunk_ends
  case hbooks => rw [books_releaseStaging]
  case hbuffers =>
    intro hwatched
    apply (h.buffers hwatched).releaseStaging hat
    rw [heq]
    exact h.books.no_read (List.mem_append_right _ (List.mem_singleton_self _))
  case hlocated => exact hlocated
  case hout =>
    rw [List.perm_iff_count]
    intro a
    simp only [List.count_append, List.count_cons, List.count_nil]
    omega
  case hinflight =>
    rw [books_releaseStaging]
    exact h.books.credit

end Account

/-! ## Submitting a chunk -/

section Submit

variable {scope : Scope} {w : Worker} {hand : List Nat} {base index : Nat} {chunk : ObjectChunk}

/-- A handle stands for one chunk. -/
theorem BooksInv.chunk_eq {landed : List Nat} {b : Books} {chunk' : ObjectChunk}
    (h : BooksInv hand landed b) (hmade : chunk ∈ b.made) (hmade' : chunk' ∈ b.made)
    (hhandle : chunk'.handle = chunk.handle) : chunk' = chunk :=
  List.inj_on_of_nodup_map h.core.made_nodup hmade' hmade hhandle

/-- The plugin takes a read. -/
theorem WorkerInv.read (h : WorkerInv scope (chunk.handle :: hand) [] w)
    (hlocated : w.books.Located base index chunk) {wl : Inflight} {cs : ChunkState}
    (hat : w.chunkAt base index = some (wl, cs)) (hchunk : cs.chunk = chunk) :
    WorkerInv scope hand []
      { w with
        reads := w.reads ++ [{ chunk, staging := cs.staging }]
        submitted := w.submitted ++ [chunk] } := by
  rcases h.books.of_located hlocated with ⟨-, howned, hmade⟩
  refine ⟨⟨?_, h.blocks_eq, fun hwatched => ?_⟩, ?_⟩
  · have hread := h.books.read hmade
    unfold Worker.books at hread ⊢
    dsimp only at hread ⊢
    rw [List.map_append]
    exact hread
  · have hfree : ∀ read ∈ w.reads, read.chunk.handle ≠ cs.chunk.handle := by
      rw [hchunk]
      exact h.books.no_read List.mem_cons_self
    have hread := (h.buffers hwatched).read hat (congrArg ObjectChunk.handle hchunk) hfree rfl
    exact hread.frame rfl ⟨rfl, rfl, rfl, rfl⟩
  · intro id hid
    unfold Books.outside Worker.books at hid
    dsimp only at hid
    rw [List.map_append, List.map_append] at hid
    rcases List.mem_append.1 hid with hold | hnew
    · exact h.outside id hold
    · rw [List.mem_singleton.1 hnew]
      exact Or.inl howned

/-- The plugin takes the read, or the chunk is completed. -/
theorem WorkerInv.attempt_ends (h : WorkerInv scope (chunk.handle :: hand) [] w)
    (hlocated : w.books.Located base index chunk) {wl : Inflight} {cs : ChunkState}
    (hat : w.chunkAt base index = some (wl, cs)) (hchunk : cs.chunk = chunk)
    (answer : SubmitAnswer) : Keeps scope hand (w.attempt base index chunk cs answer) := by
  unfold Worker.attempt
  rcases (if w.retry.enabled then w.retry.beginAttempt cs.retry answer.now
    else (true, cs.retry)) with ⟨started, retry⟩
  dsimp only
  have hsame : (w.setChunk base index fun cs => { cs with retry }).books = w.books :=
    books_setChunk fun _ => rfl
  have hset : WorkerInv scope (chunk.handle :: hand) []
      (w.setChunk base index fun cs => { cs with retry }) := by
    apply h.frame hsame h.books ⟨rfl, rfl, rfl⟩
    exact fun hb => hb.frame (held_setChunk_same fun _ => rfl) ⟨rfl, rfl, rfl, rfl⟩
  rw [← hsame] at hlocated
  split
  · exact hset.completeChunk_ends hlocated _
  · split
    · have hread := hset.read hlocated (chunkAt_setChunk hat _) hchunk
      exact hread
    · exact hset.completeChunk_ends hlocated _

/-- A chunk without a buffer is parked. -/
theorem WorkerInv.park_inv (h : WorkerInv scope (chunk.handle :: hand) [] w)
    (howned : isOwned w.books.owners chunk.handle = true) (cs : ChunkState) :
    WorkerInv scope hand [] (w.park cs chunk.handle) := by
  unfold Worker.park
  split
  · have hparked : ((w.waitingRetries ++ [chunk.handle]) ++ w.waiting).Perm
        (chunk.handle :: (w.waitingRetries ++ w.waiting)) := by
      rw [List.append_assoc]
      exact List.perm_middle
    exact h.shift (h.books.park howned hparked) ⟨rfl, rfl, rfl, rfl, rfl, rfl⟩
  · have hparked : (w.waitingRetries ++ (w.waiting ++ [chunk.handle])).Perm
        (chunk.handle :: (w.waitingRetries ++ w.waiting)) := by
      rw [← List.append_assoc]
      exact List.perm_append_singleton _ _
    exact h.shift (h.books.park howned hparked) ⟨rfl, rfl, rfl, rfl, rfl, rfl⟩

/-- A chunk is submitted. -/
theorem WorkerInv.submit_ends (h : WorkerInv scope (chunk.handle :: hand) [] w)
    (howned : isOwned w.books.owners chunk.handle = true) (hmade : chunk ∈ w.made)
    (answer : SubmitAnswer) : Keeps scope hand (w.submit chunk answer) := by
  rcases h.books.locate_of_owned howned with ⟨base, index, chunk', hlocate, hlocated, hhandle⟩
  have heq := h.books.chunk_eq hmade (h.books.of_located hlocated).2.2 hhandle
  subst heq
  rcases hlocated.chunkAt with ⟨wl, cs, hat, hchunk⟩
  have hlost : Kept scope [] [] w :=
    (h.shift (h.books.lose (List.nil_sublist _)) ⟨rfl, rfl, rfl, rfl, rfl, rfl⟩).toKept
  unfold Worker.submit
  rw [hlocate]
  dsimp only
  rw [hat]
  dsimp only
  split
  · exact ⟨rfl, hlost⟩
  · split
    · trivial
    · split
      · exact ⟨rfl, hlost⟩
      · split
        · exact h.attempt_ends hlocated hat hchunk _
        · split
          · exact h.completeChunk_ends hlocated _
          · split
            · exact h.completeChunk_ends hlocated _
            · split
              · exact h.park_inv howned cs
              · rename_i hvalid
                split
                · trivial
                · rename_i hnew
                  have hsame : ({ w with lent := w.lent ++ [answer.buffer] }.setChunk base index
                      fun cs => { cs with staging := answer.buffer }).books = w.books :=
                    books_setChunk fun _ => rfl
                  have hfree : ∀ read ∈ w.reads, read.chunk.handle ≠ cs.chunk.handle := by
                    rw [hchunk]
                    exact h.books.no_read List.mem_cons_self
                  have hset : WorkerInv scope (chunk'.handle :: hand) []
                      ({ w with lent := w.lent ++ [answer.buffer] }.setChunk base index
                        fun cs => { cs with staging := answer.buffer }) := by
                    apply h.frame hsame h.books ⟨rfl, rfl, rfl⟩
                    exact fun hb => hb.acquire hat (by simpa using hvalid) hnew hfree
                  rw [← hsame] at hlocated
                  exact hset.attempt_ends hlocated (chunkAt_setChunk hat _) hchunk _

end Submit

end ObjectStorage
end ModelStreamer
