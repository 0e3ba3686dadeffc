import Mathlib.Data.List.Flatten
import ModelStreamer.Lib.Loans
import ModelStreamer.ObjectStorage.WorkerTurns

/-!
# The staging buffers of an object storage worker

A buffer that the staging pool has lent is with a chunk, with the copy issuer, or retired.  A
read at the plugin writes into the buffer of its chunk, or into a retired one.  So a chunk
without a read at the plugin may give its buffer back.

Main results:

- Definition {lit}`BuffersInv`: what holds of the buffers.
- Theorems {lit}`BuffersInv.releaseStaging`, {lit}`BuffersInv.issueCopy`,
  {lit}`BuffersInv.acquire`, {lit}`BuffersInv.read`: what a worker does with a buffer.
-/

namespace ModelStreamer
namespace ObjectStorage

open Common DeviceIo.Staging Lib Streamer

/-! ## Where the buffers are -/

/-- The buffer that a chunk holds, under its handle. -/
def ChunkState.lending (cs : ChunkState) : List (Nat × StagingBuffer) :=
  if cs.staging.valid then [(cs.chunk.handle, cs.staging)] else []

/-- The buffers that a workload holds. -/
def Inflight.lending (wl : Inflight) : List (Nat × StagingBuffer) :=
  wl.chunks.flatMap ChunkState.lending

/-- The loans of the staging pool. -/
def Worker.loans (w : Worker) : Loans Nat StagingBuffer :=
  { held := w.workloads.entries.flatMap fun e => e.2.lending
    passed := w.copying.map IssuedCopy.staging
    retired := (w.givenBack.filter GivenBack.retired).map GivenBack.buffer
    used := (w.reads.filter fun read => read.staging.valid).map fun read =>
      (read.chunk.handle, read.staging)
    lent := w.lent }

/-- What holds of the staging buffers. -/
structure BuffersInv (w : Worker) : Prop where
  sound : w.loans.Sound
  valid : ∀ copy ∈ w.copying, copy.staging.valid = true
  /-- A buffer that went back under a read is retired. -/
  safe : ∀ g ∈ w.givenBack, g.underRead = true → g.retired = true

section Buffers

variable {w : Worker} {base index : Nat} {wl : Inflight} {cs : ChunkState} {buffer : StagingBuffer}

theorem ChunkState.mem_lending {x : Nat × StagingBuffer} :
    x ∈ cs.lending ↔ cs.staging.valid = true ∧ x = (cs.chunk.handle, cs.staging) := by
  unfold lending
  split
  · rename_i hvalid
    rw [List.mem_singleton]
    exact ⟨fun heq => ⟨hvalid, heq⟩, fun h => h.2⟩
  · rename_i hinvalid
    constructor
    · intro hmem
      cases hmem
    · rintro ⟨hvalid, -⟩
      exact absurd hvalid hinvalid

theorem ChunkState.lending_of_valid (hvalid : cs.staging.valid = true) :
    cs.lending = [(cs.chunk.handle, cs.staging)] :=
  if_pos hvalid

theorem ChunkState.lending_of_invalid (hinvalid : ¬ cs.staging.valid = true) : cs.lending = [] :=
  if_neg hinvalid

/-- The reads that write into a buffer. -/
theorem mem_used {x : Nat × StagingBuffer} : x ∈ w.loans.used ↔
    ∃ read ∈ w.reads, read.staging.valid = true ∧ x = (read.chunk.handle, read.staging) := by
  unfold Worker.loans
  dsimp only
  rw [List.mem_map]
  constructor
  · rintro ⟨read, hread, rfl⟩
    rcases List.mem_filter.1 hread with ⟨hmem, hvalid⟩
    exact ⟨read, hmem, hvalid, rfl⟩
  · rintro ⟨read, hmem, hvalid, rfl⟩
    exact ⟨read, List.mem_filter.2 ⟨hmem, hvalid⟩, rfl⟩

/-- A buffer that is not in use is under no read. -/
theorem not_under_read (hvalid : buffer.valid = true) (hunused : ∀ u ∈ w.loans.used, u.2 ≠ buffer) :
    ∀ read ∈ w.reads, read.staging ≠ buffer := by
  rintro read hread rfl
  exact hunused _ (mem_used.2 ⟨read, hread, hvalid, rfl⟩) rfl

/-- The workloads and the reads stay where the buffers look. -/
theorem BuffersInv.frame {w' : Worker} (h : BuffersInv w) (hheld : w'.loans.held = w.loans.held)
    (hsame : w'.reads = w.reads ∧ w'.copying = w.copying ∧ w'.lent = w.lent ∧
      w'.givenBack = w.givenBack) : BuffersInv w' := by
  rcases hsame with ⟨hreads, hcopying, hlent, hgiven⟩
  have hloans : w'.loans = w.loans := by
    unfold Worker.loans at hheld ⊢
    dsimp only at hheld
    rw [hheld, hreads, hcopying, hlent, hgiven]
  refine ⟨?_, ?_, ?_⟩
  · rw [hloans]
    exact h.sound
  · rw [hcopying]
    exact h.valid
  · rw [hgiven]
    exact h.safe

/-! ## One chunk -/

/-- A chunk changes, but not its buffer. -/
theorem held_setChunk_same {f : ChunkState → ChunkState} (hf : ∀ cs, (f cs).lending = cs.lending) :
    (w.setChunk base index f).loans.held = w.loans.held := by
  have hchunks : ∀ (chunks : List ChunkState) (i : Nat),
      (chunks.modify i f).flatMap ChunkState.lending = chunks.flatMap ChunkState.lending := by
    intro chunks
    induction chunks with
    | nil =>
        intro i
        rw [List.modify_nil]
    | cons cs chunks ih =>
        intro i
        cases i with
        | zero => rw [List.modify_zero_cons, List.flatMap_cons, List.flatMap_cons, hf]
        | succ i => rw [List.modify_succ_cons, List.flatMap_cons, List.flatMap_cons, ih]
  unfold Worker.loans Worker.setChunk OrderedMap.modify
  dsimp only
  rw [List.flatMap_map]
  congr 1
  funext e
  split
  · exact hchunks e.2.chunks index
  · rfl

/-- Where the buffer of a chunk stands among the others. -/
theorem held_setChunk (hat : w.chunkAt base index = some (wl, cs)) (f : ChunkState → ChunkState) :
    ∃ before after, w.loans.held = before ++ cs.lending ++ after ∧
      (w.setChunk base index f).loans.held = before ++ (f cs).lending ++ after := by
  unfold Worker.chunkAt at hat
  rw [Option.bind_eq_some_iff] at hat
  rcases hat with ⟨wl', hfind, hchunk⟩
  rw [Option.map_eq_some_iff] at hchunk
  rcases hchunk with ⟨cs', hget, heq⟩
  cases heq
  rcases List.getElem?_eq_some_iff.1 hget with ⟨hlt, hcs⟩
  rcases OrderedMap.split_of_mem (OrderedMap.find?_eq_some.1 hfind) (fun wl =>
    { wl with chunks := wl.chunks.modify index f }) with ⟨first, last, hentries, hmodified, -⟩
  have hchunks : wl.chunks = wl.chunks.take index ++ cs :: wl.chunks.drop (index + 1) := by
    rw [← hcs, List.getElem_cons_drop, List.take_append_drop]
  have hchanged : wl.chunks.modify index f =
      wl.chunks.take index ++ f cs :: wl.chunks.drop (index + 1) := by
    rw [List.modify_eq_take_cons_drop hlt, hcs]
  refine ⟨first.flatMap (fun e => e.2.lending) ++
      (wl.chunks.take index).flatMap ChunkState.lending,
    (wl.chunks.drop (index + 1)).flatMap ChunkState.lending ++
      last.flatMap (fun e => e.2.lending), ?_, ?_⟩
  · have hlending : wl.lending = (wl.chunks.take index).flatMap ChunkState.lending ++
        (cs.lending ++ (wl.chunks.drop (index + 1)).flatMap ChunkState.lending) := by
      unfold Inflight.lending
      rw [← List.flatMap_cons, ← List.flatMap_append, ← hchunks]
    unfold Worker.loans
    dsimp only
    rw [hentries, List.flatMap_append, List.flatMap_cons, hlending]
    simp only [List.append_assoc]
  · unfold Worker.loans Worker.setChunk
    dsimp only
    rw [hmodified, List.flatMap_append, List.flatMap_cons]
    unfold Inflight.lending
    dsimp only
    rw [hchanged, List.flatMap_append, List.flatMap_cons]
    simp only [List.append_assoc]

/-- {lit}`release`: a buffer is free again. -/
theorem loans_release (buffer : StagingBuffer) :
    (w.giveBack buffer false).loans = { w.loans with lent := w.loans.lent.erase buffer } := by
  unfold Worker.loans Worker.giveBack
  dsimp only
  rw [List.filter_append, List.filter_cons_of_neg Bool.false_ne_true, List.filter_nil,
    List.append_nil]
  rfl

/-- {lit}`retire`: a buffer stays away. -/
theorem loans_retire (buffer : StagingBuffer) :
    (w.giveBack buffer true).loans =
      { w.loans with retired := w.loans.retired ++ [buffer] } := by
  unfold Worker.loans Worker.giveBack
  dsimp only
  rw [List.filter_append, List.map_append]
  rfl

/-- A buffer without a place that is under no read goes back to the pool. -/
theorem BuffersInv.giveBack (h : BuffersInv w) (haway : buffer ∉ w.loans.away)
    (hunder : ∀ read ∈ w.reads, read.staging ≠ buffer) : BuffersInv (w.giveBack buffer false) := by
  have hany : (w.reads.any fun read => read.staging = buffer) = false := by
    rw [List.any_eq_false]
    intro read hread
    rw [decide_eq_true_eq]
    exact hunder read hread
  refine ⟨?_, h.valid, ?_⟩
  · rw [loans_release]
    exact h.sound.giveBack haway
  · intro g hg
    rcases List.mem_append.1 hg with hold | hnew
    · exact h.safe g hold
    · rw [List.mem_singleton.1 hnew]
      dsimp only
      rw [hany]
      exact fun hfalse => absurd hfalse Bool.false_ne_true

/-- Buffers without a place that are under no read go back to the pool. -/
theorem BuffersInv.giveBackEach {buffers : List StagingBuffer} (h : BuffersInv w)
    (hout : ∀ buffer ∈ buffers, buffer ∉ w.loans.away ∧
      ∀ read ∈ w.reads, read.staging ≠ buffer) :
    BuffersInv (w.giveBackEach buffers false) := by
  induction buffers generalizing w with
  | nil => exact h
  | cons buffer buffers ih =>
      rcases hout buffer List.mem_cons_self with ⟨haway, hunder⟩
      apply ih (h.giveBack haway hunder)
      intro other hother
      rw [loans_release]
      exact hout other (List.mem_cons_of_mem _ hother)

/-- The buffers of the chunks are retired, when the chunks are gone. -/
theorem BuffersInv.retireEach {held : List (Nat × StagingBuffer)}
    (hsound : { w.loans with held }.Sound)
    (hvalid : ∀ copy ∈ w.copying, copy.staging.valid = true)
    (hsafe : ∀ g ∈ w.givenBack, g.underRead = true → g.retired = true)
    (hnone : w.loans.held = []) : BuffersInv (w.giveBackEach (held.map Prod.snd) true) := by
  induction held generalizing w with
  | nil =>
      refine ⟨?_, hvalid, hsafe⟩
      rw [← hnone] at hsound
      exact hsound
  | cons x held ih =>
      apply ih
      case hsound =>
        rw [loans_retire]
        exact hsound.retire rfl
      case hvalid => exact hvalid
      case hsafe =>
        intro g hg
        rcases List.mem_append.1 hg with hold | hnew
        · exact hsafe g hold
        · rw [List.mem_singleton.1 hnew]
          exact fun _ => rfl
      case hnone => exact hnone

/-- A copy is done, and its buffer is free. -/
theorem BuffersInv.land {copy : IssuedCopy} {copying : List IssuedCopy} (h : BuffersInv w)
    (hperm : w.copying.Perm (copy :: copying)) (copies : List CopyDone) :
    BuffersInv ({ w with copying, copies }.giveBack copy.staging false) := by
  have hmem : copy ∈ w.copying := hperm.symm.subset List.mem_cons_self
  rcases h.sound.land (hperm.map IssuedCopy.staging) with ⟨hsound, haway⟩
  have hlanded : BuffersInv { w with copying, copies } :=
    ⟨hsound, fun c hc => h.valid c (hperm.symm.subset (List.mem_cons_of_mem _ hc)), h.safe⟩
  have hunused := h.sound.unused_of_passed (List.mem_map_of_mem hmem)
  exact hlanded.giveBack haway (not_under_read (h.valid copy hmem) hunused)

/-- The users of the chunk's buffer, when the chunk has no read at the plugin. -/
theorem unused_key (hfree : ∀ read ∈ w.reads, read.chunk.handle ≠ cs.chunk.handle) :
    ∀ u ∈ w.loans.used, u.1 ≠ cs.chunk.handle := by
  intro u hu
  rcases mem_used.1 hu with ⟨read, hread, -, rfl⟩
  exact hfree read hread

/-- A chunk lets its buffer go. -/
theorem held_empty (hat : w.chunkAt base index = some (wl, cs)) (hvalid : cs.staging.valid = true) :
    ∃ before after, w.loans.held = before ++ (cs.chunk.handle, cs.staging) :: after ∧
      (w.setChunk base index fun cs => { cs with staging := {} }).loans.held =
        before ++ after := by
  rcases held_setChunk hat fun cs => { cs with staging := {} } with
    ⟨before, after, hheld, hchanged⟩
  rw [ChunkState.lending_of_valid hvalid, List.append_assoc] at hheld
  have hnone : ({ cs with staging := {} } : ChunkState).lending = [] := rfl
  rw [hnone, List.append_nil] at hchanged
  exact ⟨before, after, hheld, hchanged⟩

/-- A chunk holds its buffer. -/
theorem mem_held (hat : w.chunkAt base index = some (wl, cs)) (hvalid : cs.staging.valid = true) :
    (cs.chunk.handle, cs.staging) ∈ w.loans.held := by
  rcases held_empty hat hvalid with ⟨before, after, hheld, -⟩
  rw [hheld]
  exact List.mem_append_right _ List.mem_cons_self

/-- A chunk without a read lets its buffer go. -/
theorem BuffersInv.empty (h : BuffersInv w) (hat : w.chunkAt base index = some (wl, cs))
    (hvalid : cs.staging.valid = true)
    (hfree : ∀ read ∈ w.reads, read.chunk.handle ≠ cs.chunk.handle) :
    let w' := w.setChunk base index fun cs => { cs with staging := {} }
    BuffersInv w' ∧ cs.staging ∉ w'.loans.away ∧
      ∀ read ∈ w.reads, read.staging ≠ cs.staging := by
  rcases held_empty hat hvalid with ⟨before, after, hheld, hchanged⟩
  have hloans : (w.setChunk base index fun cs => { cs with staging := {} }).loans =
      { w.loans with held := before ++ after } := by
    rw [← hchanged]
    rfl
  have hunused := h.sound.unused_of_held (mem_held hat hvalid) (unused_key hfree)
  have hdrop := h.sound.drop_one hheld (unused_key hfree)
  refine ⟨⟨?_, h.valid, h.safe⟩, ?_, not_under_read hvalid hunused⟩
  · rw [hloans]
    exact hdrop
  · rw [hloans]
    exact h.sound.not_away_of_held hheld

/-- {lit}`release` of the buffer of a chunk without a read. -/
theorem BuffersInv.releaseStaging (h : BuffersInv w)
    (hat : w.chunkAt base index = some (wl, cs))
    (hfree : ∀ read ∈ w.reads, read.chunk.handle ≠ cs.chunk.handle) :
    BuffersInv (w.releaseStaging base index cs) := by
  unfold Worker.releaseStaging
  split
  · rename_i hvalid
    rcases h.empty hat hvalid hfree with ⟨hempty, haway, hunder⟩
    exact hempty.giveBack haway hunder
  · exact h

/-- A chunk without a read hands its buffer to the issuer. -/
theorem BuffersInv.issueCopy (h : BuffersInv w) (hat : w.chunkAt base index = some (wl, cs))
    (hvalid : cs.staging.valid = true)
    (hfree : ∀ read ∈ w.reads, read.chunk.handle ≠ cs.chunk.handle) :
    BuffersInv (w.issueCopy base index cs) := by
  rcases held_empty hat hvalid with ⟨before, after, hheld, hchanged⟩
  have hloans : (w.issueCopy base index cs).loans =
      { w.loans with held := before ++ after, passed := w.loans.passed ++ [cs.staging] } := by
    rw [← hchanged]
    unfold Worker.issueCopy Worker.loans
    dsimp only
    rw [List.map_append]
    rfl
  refine ⟨?_, ?_, h.safe⟩
  · rw [hloans]
    exact h.sound.pass hheld (unused_key hfree)
  · intro copy hcopy
    rcases List.mem_append.1 hcopy with hold | hnew
    · exact h.valid copy hold
    · rw [List.mem_singleton.1 hnew]
      exact hvalid

/-- A chunk without a read gets a buffer from the pool. -/
theorem BuffersInv.acquire (h : BuffersInv w) (hat : w.chunkAt base index = some (wl, cs))
    (hvalid : buffer.valid = true) (hnew : buffer ∉ w.lent)
    (hfree : ∀ read ∈ w.reads, read.chunk.handle ≠ cs.chunk.handle) :
    BuffersInv ({ w with lent := w.lent ++ [buffer] }.setChunk base index fun cs =>
      { cs with staging := buffer }) := by
  rcases held_setChunk hat fun cs => { cs with staging := buffer } with
    ⟨before, after, hheld, hchanged⟩
  have hnew' : ({ cs with staging := buffer } : ChunkState).lending =
      [(cs.chunk.handle, buffer)] := ChunkState.lending_of_valid hvalid
  rw [hnew', List.append_assoc] at hchanged
  change _ = before ++ (cs.chunk.handle, buffer) :: after at hchanged
  have hloans : ({ w with lent := w.lent ++ [buffer] }.setChunk base index fun cs =>
      { cs with staging := buffer }).loans =
      { w.loans with
        held := before ++ (cs.chunk.handle, buffer) :: after
        lent := w.loans.lent ++ [buffer] } := by
    rw [← hchanged]
    rfl
  refine ⟨?_, h.valid, h.safe⟩
  rw [hloans]
  by_cases hold : cs.staging.valid = true
  · -- The buffer that the chunk had is lost to the pool.
    rw [ChunkState.lending_of_valid hold, List.append_assoc] at hheld
    exact (h.sound.drop_one hheld (unused_key hfree)).borrow rfl hnew
  · rw [ChunkState.lending_of_invalid hold, List.append_nil] at hheld
    exact h.sound.borrow hheld hnew

/-! ## Reads -/

/-- A chunk reads into its buffer. -/
theorem BuffersInv.read {reads : List PluginRead} {chunk : ObjectChunk} (h : BuffersInv w)
    (hat : w.chunkAt base index = some (wl, cs)) (hhandle : cs.chunk.handle = chunk.handle)
    (hfree : ∀ read ∈ w.reads, read.chunk.handle ≠ cs.chunk.handle)
    (hreads : reads = w.reads ++ [{ chunk, staging := cs.staging }]) :
    BuffersInv { w with reads } := by
  refine ⟨?_, h.valid, h.safe⟩
  by_cases hvalid : cs.staging.valid = true
  · have hused : ({ w with reads } : Worker).loans.used =
        w.loans.used ++ [(cs.chunk.handle, cs.staging)] := by
      unfold Worker.loans
      dsimp only
      rw [hreads, List.filter_append, List.map_append]
      congr 1
      simp [hvalid, hhandle]
    have hread := h.sound.use (mem_held hat hvalid) (unused_key hfree)
    rw [← hused] at hread
    exact hread
  · have hused : ({ w with reads } : Worker).loans.used = w.loans.used := by
      unfold Worker.loans
      dsimp only
      rw [hreads, List.filter_append]
      simp [hvalid]
    exact h.sound.fewer (hused ▸ List.Sublist.refl _)

/-- The plugin holds fewer reads. -/
theorem BuffersInv.report {reads : List PluginRead} (h : BuffersInv w)
    (hsub : reads.Sublist w.reads) : BuffersInv { w with reads } := by
  refine ⟨?_, h.valid, h.safe⟩
  have hused : ({ w with reads } : Worker).loans.used.Sublist w.loans.used :=
    (hsub.filter _).map _
  exact h.sound.fewer hused

/-! ## Workloads -/

/-- A workload changes, but not its chunks. -/
theorem held_modify {wl' : Inflight} (hentry : (base, wl) ∈ w.workloads.entries)
    (hchunks : wl'.chunks = wl.chunks) :
    ({ w with workloads := w.workloads.modify base fun _ => wl' } : Worker).loans.held =
      w.loans.held := by
  rcases OrderedMap.split_of_mem hentry fun _ => wl' with ⟨before, after, hentries, hmodified, -⟩
  unfold Worker.loans
  dsimp only
  rw [hentries, hmodified, List.flatMap_append, List.flatMap_append, List.flatMap_cons,
    List.flatMap_cons]
  unfold Inflight.lending
  rw [hchunks]

/-- A workload without buffers is new. -/
theorem held_update_new (hnew : w.workloads.find? base = none) (hlending : wl.lending = []) :
    ({ w with workloads := w.workloads.update base wl id } : Worker).loans.held =
      w.loans.held := by
  rcases OrderedMap.split_of_new (d := wl) (f := id) (OrderedMap.find?_eq_none.1 hnew) with
    ⟨before, after, hentries, hupdated⟩
  unfold Worker.loans
  dsimp only
  rw [hentries, hupdated, List.flatMap_append, List.flatMap_append, List.flatMap_cons, id_eq,
    hlending, List.nil_append]

/-- A workload without reads is erased. -/
theorem BuffersInv.erase (h : BuffersInv w) (hentry : (base, wl) ∈ w.workloads.entries)
    (hfree : ∀ cs ∈ wl.chunks, ∀ read ∈ w.reads, read.chunk.handle ≠ cs.chunk.handle) :
    BuffersInv { w with workloads := w.workloads.erase base } := by
  rcases OrderedMap.split_of_mem hentry id with ⟨before, after, hentries, -, herased⟩
  refine ⟨?_, h.valid, h.safe⟩
  apply h.sound.drop
  · unfold Worker.loans
    dsimp only
    rw [hentries, herased]
    exact ((List.Sublist.refl before).append (List.sublist_cons_self _ _)).flatMap _
  · intro u hu hheld
    rcases mem_used.1 hu with ⟨read, hread, -, hkey⟩
    unfold Worker.loans at hheld
    change u ∈ (w.workloads.erase base).entries.flatMap fun e => e.2.lending
    dsimp only at hheld
    rw [hentries, List.flatMap_append, List.flatMap_cons, List.mem_append, List.mem_append] at hheld
    rw [herased, List.flatMap_append, List.mem_append]
    rcases hheld with hbefore | hown | hafter
    · exact Or.inl hbefore
    · unfold Inflight.lending at hown
      rcases List.mem_flatMap.1 hown with ⟨cs, hcs, hlending⟩
      rcases ChunkState.mem_lending.1 hlending with ⟨-, heq⟩
      rw [hkey] at heq
      exact absurd (congrArg Prod.fst heq) (hfree cs hcs read hread)
    · exact Or.inr hafter

/-! ## Everything goes back -/

/-- Giving buffers back only changes the loans. -/
theorem giveBackEach_eq (buffers : List StagingBuffer) (retired : Bool) (w : Worker) :
    ∃ lent givenBack, w.giveBackEach buffers retired = { w with lent, givenBack } := by
  induction buffers generalizing w with
  | nil => exact ⟨w.lent, w.givenBack, rfl⟩
  | cons buffer buffers ih =>
      rcases ih (w.giveBack buffer retired) with ⟨lent, givenBack, heq⟩
      exact ⟨lent, givenBack, heq⟩

/-- The workloads may be erased before their buffers go back. -/
theorem giveBackEach_finalizeAll (buffers : List StagingBuffer) (retired : Bool)
    (code : ResponseCode) (w : Worker) :
    (w.giveBackEach buffers retired).finalizeAll code =
      (w.finalizeAll code).giveBackEach buffers retired := by
  induction buffers generalizing w with
  | nil => rfl
  | cons buffer buffers ih => exact ih (w.giveBack buffer retired)

/-- The buffers that an abort finds. -/
theorem heldBuffers_eq : w.heldBuffers = w.loans.held.map Prod.snd := by
  have hchunks : ∀ chunks : List ChunkState,
      (chunks.map ChunkState.staging).filter StagingBuffer.valid =
        (chunks.flatMap ChunkState.lending).map Prod.snd := by
    intro chunks
    induction chunks with
    | nil => rfl
    | cons cs chunks ih =>
        rw [List.map_cons, List.flatMap_cons, List.map_append, ← ih]
        by_cases hvalid : cs.staging.valid = true
        · rw [List.filter_cons_of_pos hvalid, ChunkState.lending_of_valid hvalid]
          rfl
        · rw [List.filter_cons_of_neg hvalid, ChunkState.lending_of_invalid hvalid]
          rfl
  unfold Worker.heldBuffers Worker.loans
  dsimp only
  rw [List.filter_flatMap, List.map_flatMap]
  congr 1
  funext e
  exact hchunks e.2.chunks

/-- A buffer that a chunk holds has memory. -/
theorem valid_of_held (hbuffer : buffer ∈ w.loans.held.map Prod.snd) : buffer.valid = true := by
  rw [← heldBuffers_eq] at hbuffer
  exact (List.mem_filter.1 hbuffer).2

/-- {lit}`quiesce_copies`: the buffers of the copies are free. -/
theorem BuffersInv.quiesceCopies (h : BuffersInv w) : BuffersInv w.quiesceCopies := by
  rcases h.sound.land_all with ⟨hsound, haway⟩
  have hlanded : BuffersInv { w with copiesIssued := 0, copies := [], copying := [] } :=
    ⟨hsound, nofun, h.safe⟩
  apply hlanded.giveBackEach
  intro buffer hbuffer
  have hunused := h.sound.unused_of_passed hbuffer
  rcases List.mem_map.1 hbuffer with ⟨copy, hcopy, rfl⟩
  exact ⟨haway _ hbuffer, not_under_read (h.valid copy hcopy) hunused⟩

/-- The buffers of the chunks are free, if the chunks have no reads. -/
theorem BuffersInv.release_all (h : BuffersInv w) (hfree : ∀ u ∈ w.loans.used, u ∉ w.loans.held)
    (code : ResponseCode) : BuffersInv ((w.giveBackAll false).finalizeAll code) := by
  rcases h.sound.drop_all hfree with ⟨hsound, haway⟩
  have hgone : BuffersInv (w.finalizeAll code) := ⟨hsound, h.valid, h.safe⟩
  unfold Worker.giveBackAll
  rw [giveBackEach_finalizeAll, heldBuffers_eq]
  apply hgone.giveBackEach
  intro buffer hbuffer
  have hunused := h.sound.unused_of_holders hbuffer hfree
  exact ⟨haway buffer hbuffer, not_under_read (valid_of_held hbuffer) hunused⟩

/-- The buffers of the chunks are retired. -/
theorem BuffersInv.retire_all (h : BuffersInv w) (code : ResponseCode) :
    BuffersInv ((w.giveBackAll true).finalizeAll code) := by
  unfold Worker.giveBackAll
  rw [giveBackEach_finalizeAll, heldBuffers_eq]
  apply BuffersInv.retireEach
  case hsound => exact h.sound
  case hvalid => exact h.valid
  case hsafe => exact h.safe
  case hnone => rfl

end Buffers

end ObjectStorage
end ModelStreamer
