import ModelStreamer.AsyncIo.WorkerEnqueue
import ModelStreamer.Streamer.ChunkAgreement

/-!
# What the asynchronous worker guarantees

A worker runs until it is stopped or its engine fails, and has ended from then on.  Every call
keeps one of the two invariants, so every run does.

Main results:

- Theorem {lit}`Sound.step`: one call of a worker.
- Theorem {lit}`sound_run`: the calls of a run.
- Theorem {lit}`worker_never_fails`: no assertion fails and no vector is left.
- Theorem {lit}`worker_conserves`: slots, chunks and buffers are conserved.
- Theorem {lit}`batches_settle_once`: every batch is reported once, after its responses.
- Theorem {lit}`worker_ends_clean`: a worker that has ended holds nothing and stages nothing.
- Theorem {lit}`reads_own_file`: a read names the open file of its own batch.
-/

namespace ModelStreamer
namespace AsyncIo

open Common Lib Streamer PosixIo
open ObjectStorage (Answer CapacityQueue)

/-! ## Actions -/

/-- The batches that an action brings. -/
def Worker.Action.batches : Worker.Action → List Batch
  | .enqueue batches _ _ => batches
  | _ => []

/-- The engine does not answer with the code of a pool that stops. -/
def Worker.Action.FromEngine : Worker.Action → Prop
  | .drainBatch answer =>
      answer.flushed.code ≠ .finishedError ∧ answer.waited ≠ .finishedError
  | _ => True

/-- The engine waits for all reads when the worker aborts. -/
def Worker.Action.Waits : Worker.Action → Prop
  | .drainBatch answer => ∀ round ∈ answer.aborting.rounds, round.code = .success
  | _ => True

instance decidableFromEngine : DecidablePred Worker.Action.FromEngine
  | .enqueue _ _ _ => .isTrue trivial
  | .pump _ => .isTrue trivial
  | .drainBatch _ => inferInstanceAs (Decidable (_ ∧ _))
  | .copyLands _ => .isTrue trivial

instance decidableWaits : DecidablePred Worker.Action.Waits
  | .enqueue _ _ _ => .isTrue trivial
  | .pump _ => .isTrue trivial
  | .drainBatch answer =>
      inferInstanceAs (Decidable (∀ round ∈ answer.aborting.rounds, round.code = .success))
  | .copyLands _ => .isTrue trivial

/-- What a worker relies on in the calls to come: batches that arrive once and are divided into
chunks, and an engine that answers with its own codes and waits if it is to. -/
structure Ahead (env : Setting) (calm : Prop) (actions : List Worker.Action) : Prop where
  distinct : (env.batches ++ actions.flatMap Worker.Action.batches).Nodup
  chunked : ∀ batch ∈ actions.flatMap Worker.Action.batches, ChunkedBatch batch
  codes : ∀ action ∈ actions, action.FromEngine
  waits : calm → ∀ action ∈ actions, action.Waits

/-- The setting after an action. -/
def Setting.after (env : Setting) (actions : List Worker.Action) : Setting :=
  { env with batches := env.batches ++ actions.flatMap Worker.Action.batches }

/-- The calls after the next one. -/
theorem Ahead.tail {env : Setting} {calm : Prop} {action : Worker.Action}
    {actions : List Worker.Action} (h : Ahead env calm (action :: actions)) :
    Ahead (env.after [action]) calm actions where
  distinct := by
    have hdistinct := h.distinct
    rw [List.flatMap_cons, ← List.append_assoc] at hdistinct
    unfold Setting.after
    rw [List.flatMap_singleton]
    exact hdistinct
  chunked := fun batch hbatch => h.chunked batch (List.mem_append_right _ hbatch)
  codes := fun a ha => h.codes a (List.mem_cons_of_mem _ ha)
  waits := fun hc a ha => h.waits hc a (List.mem_cons_of_mem _ ha)

/-- The setting after one action and the rest. -/
theorem Setting.after_cons (env : Setting) (action : Worker.Action)
    (actions : List Worker.Action) :
    (env.after [action]).after actions = env.after (action :: actions) := by
  unfold Setting.after
  dsimp only
  rw [List.flatMap_singleton, List.flatMap_cons, List.append_assoc]

/-- A worker is running, or has ended. -/
def Sound (env : Setting) (calm : Prop) (w : Worker) : Prop :=
  Busy env {} w ∨ Ended env calm w

section Calls

variable {env : Setting} {calm : Prop} {w : Worker}

/-! ## Draining -/

/-- The engine issues reads. -/
theorem Busy.flush (h : Busy env {} w) (answer : Worker.FlushAnswer) :
    Ends (fun w' => Busy env {} { w' with issued := w.issued + answer.issued }) (· = .refused)
      (w.flush answer) := by
  unfold Worker.flush
  split
  case isTrue => exact rfl
  case isFalse hmore =>
    have hn : answer.issued ≤ w.staged.length := not_lt.1 hmore
    exact ⟨{ h.core.flush hn with }, h.window.flush hn⟩

/-- The worker gives up when its engine fails. -/
theorem Busy.abortAll {code : ResponseCode} {answer : Worker.AbortAnswer} (h : Busy env {} w)
    (hcode : code ≠ .success) (hrunning : code ≠ .finishedError)
    (hcalm : calm → ∀ round ∈ answer.rounds, round.code = .success) :
    Ends (Ended env calm) (· = .refused) (w.abortAll code answer) :=
  h.core.abortAll h.window.capacity h.window.depth_pos h.window.roomy h.window.reason hcode
    (fun hfinished => absurd hfinished hrunning) hcalm

/-- Completions are waited for and processed. -/
theorem Busy.harvest {answer : Worker.DrainAnswer} (h : Busy env {} w)
    (hwaited : answer.waited ≠ .finishedError)
    (hcalm : calm → ∀ round ∈ answer.aborting.rounds, round.code = .success) :
    Ends (Sound env calm) (· = .refused) (w.harvest answer) := by
  unfold Worker.harvest
  split
  case isTrue hfailed =>
    have hwaiting : Busy env {} w.collectNone := ⟨{ h.core with }, h.window⟩
    exact (hwaiting.abortAll hfailed hwaited hcalm).imp fun _ => Or.inr
  case isFalse =>
    split
    case isTrue => exact rfl
    case isFalse =>
      apply (h.collect _).bind
      intro w' h'
      exact (h'.harvestEach answer.harvests (List.nil_append _)).imp fun _ => Or.inl

/-- The count of stalled flushes changes nothing else. -/
theorem Busy.stall (h : Busy env {} w) (stalledFlushes : Nat) :
    Busy env {} { w with stalledFlushes } :=
  ⟨{ h.core with }, h.window⟩

/-- A turn of a worker that is running. -/
theorem Busy.drainBatch {answer : Worker.DrainAnswer} (h : Busy env {} w)
    (hengine : answer.flushed.code ≠ .finishedError ∧ answer.waited ≠ .finishedError)
    (hcalm : calm → ∀ round ∈ answer.aborting.rounds, round.code = .success) :
    Ends (Sound env calm) (· = .refused) (w.drainBatch answer) := by
  unfold Worker.drainBatch
  split
  case isTrue =>
    have hstopped : Core env {} { w with stopping := true } := { h.core with }
    have hends : Ends (Ended env calm) (· = .refused)
        (({ w with stopping := true } : Worker).abortAll .finishedError answer.aborting) :=
      hstopped.abortAll h.window.capacity h.window.depth_pos h.window.roomy h.window.reason
        ResponseCode.noConfusion (fun _ => rfl) hcalm
    exact hends.imp fun _ => Or.inr
  case isFalse =>
    apply (h.core.drainCopies (decide (w.issued = 0)) answer.landing).bind
    rintro w₁ ⟨hcore₁, hwindow₁, -⟩
    have h₁ : Busy env {} w₁ := ⟨hcore₁, hwindow₁ ▸ h.window⟩
    apply (h₁.resumeParked w₁.waiting.length answer.resumed).bind
    intro w₂ h₂
    apply (h₂.flush answer.flushed).bind
    intro w₃ h₃
    dsimp only
    split
    case isTrue hfailed => exact (h₃.abortAll hfailed hengine.1 hcalm).imp fun _ => Or.inr
    case isFalse =>
      split
      case isTrue =>
        split
        case isTrue =>
          exact ((h₃.stall 0).abortAll ResponseCode.noConfusion ResponseCode.noConfusion
            hcalm).imp fun _ => Or.inr
        case isFalse => exact (h₃.stall _).harvest hengine.2 hcalm
      case isFalse => exact (h₃.stall 0).harvest hengine.2 hcalm

/-! ## One call -/

/-- One call of a worker. -/
theorem Sound.step {action : Worker.Action} {actions : List Worker.Action} (h : Sound env calm w)
    (hahead : Ahead env calm (action :: actions)) :
    Ends (Sound (env.after [action]) calm) (· = .refused) (w.step action) := by
  have hafter : env.after [action] = { env with batches := env.batches ++ action.batches } := by
    unfold Setting.after
    rw [List.flatMap_singleton]
  have hsame : action.batches = [] → env.after [action] = env := by
    intro hnone
    rw [hafter, hnone, List.append_nil]
  have hengine := hahead.codes action List.mem_cons_self
  have hcalm := fun hc : calm => hahead.waits hc action List.mem_cons_self
  cases action with
  | enqueue batches directBlock opens =>
      have hall := hahead.distinct
      rw [List.flatMap_cons, ← List.append_assoc] at hall
      have hdistinct : (env.batches ++ batches).Nodup := (List.nodup_append'.1 hall).1
      have hchunked : ∀ batch ∈ batches, ChunkedBatch batch := fun batch hbatch =>
        hahead.chunked batch (List.mem_append_left _ hbatch)
      rw [hafter]
      unfold Worker.step
      dsimp only
      split
      case isTrue => exact rfl
      case isFalse hrunning =>
        rcases h with hbusy | hended
        · rw [← hbusy.core.enqueued] at hdistinct
          exact (hbusy.enqueue hdistinct hchunked).mono (fun _ => Or.inl) fun _ => False.elim
        · rw [← hended.enqueued] at hdistinct
          have hends : Ends (Ended _ calm) (fun _ => False) (w.enqueue batches directBlock opens) :=
            hended.enqueue (Bool.eq_false_iff.2 hrunning) hdistinct
          exact hends.mono (fun _ => Or.inr) fun _ => False.elim
  | pump answers =>
      rw [hsame rfl]
      rcases h with hbusy | hended
      · exact (hbusy.pump answers).imp fun _ => Or.inl
      · change Ends _ _ (Worker.pump answers w)
        rw [hended.pump]
        exact Or.inr hended
  | drainBatch answer =>
      rw [hsame rfl]
      unfold Worker.step
      dsimp only
      split
      case isTrue => exact rfl
      case isFalse hmay =>
        rcases h with hbusy | hended
        · exact hbusy.drainBatch hengine hcalm
        · exact absurd (Or.inl hended.mayDrain) hmay
  | copyLands done =>
      rw [hsame rfl]
      rcases h with hbusy | hended
      · apply (hbusy.core.copyLands_ends done).imp
        rintro w' ⟨hcore, hwindow⟩
        exact Or.inl ⟨hcore, hwindow ▸ hbusy.window⟩
      · change Ends _ _ (w.copyLands done)
        rw [hended.copyLands]
        exact rfl

end Calls

/-! ## Runs -/

section Runs

variable {env : Setting} {calm : Prop} {w w' : Worker} {strategy : Strategy} {depth block : Nat}
  {measured : Bool} {scratch : List Addr} {actions : List Worker.Action}

/-- A worker whose engine has just come up. -/
theorem busy_start (hdepth : 0 < depth)
    (hscratch : strategy.isDirect = true → scratch.length = depth) :
    Busy { scratch, batches := [] } {} (Worker.start strategy depth block measured scratch) := by
  refine ⟨?_, ?_⟩
  · constructor
    case keys_nodup => exact List.nodup_nil
    case placed => exact List.Perm.refl _
    case issued => rfl
    case copied => rfl
    case quiet => rfl
    case ids_nodup => exact List.nodup_nil
    case enqueued => rfl
    case distinct => exact List.nodup_nil
    case accounts => exact ⟨[], List.Perm.refl _, fun batch hbatch => absurd hbatch List.not_mem_nil⟩
    case strategy =>
      unfold Worker.start
      cases strategy.isDirect <;> rfl
    case pooled =>
      intro p hp
      unfold Worker.start at hp
      cases hdirect : strategy.isDirect with
      | false =>
          rw [hdirect] at hp
          cases hp
      | true =>
          rw [hdirect] at hp
          obtain rfl := Option.some.inj hp
          exact ⟨List.Perm.of_eq (List.append_nil _), hscratch hdirect⟩
    case stocked => rfl
    case lent_nodup => exact List.nodup_nil
    case lent => exact List.Perm.refl _
    case returned => exact List.Perm.refl _
    case opened_nodup => exact List.nodup_nil
    case opened => exact List.Perm.refl _
    all_goals
      intro x
      intros
      contradiction
  · constructor
    case cost =>
      intro e he
      cases he
    case credit => rfl
    case bound => exact Nat.zero_le _
    case capacity => rfl
    case depth_pos => exact hdepth
    case roomy => rfl
    case alive => rfl
    case running => rfl
    case reason => exact ResponseCode.noConfusion

/-- A call that returned. -/
theorem step_of_next {action : Worker.Action} (hnext : Worker.next w action = some w') :
    w.step action = .ok w' := by
  unfold Worker.next at hnext
  cases hcall : w.step action with
  | error stop =>
      rw [hcall] at hnext
      cases hnext
  | ok w₁ =>
      rw [hcall] at hnext
      rw [← Option.some.inj hnext]

/-- A call that returned, in a sound worker. -/
theorem Sound.next {action : Worker.Action} (h : Sound env calm w)
    (hahead : Ahead env calm (action :: actions)) (hnext : Worker.next w action = some w') :
    Sound (env.after [action]) calm w' := by
  have hstep := h.step hahead
  rw [step_of_next hnext] at hstep
  exact hstep

/-- The calls of a run. -/
theorem sound_run (h : Sound env calm w) (hahead : Ahead env calm actions)
    (hrun : run Worker.next w actions = some w') : Sound (env.after actions) calm w' := by
  induction actions generalizing env w with
  | nil =>
      have hsame : env.after [] = env := by
        unfold Setting.after
        rw [List.flatMap_nil, List.append_nil]
      rw [← Option.some.inj hrun, hsame]
      exact h
  | cons action actions ih =>
      rcases run_cons.1 hrun with ⟨w₁, hnext, hrest⟩
      rw [← Setting.after_cons]
      exact ih (h.next hahead hnext) hahead.tail hrest

/-- The batches of the assigner are divided into chunks. -/
theorem chunked_of_agree {heap : List Request} {c : Nat} {batch : Batch}
    (h : ChunksAgree heap c batch) : ChunkedBatch batch := by
  have hle : ∀ chunk ∈ batch.chunks, chunk.firstTask ≤ Chunk.spanEnd chunk :=
    fun chunk _ => Nat.le_add_right _ _
  constructor
  case inside =>
    intro chunk hchunk
    have hspans := h.spans (List.ne_nil_of_mem hchunk)
    exact (hspans.bounds hle hchunk).2
  case apart =>
    by_cases hnone : batch.chunks = []
    · rw [hnone]
      exact List.Pairwise.nil
    · rw [List.pairwise_map]
      apply ((h.spans hnone).pairwise_le hle).imp
      intro x y hxy i hx hy
      have hstop : i < Chunk.spanEnd x := hx.2
      have hstart : y.firstTask ≤ i := hy.1
      omega
  case covers =>
    intro x hx hempty
    have hmem : x.1 ∈ batch.tasks := List.fst_mem_of_mem_zipIdx hx
    have hsome : batch.chunks ≠ [] := by
      intro hnone
      have hzero := h.empty_iff.1 hnone x.1 hmem
      exact of_decide_eq_false hempty hzero
    have hlt := List.snd_lt_add_of_mem_zipIdx hx
    rcases (h.spans hsome).exists_mem (Nat.zero_le x.2) (by omega) with ⟨chunk, hchunk, hlow, hhigh⟩
    exact ⟨chunkSpan chunk, List.mem_map_of_mem hchunk, hlow, hhigh⟩

/-- The batches that are built for a transfer, wherever it lies, are divided into chunks. -/
theorem chunked_of_built {config : Config} {origin : BatchOrigin} {heap : List Request}
    {t : ContiguousTransfer} (h : Sliced t) (hsize : t.size = t.rangeSizes.sum)
    (hoffset : t.offset < 2 ^ 64) (hlt : t.size < 2 ^ 64) {made : List Request × List Batch}
    (hmade : makeBatches config origin t heap = .ok made) {batch : Batch}
    (hbatch : batch ∈ made.2)
    (hstop : batch.stop + config.chunkBytesize origin.isObjectStorage < 2 ^ 64) :
    ChunkedBatch batch := by
  rcases batches_agree config origin heap h hsize hoffset hlt with ⟨s, hagree⟩
  exact chunked_of_agree ((hagree.built made hmade).2.2 batch hbatch hstop)

/-- The only batch that is built for a transfer is divided into chunks. -/
theorem chunked_of_only {config : Config} {origin : BatchOrigin} {t : ContiguousTransfer}
    {batch : Batch} (h : Sliced t) (hsize : t.size = t.rangeSizes.sum) (hoffset : t.offset < 2 ^ 64)
    (hlt : t.size < 2 ^ 64)
    (hbuilt : (makeBatches config origin t []).toOption.map Prod.snd = some [batch])
    (hstop : batch.stop + config.chunkBytesize origin.isObjectStorage < 2 ^ 64) :
    ChunkedBatch batch := by
  cases hmade : makeBatches config origin t [] with
  | error failure =>
      rw [hmade] at hbuilt
      cases hbuilt
  | ok made =>
      rw [hmade] at hbuilt
      have hmem : batch ∈ made.2 := Option.some.inj hbuilt ▸ List.mem_singleton_self _
      exact chunked_of_built h hsize hoffset hlt hmade hmem hstop

/-- What a worker relies on: an engine of some depth, with a scratch buffer for each of its reads;
batches that arrive once and are divided into chunks; and the codes of an engine. -/
structure Workable (strategy : Strategy) (depth : Nat) (scratch : List Addr)
    (actions : List Worker.Action) : Prop where
  depth_pos : 0 < depth
  scratch : strategy.isDirect = true → scratch.length = depth
  distinct : (actions.flatMap Worker.Action.batches).Nodup
  chunked : ∀ batch ∈ actions.flatMap Worker.Action.batches, ChunkedBatch batch
  codes : ∀ action ∈ actions, action.FromEngine

/-- The calls to come of a worker that has not started. -/
theorem Workable.ahead (h : Workable strategy depth scratch actions)
    (hcalm : calm → ∀ action ∈ actions, action.Waits) :
    Ahead { scratch, batches := [] } calm actions :=
  ⟨h.distinct, h.chunked, h.codes, hcalm⟩

/-- A worker that has not started. -/
theorem Workable.start (h : Workable strategy depth scratch actions) :
    Sound { scratch, batches := [] } calm (Worker.start strategy depth block measured scratch) :=
  Or.inl (busy_start h.depth_pos h.scratch)

/-- A run from the start. -/
theorem Workable.sound (h : Workable strategy depth scratch actions)
    (hrun : run Worker.next (Worker.start strategy depth block measured scratch) actions = some w) :
    Sound { scratch, batches := actions.flatMap Worker.Action.batches }
      (∀ action ∈ actions, action.Waits) w :=
  sound_run h.start (h.ahead id) hrun

/-- A shorter run. -/
theorem Workable.left {more : List Worker.Action}
    (h : Workable strategy depth scratch (actions ++ more)) :
    Workable strategy depth scratch actions where
  depth_pos := h.depth_pos
  scratch := h.scratch
  distinct := by
    have hdistinct := h.distinct
    rw [List.flatMap_append] at hdistinct
    exact (List.nodup_append'.1 hdistinct).1
  chunked := by
    intro batch hbatch
    apply h.chunked
    rw [List.flatMap_append]
    exact List.mem_append_left _ hbatch
  codes := fun action haction => h.codes action (List.mem_append_left _ haction)

/-- The calls after a run. -/
theorem Workable.right {more : List Worker.Action}
    (h : Workable strategy depth scratch (actions ++ more))
    (hcalm : calm → ∀ action ∈ more, action.Waits) :
    Ahead { scratch, batches := actions.flatMap Worker.Action.batches } calm more where
  distinct := by
    have hdistinct := h.distinct
    rw [List.flatMap_append] at hdistinct
    exact hdistinct
  chunked := by
    intro batch hbatch
    apply h.chunked
    rw [List.flatMap_append]
    exact List.mem_append_right _ hbatch
  codes := fun action haction => h.codes action (List.mem_append_right _ haction)
  waits := hcalm

/-! A chunk of a host batch is read directly: its head is bounced, and interrupted once. -/

/-- A batch of an empty task and of one that a chunk is read for. -/
def hostBatch (fileIndex : Nat) : Batch :=
  { submissionId := 1, workloadIndex := 0, fileIndex, path := ['a']
    isObjectStorage := false, device := ⟨.cpu, 0⟩
    tasks := [Task.make 0 (TaskInfo.make 2 0 0), Task.make 1 (TaskInfo.make 2 6 0)]
    chunks := [⟨2, 6, 4098, 0, 2⟩], start := 2, stop := 8, unfinished := 0 }

/-- The file is open for direct reads, and the engine takes the read. -/
def directFile : StageAnswer :=
  { acquired := .success, buffer := none, openedDirect := 3, openedBuffered := 4
    staged := .success }

/-- The engine issues one read and hands out completions. -/
def turnOf (waited : ResponseCode) (rounds : List Worker.Round) (harvests : List (Nat × Int)) :
    Worker.Action :=
  .drainBatch
    { stopped := false, landing := [], resumed := [], flushed := ⟨.success, 1, false⟩, waited
      harvests := harvests.map fun harvest =>
        { id := harvest.1, res := harvest.2, restaged := directFile, reopened := -1
          replaced := -1, written := .success }
      aborting := { landing := [], rounds } }

/-- The head is interrupted, and then two of its bytes are wanted; the rest is staged. -/
def headActions : List Worker.Action :=
  [.enqueue [hostBatch 0] 0 fun _ => true, .pump [directFile],
    turnOf .success [] [(1, -eINTR)], turnOf .success [] [(1, 4)]]

/-- The rest arrives. -/
def restTurn : Worker.Action :=
  turnOf .success [] [(1, 4)]

/-- The engine fails, with the rest in the kernel. -/
def failedTurn : Worker.Action :=
  turnOf .fsAsyncEngineError [⟨.success, [1]⟩] []

/-- A workload that arrives later. -/
def lateActions : List Worker.Action :=
  [.enqueue [hostBatch 1] 0 fun _ => true, .pump [directFile]]

/-- A configuration whose chunks have eight bytes. -/
def blockConfig : Config :=
  { tinyConfig with
    fsAsyncChunkBytesize := 8
    fsAsyncChunkBytesize_pos := by decide
    fsAsyncChunkBytesize_lt := by decide }

/-- The transfer that the batch is built for: an empty range and one of six bytes. -/
def hostTransfer (fileIndex : Nat) : ContiguousTransfer :=
  { fileIndex, offset := 2, size := 6, destination := 4098, firstRangeIndex := 0
    rangeSizes := [0, 6], tasks := [⟨0, fileIndex, 2, 6, 4098⟩] }

theorem hostBatch_built : ∀ fileIndex < 2,
    (makeBatches blockConfig ⟨1, fileIndex, ['a'], false, ⟨.cpu, 0⟩⟩ (hostTransfer fileIndex)
      []).toOption.map Prod.snd = some [hostBatch fileIndex] := by
  decide +kernel

theorem hostBatch_chunked {fileIndex : Nat} (h : fileIndex < 2) :
    ChunkedBatch (hostBatch fileIndex) := by
  have hsliced : Sliced (hostTransfer fileIndex) :=
    ⟨⟨_, _, rfl, rfl⟩, rfl, fun _ slice hslice => by
      rw [List.mem_singleton.1 hslice]
      exact Nat.zero_lt_succ 5⟩
  have hoffset : (hostTransfer fileIndex).offset < 2 ^ 64 := by
    change 2 < 2 ^ 64
    decide
  have hlt : (hostTransfer fileIndex).size < 2 ^ 64 := by
    change 6 < 2 ^ 64
    decide
  have hstop : (hostBatch fileIndex).stop + 8 < 2 ^ 64 := by
    change 8 + 8 < 2 ^ 64
    decide
  exact chunked_of_only hsliced rfl hoffset hlt (hostBatch_built fileIndex h) hstop

theorem restActions_workable :
    Workable .libaioDirect 2 [64, 128] (headActions ++ [restTurn]) where
  depth_pos := by decide
  scratch := fun _ => rfl
  distinct := by decide
  chunked := by
    intro batch hbatch
    rw [List.mem_singleton.1 hbatch]
    exact hostBatch_chunked (by decide)
  codes := by decide

theorem failedActions_workable :
    Workable .libaioDirect 2 [64, 128] ((headActions ++ [failedTurn]) ++ lateActions) where
  depth_pos := by decide
  scratch := fun _ => rfl
  distinct := by decide
  chunked := by
    intro batch hbatch
    have hmem : batch = hostBatch 0 ∨ batch = hostBatch 1 := by
      simpa [headActions, failedTurn, lateActions, turnOf, Worker.Action.batches] using hbatch
    rcases hmem with rfl | rfl
    · exact hostBatch_chunked (by decide)
    · exact hostBatch_chunked (by decide)
  codes := by decide

/-- The worker of these runs. -/
def directWorker : Worker :=
  .start .libaioDirect 2 4 true [64, 128]

/-! ## What never happens -/

/-- After any run, the next call fails no assertion and leaves no vector: it returns, unless the
outside would not answer it so. -/
theorem worker_never_fails {action : Worker.Action}
    (h : Workable strategy depth scratch (actions ++ [action]))
    (hrun : run Worker.next (Worker.start strategy depth block measured scratch) actions = some w) :
    ∀ stop, w.step action = .error stop → stop = .refused := by
  intro stop hstop
  have hsound : Sound _ False w := sound_run h.left.start (h.left.ahead False.elim) hrun
  exact (hsound.step (h.right False.elim)).of_error hstop

theorem worker_never_fails_rest : ∃ w, run Worker.next directWorker headActions = some w ∧
    (∀ stop, w.step restTurn = .error stop → stop = .refused) ∧
    (Worker.next w restTurn).isSome = true := by
  have hends : ((run Worker.next directWorker headActions).map fun w =>
      (Worker.next w restTurn).isSome) = some true := by
    decide +kernel
  rcases Option.map_eq_some_iff.1 hends with ⟨w, hrun, hnext⟩
  exact ⟨w, hrun, worker_never_fails restActions_workable hrun, hnext⟩

/-! ## What is conserved -/

/-- The slots, the chunks and the buffers of a worker that is running. -/
structure Conserved (scratch : List Addr) (w : Worker) : Prop where
  /-- A slot is held by a parked chunk or by a read. -/
  slots : w.queue.inflight = w.waiting.length + w.staged.length + w.kernel.length
  bound : w.queue.inflight ≤ w.depth
  issued : w.issued = w.kernel.length
  copied : w.copiesIssued = w.copying.length + w.copies.length
  /-- A chunk is in one place. -/
  places_nodup : w.places.Nodup
  places : w.places.Perm w.chunks.entries.keys
  scratch : ∀ p, w.scratch = some p → (p.free ++ w.heldScratch).Perm scratch
  lent_nodup : w.lent.Nodup
  lent : w.lent.Perm (w.heldStaging ++ w.copying.map IssuedCopy.staging)

/-- Slots, chunks and buffers are conserved. -/
theorem Busy.conserved (h : Busy env {} w) : Conserved env.scratch w where
  slots := by
    have hcredit := h.window.credit
    simp only [List.length_nil, Nat.zero_add, Worker.window] at hcredit
    exact hcredit
  bound := h.window.bound
  issued := by
    have hissued := h.core.issued
    rw [List.length_nil, Nat.zero_add] at hissued
    exact hissued
  copied := h.core.copied
  places_nodup := h.core.placed.symm.nodup h.core.keys_nodup
  places := h.core.placed
  scratch := fun p hp => (h.core.pooled p hp).1
  lent_nodup := h.core.lent_nodup
  lent := h.core.lent

/-- In every run no read is staged when the engine is full, no pass misses a scratch buffer, and
slots, chunks and buffers are conserved until the worker ends. -/
theorem worker_conserves (h : Workable strategy depth scratch actions)
    (hrun : run Worker.next (Worker.start strategy depth block measured scratch) actions = some w) :
    w.crowded = false ∧ w.dry = false ∧
      (w.engineDead = false → w.stopping = false → Conserved scratch w) := by
  rcases h.sound hrun with hbusy | hended
  · exact ⟨hbusy.window.roomy, hbusy.core.stocked, fun _ _ => hbusy.conserved⟩
  · refine ⟨hended.roomy, hended.stocked, fun halive hrunning => ?_⟩
    rcases hended.finished with hdead | hstopping
    · rw [halive] at hdead
      cases hdead
    · rw [hrunning] at hstopping
      cases hstopping

theorem worker_conserves_head : ∃ w, run Worker.next directWorker headActions = some w ∧
    Conserved [64, 128] w ∧ w.queue.inflight = 1 := by
  have hends : ((run Worker.next directWorker headActions).map fun w =>
      (w.engineDead, w.stopping, w.queue.inflight)) = some (false, false, 1) := by
    decide +kernel
  rcases Option.map_eq_some_iff.1 hends with ⟨w, hrun, heq⟩
  simp only [Prod.mk.injEq] at heq
  have hconserves := worker_conserves restActions_workable.left hrun
  exact ⟨w, hrun, hconserves.2.2 heq.1 heq.2.1, heq.2.2⟩

/-! ## What batches are told -/

/-- A batch was not reported yet and has got responses only, or it was reported after them. -/
def Told (w : Worker) (batch : Batch) : Prop :=
  (batch ∈ w.live ∧ ∃ told : List Task, told.Subperm batch.tasks ∧
    about w.answers batch = told.map (Answer.response batch)) ∨
  (batch ∉ w.live ∧ Settled w.answers batch)

/-- The batches of a worker that is running. -/
theorem Busy.told (h : Busy env {} w) {batch : Batch} (hbatch : batch ∈ w.enqueued) :
    Told w batch := by
  rcases h.core.accounts with ⟨settled, hperm, hsettled⟩
  by_cases hlive : batch ∈ w.live
  · left
    rcases List.mem_flatMap.1 hlive with ⟨e, he, hmem⟩
    rcases List.getElem?_of_mem hmem with ⟨i, hi⟩
    have hwl := Table.lookup_of_mem h.core.ids_nodup he
    rcases (h.core.workload _ _ hwl).telling i batch hi with ⟨told, habout, htally⟩
    exact ⟨hlive, told, htally.subperm, habout⟩
  · right
    refine ⟨hlive, hsettled batch ?_⟩
    exact (List.mem_append.1 (hperm.symm.subset hbatch)).resolve_left hlive

/-- A worker that is not drained any more has no workload. -/
theorem Busy.no_workload (h : Busy env {} w) (hover : w.mayDrain = false) : w.workloads = [] := by
  unfold Worker.mayDrain Worker.idle Worker.hasDeferredWork CapacityQueue.idle at hover
  simp only [Bool.or_eq_false_iff, Bool.not_eq_false', Bool.and_eq_true, List.isEmpty_iff,
    Bool.not_eq_true', decide_eq_false_iff_not, beq_iff_eq] at hover
  rcases hover with ⟨⟨hpending, -⟩, ⟨-, hinflight⟩, hcopies, hwaiting⟩
  have hconserved := h.conserved
  have hslots := hconserved.slots
  have hcopied := hconserved.copied
  have hkeys := hconserved.places.length_eq
  unfold Worker.places Worker.engineIds Worker.copyIds at hkeys
  simp only [List.length_append, List.length_map, hpending, hwaiting, List.length_nil] at hkeys
  have hnone : w.chunks.entries = [] := by
    apply List.eq_nil_of_length_eq_zero
    unfold Table.keys at hkeys
    rw [List.length_map] at hkeys
    omega
  rw [List.eq_nil_iff_forall_not_mem]
  intro e he
  have hwl := Table.lookup_of_mem h.core.ids_nodup he
  have hopen := h.core.unfinished _ _ hwl List.not_mem_nil
  rw [(h.core.workload _ _ hwl).remaining] at hopen
  unfold Worker.owners at hopen
  rw [hnone] at hopen
  exact Nat.lt_irrefl _ hopen

/-- In every run every batch is reported once, after its responses, which are of distinct tasks of
it, and with success only when all its tasks have got one.  Nothing else is answered.  When there
is nothing left to drain, every batch was reported. -/
theorem batches_settle_once (h : Workable strategy depth scratch actions)
    (hrun : run Worker.next (Worker.start strategy depth block measured scratch) actions = some w) :
    (∀ batch ∈ actions.flatMap Worker.Action.batches, Told w batch) ∧
      (∀ answer ∈ w.answers,
        answeredBatch answer ∈ actions.flatMap Worker.Action.batches) ∧
      (w.mayDrain = false →
        ∀ batch ∈ actions.flatMap Worker.Action.batches, Settled w.answers batch) := by
  rcases h.sound hrun with hbusy | hended
  · have henqueued : w.enqueued = actions.flatMap Worker.Action.batches := hbusy.core.enqueued
    rw [← henqueued]
    refine ⟨fun batch => hbusy.told, hbusy.core.known, fun hover batch hbatch => ?_⟩
    rcases hbusy.told hbatch with ⟨hlive, -⟩ | ⟨-, hsettled⟩
    · unfold Worker.live at hlive
      rw [hbusy.no_workload hover] at hlive
      cases hlive
    · exact hsettled
  · have henqueued : w.enqueued = actions.flatMap Worker.Action.batches := hended.enqueued
    rw [← henqueued]
    refine ⟨fun batch hbatch => Or.inr ⟨?_, hended.settled batch hbatch⟩, hended.known,
      fun _ => hended.settled⟩
    unfold Worker.live
    rw [hended.workloads]
    exact List.not_mem_nil

theorem batches_settle_once_rest : ∃ w,
    run Worker.next directWorker (headActions ++ [restTurn]) = some w ∧
      Settled w.answers (hostBatch 0) ∧
      w.answers = (hostBatch 0).tasks.map (Answer.response (hostBatch 0)) ++
        [.error (hostBatch 0) .success] := by
  have hends : ((run Worker.next directWorker (headActions ++ [restTurn])).map fun w =>
      (w.mayDrain, w.answers)) =
      some (false, (hostBatch 0).tasks.map (Answer.response (hostBatch 0)) ++
        [.error (hostBatch 0) .success]) := by
    decide +kernel
  rcases Option.map_eq_some_iff.1 hends with ⟨w, hrun, heq⟩
  simp only [Prod.mk.injEq] at heq
  have hsettle := batches_settle_once restActions_workable hrun
  exact ⟨w, hrun, hsettle.2.2 heq.1 _ (by decide), heq.2⟩

/-! ## The end -/

/-- A worker that holds nothing. -/
structure Empty (scratch : List Addr) (w : Worker) : Prop where
  inflight : w.queue.inflight = 0
  issued : w.issued = 0
  forgotten : w.chunks.entries = []
  workloads : w.workloads = []
  copying : w.copying = []
  copies : w.copies = []
  lent : w.lent = []
  opened : w.opened = []
  scratch : ∀ p, w.scratch = some p → p.free.Perm scratch

/-- A worker that was stopped or whose engine has failed has ended. -/
theorem Sound.ended (h : Sound env calm w) (hover : w.engineDead = true ∨ w.stopping = true) :
    Ended env calm w := by
  rcases h with hbusy | hended
  · have halive : w.engineDead = false := hbusy.window.alive
    have hrunning : w.stopping = false := hbusy.window.running
    rw [halive, hrunning] at hover
    rcases hover with h | h <;> cases h
  · exact hended

/-- A call after the end only answers workloads that still arrive. -/
theorem Ended.step_eq {action : Worker.Action} (h : Ended env calm w)
    (hstep : w.step action = .ok w') : ∃ enqueued answers, w' = { w with enqueued, answers } := by
  cases action with
  | enqueue batches directBlock opens =>
      unfold Worker.step at hstep
      dsimp only at hstep
      split at hstep
      case isTrue => cases hstep
      case isFalse hrunning =>
        have hdead : w.engineDead = true := h.finished.resolve_right hrunning
        unfold Worker.enqueue at hstep
        dsimp only at hstep
        rw [if_pos hdead] at hstep
        cases hstep
        exact ⟨_, _, rfl⟩
  | pump answers =>
      have hpump := h.pump answers
      have hsame : w = w' := Except.ok.inj (hpump.symm.trans hstep)
      exact ⟨w.enqueued, w.answers, hsame.symm⟩
  | drainBatch answer =>
      unfold Worker.step at hstep
      dsimp only at hstep
      rw [if_pos (Or.inl h.mayDrain)] at hstep
      cases hstep
  | copyLands done =>
      have hrefused := h.copyLands done
      cases hrefused.symm.trans hstep

/-- Calls after the end only answer workloads that still arrive. -/
theorem Ended.run_eq (h : Ended env calm w) (hahead : Ahead env calm actions)
    (hrun : run Worker.next w actions = some w') :
    ∃ enqueued answers, w' = { w with enqueued, answers } := by
  induction actions generalizing env w with
  | nil => exact ⟨w.enqueued, w.answers, (Option.some.inj hrun).symm⟩
  | cons action actions ih =>
      rcases run_cons.1 hrun with ⟨w₁, hnext, hrest⟩
      rcases h.step_eq (step_of_next hnext) with ⟨enqueued, answers, rfl⟩
      have hended := (Sound.next (Or.inr h) hahead hnext).ended h.finished
      have hlast := ih hended hahead.tail hrest
      exact hlast

/-- When a worker has ended it holds nothing any more and all its batches were reported.  Whatever
is called later opens no file, stages no read and issues none. -/
theorem worker_ends_clean {more : List Worker.Action}
    (h : Workable strategy depth scratch (actions ++ more))
    (hrun : run Worker.next (Worker.start strategy depth block measured scratch) actions = some w)
    (hover : w.engineDead = true ∨ w.stopping = true)
    (hmore : run Worker.next w more = some w') :
    Empty scratch w' ∧ w'.staged = w.staged ∧ w'.kernel = w.kernel ∧
      ∀ batch ∈ (actions ++ more).flatMap Worker.Action.batches, Settled w'.answers batch := by
  have hsound : Sound _ False w := sound_run h.left.start (h.left.ahead False.elim) hrun
  have hahead : Ahead _ False more := h.right False.elim
  have hended := hsound.ended hover
  rcases hended.run_eq hahead hmore with ⟨enqueued, answers, rfl⟩
  have hlast := (sound_run hsound hahead hmore).ended hover
  have henqueued : enqueued = (actions ++ more).flatMap Worker.Action.batches := by
    rw [List.flatMap_append]
    exact hlast.enqueued
  refine ⟨?_, rfl, rfl, fun batch hbatch => hlast.settled batch (henqueued ▸ hbatch)⟩
  exact
    { inflight := hended.inflight
      issued := hended.issued
      forgotten := hended.forgotten
      workloads := hended.workloads
      copying := hended.copying
      copies := hended.copies
      lent := hended.lent
      opened := hended.opened
      scratch := fun p hp => (hended.pooled p hp).1 }

theorem worker_ends_clean_failed : ∃ w w',
    run Worker.next directWorker (headActions ++ [failedTurn]) = some w ∧
      run Worker.next w lateActions = some w' ∧ Empty [64, 128] w' ∧
      Settled w'.answers (hostBatch 1) := by
  have hends : ((run Worker.next directWorker (headActions ++ [failedTurn])).map fun w =>
      (w.engineDead, (run Worker.next w lateActions).isSome)) = some (true, true) := by
    decide +kernel
  rcases Option.map_eq_some_iff.1 hends with ⟨w, hrun, heq⟩
  simp only [Prod.mk.injEq] at heq
  rcases Option.isSome_iff_exists.1 heq.2 with ⟨w', hmore⟩
  have hclean := worker_ends_clean failedActions_workable hrun (Or.inl heq.1) hmore
  exact ⟨w, w', hrun, hmore, hclean.1, hclean.2.2.2 _ (by decide)⟩

/-- When the engine waits for all reads, no workload is reported while a read or a copy of it could
still write to its memory. -/
theorem reports_wait_for_writes (h : Workable strategy depth scratch actions)
    (hcalm : ∀ action ∈ actions, action.Waits)
    (hrun : run Worker.next (Worker.start strategy depth block measured scratch) actions = some w) :
    w.early = [] := by
  rcases h.sound hrun with hbusy | hended
  · exact hbusy.core.quiet
  · exact (hended.quiet hcalm).1

theorem reports_wait_for_writes_failed : ∃ w,
    run Worker.next directWorker (headActions ++ [failedTurn]) = some w ∧ w.early = [] ∧
      w.workloads = [] := by
  have hends : ((run Worker.next directWorker (headActions ++ [failedTurn])).map fun w =>
      w.workloads) = some [] := by
    decide +kernel
  rcases Option.map_eq_some_iff.1 hends with ⟨w, hrun, heq⟩
  have hquiet := reports_wait_for_writes failedActions_workable.left (by decide) hrun
  exact ⟨w, hrun, hquiet, heq⟩

/-! ## Descriptors -/

/-- A read names the open descriptor of the batch that its chunk belongs to, and no other batch has
this descriptor. -/
structure OwnFile (w : Worker) (read : EngineRead) (entry : InflightChunk) : Prop where
  found : w.chunks.find read.id = some entry
  routes : w.Routes entry.owner
  opened : read.file.fd ∈ w.opened
  own : (w.fileAt entry.workloadId entry.batchIndex).map BatchFd.fd = some read.file.fd
  unique : ∀ workloadId batchIndex file, w.fileAt workloadId batchIndex = some file →
    file.fd = read.file.fd → workloadId = entry.workloadId ∧ batchIndex = entry.batchIndex

/-- The descriptor of a file that is open. -/
theorem mem_descriptor {file : BatchFd} (hopen : 0 ≤ file.fd) : file.fd ∈ file.descriptor := by
  unfold BatchFd.descriptor
  rw [if_pos hopen]
  exact List.mem_cons_self

/-- The descriptor of a file in use is open. -/
theorem Core.mem_opened {hand : Hand} {workloadId batchIndex : Nat} {file : BatchFd}
    (h : Core env hand w) (hfile : w.fileAt workloadId batchIndex = some file)
    (hopen : 0 ≤ file.fd) : file.fd ∈ w.opened := by
  rcases Option.bind_eq_some_iff.1 hfile with ⟨wl, hwl, hget⟩
  apply h.opened.symm.subset
  refine List.mem_flatMap.2 ⟨_, Table.mem_of_lookup hwl, ?_⟩
  exact List.mem_flatMap.2 ⟨file, List.mem_of_getElem? hget, mem_descriptor hopen⟩

/-- A descriptor is open for one batch. -/
theorem Core.file_unique {hand : Hand} {id₁ id₂ i₁ i₂ : Nat} {file₁ file₂ : BatchFd}
    (h : Core env hand w) (hfile₁ : w.fileAt id₁ i₁ = some file₁)
    (hfile₂ : w.fileAt id₂ i₂ = some file₂) (hsame : file₁.fd = file₂.fd) (hopen : 0 ≤ file₂.fd) :
    id₁ = id₂ ∧ i₁ = i₂ := by
  rcases Option.bind_eq_some_iff.1 hfile₁ with ⟨wl₁, hwl₁, hget₁⟩
  rcases Option.bind_eq_some_iff.1 hfile₂ with ⟨wl₂, hwl₂, hget₂⟩
  have hmem₂ := mem_descriptor hopen
  have hmem₁ : file₂.fd ∈ file₁.descriptor := hsame ▸ mem_descriptor (hsame ▸ hopen)
  have hnodup := h.opened.nodup h.opened_nodup
  unfold Worker.descriptors at hnodup
  rw [List.nodup_flatMap] at hnodup
  have hids : id₁ = id₂ := by
    by_contra hne
    have hflip : Std.Symm (Function.onFun List.Disjoint fun e : Nat × Inflight => e.2.descriptors) :=
      ⟨fun _ _ hdisjoint _ hfirst hsecond => hdisjoint hsecond hfirst⟩
    have hpair := hnodup.2.forall (Table.mem_of_lookup hwl₁) (Table.mem_of_lookup hwl₂)
      fun heq => hne (congrArg Prod.fst heq)
    exact hpair (List.mem_flatMap.2 ⟨file₁, List.mem_of_getElem? hget₁, hmem₁⟩)
      (List.mem_flatMap.2 ⟨file₂, List.mem_of_getElem? hget₂, hmem₂⟩)
  subst hids
  rw [hwl₁] at hwl₂
  obtain rfl := Option.some.inj hwl₂
  refine ⟨rfl, ?_⟩
  have hfds : wl₁.descriptors.Nodup := hnodup.1 _ (Table.mem_of_lookup hwl₁)
  unfold Inflight.descriptors at hfds
  have hapart := List.pairwise_iff_getElem.1 (List.nodup_flatMap.1 hfds).2
  rcases List.getElem?_eq_some_iff.1 hget₁ with ⟨hlt₁, rfl⟩
  rcases List.getElem?_eq_some_iff.1 hget₂ with ⟨hlt₂, rfl⟩
  rcases Nat.lt_trichotomy i₁ i₂ with hlt | heq | hgt
  · exact absurd hmem₂ (hapart i₁ i₂ hlt₁ hlt₂ hlt hmem₁)
  · exact heq
  · exact absurd hmem₁ (hapart i₂ i₁ hlt₂ hlt₁ hgt hmem₂)

/-- In every run, every read that is staged or with the kernel is a read of the file of its own
batch, until the worker ends. -/
theorem reads_own_file (h : Workable strategy depth scratch actions)
    (hrun : run Worker.next (Worker.start strategy depth block measured scratch) actions = some w)
    (halive : w.engineDead = false) (hrunning : w.stopping = false) :
    w.opened.Nodup ∧ ∀ read ∈ w.staged ++ w.kernel, ∃ entry, OwnFile w read entry := by
  rcases h.sound hrun with hbusy | hended
  · refine ⟨hbusy.core.opened_nodup, fun read hread => ?_⟩
    rcases hbusy.core.reads read hread with ⟨entry, file, hfind, hfile, hopen, hfd⟩
    exact
      ⟨entry,
        { found := hfind
          routes := hbusy.core.owned _ (owner_mem hfind)
          opened := hfd ▸ hbusy.core.mem_opened hfile hopen
          own := by
            rw [hfile, hfd]
            rfl
          unique := fun workloadId batchIndex other hother heq =>
            hbusy.core.file_unique hother hfile (heq.trans hfd) hopen }⟩
  · rcases hended.finished with hdead | hstopping
    · rw [halive] at hdead
      cases hdead
    · rw [hrunning] at hstopping
      cases hstopping

theorem reads_own_file_head : ∃ w, run Worker.next directWorker headActions = some w ∧
    w.opened = [3] ∧ (w.staged ++ w.kernel).length = 1 ∧
    ∀ read ∈ w.staged ++ w.kernel, ∃ entry, OwnFile w read entry := by
  have hends : ((run Worker.next directWorker headActions).map fun w =>
      (w.engineDead, w.stopping, w.opened, (w.staged ++ w.kernel).length)) =
      some (false, false, [3], 1) := by
    decide +kernel
  rcases Option.map_eq_some_iff.1 hends with ⟨w, hrun, heq⟩
  simp only [Prod.mk.injEq] at heq
  have hreads := reads_own_file restActions_workable.left hrun heq.1 heq.2.1
  exact ⟨w, hrun, heq.2.2.1, heq.2.2.2, hreads.2⟩

end Runs

end AsyncIo
end ModelStreamer
