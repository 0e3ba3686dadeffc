import ModelStreamer.Streamer.AsyncRequest
import ModelStreamer.Streamer.OneResponse
import ModelStreamer.Streamer.PrematureResponse
import ModelStreamer.Streamer.Registry
import ModelStreamer.Streamer.WrappedRanges

/-!
# Wrapping ranges are refused before the commit

A request with a range that ends past the largest {lit}`size_t`, or with more bytes than one
can count, is refused: while it is coalesced, or by the constructor of a batch.  Both come
before the commit, so the call leaves behind no more than the next id and the plugin.

Main results:

- Theorem {lit}`build_refuses`: a request that wraps is not built.
- Theorem {lit}`run_setNextId`: the next id changes nothing for what is in flight.
- Theorem {lit}`wrapping_refused`: how {lit}`async_request` ends, and what it leaves.
- Theorem {lit}`fitting_refused_longRange`: a range of 4 GiB and one byte is refused as well.
-/

namespace ModelStreamer
namespace Streamer

open Common Lib

/-! ## The division -/

/-- The division of a request whose ranges may wrap. -/
structure AssignedWords (request : List FileRanges) (a : Assigner) : Prop where
  file : ∀ t ∈ a.transfers, ∃ file, request[t.fileIndex]? = some file
  offset_lt : ∀ t ∈ a.transfers, t.offset < 2 ^ 64
  size_lt : ∀ t ∈ a.transfers, t.size < 2 ^ 64
  size_eq : ∀ t ∈ a.transfers, t.size = t.rangeSizes.sum
  sliced : ∀ t ∈ a.transfers, Sliced t
  count_le : ∀ t ∈ a.transfers, t.rangeSizes.length ≤ totalRanges request
  wraps : ∀ placed ∈ placedFiles 0 request, placed.range.Wraps →
    ∃ t ∈ a.transfers, 2 ^ 64 ≤ t.offset + t.size

/-- The constructor of {lit}`Assigner` fails exactly when the bytes cannot be counted. -/
theorem makeAssigner_words (config : Config) (groupByFile : List Int32)
    {request : List FileRanges} (hwords : RequestWords request) :
    if totalSize (placedFiles 0 request) < 2 ^ 64 then
      ∃ a, makeAssigner request config groupByFile = .ok a ∧ AssignedWords request a
    else makeAssigner request config groupByFile =
      .error (.exception .invalidParameterError) := by
  have hcoalesce := coalesce_words hwords
  unfold makeAssigner
  by_cases htotal : totalSize (placedFiles 0 request) < 2 ^ 64
  · rw [if_pos htotal] at hcoalesce ⊢
    obtain ⟨c, hc, hinv⟩ := hcoalesce
    by_cases hempty : request = []
    · subst hempty
      exact ⟨_, rfl, by simp, by simp, by simp, by simp, by simp, by simp,
        by simp [placedFiles]⟩
    · simp only [if_neg hempty, hc, bind, Except.bind]
      by_cases hnil : c.transfers = []
      · refine ⟨_, if_pos hnil, by simp, by simp, by simp, by simp, by simp, by simp, ?_⟩
        intro placed hplaced hwraps
        obtain ⟨t, ht, -⟩ := hinv.wraps placed hplaced hwraps
        simp [hnil] at ht
      · rw [if_neg hnil]
        have hlt := hinv.total_lt
        obtain ⟨a, ha, hcore, hsliced⟩ :=
          assign_anywhere (config.blockBytesize (checkObjectStorage request)) groupByFile
            (config.numWorkers_le (checkObjectStorage request))
            (config.numWorkers_pos (checkObjectStorage request))
            (fun t ht => (hinv.loose t ht).tasks_eq) (fun t ht => (hinv.loose t ht).offset_lt)
            hinv.sum_eq hlt
        have hbefore : ∀ t ∈ a.transfers, ∃ t₀ ∈ c.transfers, t.core = t₀.core :=
          fun t ht => exists_before hcore ht
        have hsizes : ∀ t ∈ c.transfers, t.size < 2 ^ 64 := by
          intro t ht
          have hle : t.size ≤ (c.transfers.map ContiguousTransfer.size).sum :=
            List.le_sum_of_mem (List.mem_map_of_mem ht)
          rw [← hinv.sum_eq] at hle
          omega
        refine ⟨a, ha, fun t ht => ?_, fun t ht => ?_, fun t ht => ?_, fun t ht => ?_, hsliced,
          fun t ht => ?_, fun placed hplaced hwraps => ?_⟩
        · obtain ⟨t₀, ht₀, heq⟩ := hbefore t ht
          have hfile : t.fileIndex = t₀.fileIndex := by
            have h := congrArg ContiguousTransfer.fileIndex heq
            exact h
          exact ⟨_, List.getElem?_eq_getElem (hfile ▸ (hinv.loose t₀ ht₀).file_lt)⟩
        · obtain ⟨t₀, ht₀, heq⟩ := hbefore t ht
          obtain ⟨hoffset, -, -⟩ := eq_of_core_eq heq
          exact hoffset ▸ (hinv.loose t₀ ht₀).offset_lt
        · obtain ⟨t₀, ht₀, heq⟩ := hbefore t ht
          obtain ⟨-, hsize, -⟩ := eq_of_core_eq heq
          exact hsize ▸ hsizes t₀ ht₀
        · obtain ⟨t₀, ht₀, heq⟩ := hbefore t ht
          obtain ⟨-, hsize, hranges⟩ := eq_of_core_eq heq
          rw [hsize, hranges]
          exact (hinv.loose t₀ ht₀).size_eq
        · obtain ⟨t₀, ht₀, heq⟩ := hbefore t ht
          obtain ⟨-, -, hranges⟩ := eq_of_core_eq heq
          rw [hranges, ← length_placedFiles 0 request, ← hinv.count_eq]
          exact List.le_sum_of_mem
            (List.mem_map_of_mem (f := fun t : ContiguousTransfer => t.rangeSizes.length) ht₀)
        · obtain ⟨t₀, ht₀, hover⟩ := hinv.wraps placed hplaced hwraps
          obtain ⟨t, ht, heq⟩ := exists_before hcore.symm ht₀
          obtain ⟨hoffset, hsize, -⟩ := eq_of_core_eq heq
          exact ⟨t, ht, by omega⟩
  · rw [if_neg htotal] at hcoalesce ⊢
    have hne : request ≠ [] := by
      rintro rfl
      exact htotal (by decide)
    simp only [if_neg hne, hcoalesce, bind, Except.bind]

/-! ## The build -/

/-- A build that succeeds built the batches of every transfer. -/
theorem batchesOf_of_buildWorkloads {config : Config} {submissionId : Nat} {device : Device}
    {request : List FileRanges} {transfers : List ContiguousTransfer} {heap : List Request}
    {workloads : List Workload} {built : List Request × List Workload}
    (h : buildWorkloads config submissionId device request transfers heap workloads = .ok built)
    {t : ContiguousTransfer} (ht : t ∈ transfers) :
    ∃ heap r, batchesOf config submissionId device request t heap = .ok r := by
  induction transfers generalizing heap workloads with
  | nil => cases ht
  | cons t' ts ih =>
      simp only [buildWorkloads, bind, Except.bind] at h
      split at h
      · cases h
      · rename_i r hr
        split at h
        · cases h
        · rcases List.mem_cons.1 ht with rfl | hmem
          · exact ⟨heap, r, hr⟩
          · exact ih h hmem

/-- The request has a range that wraps, or more bytes than can be counted. -/
def RequestWraps (request : List FileRanges) : Prop :=
  2 ^ 64 ≤ totalSize (placedFiles 0 request) ∨
    ∃ file ∈ request, ∃ range ∈ file.ranges, 0 < range.size ∧ range.Wraps

/-- A request that wraps is not built. -/
theorem build_refuses (config : Config) (router : Router) (device : Device)
    {request : List FileRanges} (hwords : RequestWords request) (hwraps : RequestWraps request)
    (id : Nat) : ∃ failure, build config router device request id = .error failure := by
  have hassigner := makeAssigner_words config (router.groupsFor request device) hwords
  by_cases htotal : totalSize (placedFiles 0 request) < 2 ^ 64
  · rw [if_pos htotal] at hassigner
    obtain ⟨a, ha, hassigned⟩ := hassigner
    obtain hover | ⟨file, hfile, range, hrange, -, hwraps⟩ := hwraps
    · omega
    obtain ⟨k, hk⟩ := List.mem_iff_getElem?.1 hfile
    obtain ⟨i, hi⟩ := List.mem_iff_getElem?.1 hrange
    have hplaced : ⟨k, i, range⟩ ∈ placedFiles 0 request :=
      mem_placedFiles.2 ⟨Nat.zero_le _, file, by simpa using hk, hi⟩
    obtain ⟨t, ht, hover⟩ := hassigned.wraps _ hplaced hwraps
    simp only [build, ha, bind, Except.bind]
    cases hbuilt : buildWorkloads config id device request a.transfers []
        (List.replicate a.numWorkloads .empty) with
    | error failure => exact ⟨failure, rfl⟩
    | ok built =>
        obtain ⟨heap, r, hr⟩ := batchesOf_of_buildWorkloads hbuilt ht
        obtain ⟨f, hf⟩ := hassigned.file t ht
        obtain ⟨failure, hfail⟩ := makeBatches_refuses config (originOf id device t f) heap
          (hassigned.sliced t ht) (hassigned.size_eq t ht) (hassigned.offset_lt t ht)
          (hassigned.size_lt t ht) hover
        simp only [batchesOf, hf, hfail] at hr
        cases hr
  · rw [if_neg htotal] at hassigner
    simp only [build, hassigner, bind, Except.bind]
    exact ⟨_, rfl⟩

/--
The loops of the build end.  The division refuses a request whose bytes cannot be counted
and divides every other one, and the ranges of every transfer are cut to the end.
-/
def LoopsEnd (config : Config) (router : Router) (device : Device)
    (request : List FileRanges) : Prop :=
  if totalSize (placedFiles 0 request) < 2 ^ 64 then
    ∃ a, makeAssigner request config (router.groupsFor request device) = .ok a ∧
      ∀ t ∈ a.transfers, ∃ file, request[t.fileIndex]? = some file ∧ ∀ heap, ∃ s,
        cutTransfer (config.chunkBytesize (StorageUri.parse file.path).isSome) t.fileIndex t
          heap = .ok s
  else
    makeAssigner request config (router.groupsFor request device) =
      .error (.exception .invalidParameterError)

theorem loopsEnd (config : Config) (router : Router) (device : Device)
    {request : List FileRanges} (hwords : RequestWords request) :
    LoopsEnd config router device request := by
  have hassigner := makeAssigner_words config (router.groupsFor request device) hwords
  unfold LoopsEnd
  split
  · rename_i htotal
    rw [if_pos htotal] at hassigner
    obtain ⟨a, ha, hassigned⟩ := hassigner
    refine ⟨a, ha, fun t ht => ?_⟩
    obtain ⟨file, hfile⟩ := hassigned.file t ht
    refine ⟨file, hfile, fun heap => ?_⟩
    obtain ⟨s, -, hs, -⟩ := cutTransfer_words (config.chunkBytesize_pos _) t.fileIndex heap
      (hassigned.sliced t ht) (hassigned.size_eq t ht) (hassigned.offset_lt t ht)
      (hassigned.size_lt t ht)
    exact ⟨s, hs⟩
  · rename_i htotal
    rwa [if_neg htotal] at hassigner

theorem placeBatches_terminates (batches : List Batch) (workloads : List Workload) :
    Terminates (placeBatches batches workloads) := by
  induction batches generalizing workloads with
  | nil => exact terminates_ok _
  | cons batch batches ih =>
      refine Terminates.bind ?_ fun workloads _ => ih workloads
      unfold placeBatch
      split
      · exact terminates_ok _
      · split
        · exact terminates_assertion
        · split <;> simp

theorem buildWorkloads_terminates (config : Config) (submissionId : Nat) (device : Device)
    (request : List FileRanges) (transfers : List ContiguousTransfer) {heap : List Request}
    {workloads : List Workload}
    (h : ∀ t ∈ transfers, ∀ origin heap, Terminates (makeBatches config origin t heap)) :
    Terminates (buildWorkloads config submissionId device request transfers heap workloads) := by
  induction transfers generalizing heap workloads with
  | nil => exact terminates_ok _
  | cons t ts ih =>
      refine Terminates.bind ?_ fun made _ => ?_
      · unfold batchesOf
        split
        · exact h t (by simp) _ heap
        · exact terminates_assertion
      · exact (placeBatches_terminates made.2 workloads).bind fun _ _ =>
          ih fun u hu => h u (by simp [hu])

/-- The build of a request with fewer than {lit}`2 ^ 32` ranges comes to an end. -/
theorem build_terminates (config : Config) (router : Router) (device : Device)
    {request : List FileRanges} (hwords : RequestWords request)
    (hcount : totalRanges request < 2 ^ 32) (id : Nat) :
    Terminates (build config router device request id) := by
  have hassigner := makeAssigner_words config (router.groupsFor request device) hwords
  unfold build
  split at hassigner
  · obtain ⟨a, ha, hassigned⟩ := hassigner
    refine Terminates.bind (ha ▸ terminates_ok a) fun a' ha' => ?_
    obtain rfl := Except.ok.inj (ha.symm.trans ha')
    refine Terminates.bind ?_ fun _ _ => terminates_pure _
    refine buildWorkloads_terminates config id device request a.transfers fun t ht origin heap => ?_
    have hle := hassigned.count_le t ht
    exact makeBatches_terminates config origin heap (hassigned.sliced t ht)
      (hassigned.size_eq t ht) (hassigned.offset_lt t ht) (hassigned.size_lt t ht) (by omega)
  · rw [hassigner]
    exact terminates_exception _

/-- No batch of the request gets more tasks than the index of its chunks can count. -/
def SlicesCountable (config : Config) (router : Router) (device : Device)
    (request : List FileRanges) : Prop :=
  ∀ a heap slices, makeAssigner request config (router.groupsFor request device) = .ok a →
    cutTransfers config request a.transfers [] = .ok (heap, slices) → Countable slices

/-- A request that fits, of one backend, is built exactly when its batches can be counted. -/
theorem build_fits (config : Config) (router : Router) (device : Device)
    {request : List FileRanges} (hfits : RequestFits request) {plugin : Option Plugin}
    (hlock : lockObjectPlugin request = .ok plugin) (id : Nat) :
    (∃ built, build config router device request id = .ok built ∧ built.id = id) ↔
      SlicesCountable config router device request := by
  obtain ⟨a, heap, slices, ha, hcut, hcountable, hbuild⟩ :=
    workloads_of_submission config (router.groupsFor request device) id device hfits hlock
  constructor
  · rintro ⟨built, hbuilt, -⟩ a' heap' slices' ha' hcut'
    obtain rfl := Except.ok.inj (ha.symm.trans ha')
    obtain ⟨rfl, rfl⟩ := Prod.mk.inj (Except.ok.inj (hcut.symm.trans hcut'))
    simp only [build, ha, bind, Except.bind] at hbuilt
    split at hbuilt
    · cases hbuilt
    · rename_i made hmade
      exact hcountable made hmade
  · intro hcount
    obtain ⟨workloads, -, hworkloads, -⟩ := hbuild (hcount a heap slices ha hcut)
    simp only [build, ha, hworkloads, bind, Except.bind]
    exact ⟨_, rfl, rfl⟩

/-! ## What is in flight -/

/-- The accounting with another id to mint next. -/
def Accounting.setNextId (s : Accounting) (nextId : Nat) : Accounting :=
  { s with registry := { s.registry with nextId } }

/-- A step that does not submit: a worker answers, or the caller asks. -/
def Answering : AccountingAction → Prop
  | .submit _ => False
  | _ => True

theorem consume_setNextId (m : SubmissionsMgr) (n id : Nat) :
    SubmissionsMgr.consume { m with nextId := n } id =
      (m.consume id).map fun r => (r.1, { r.2 with nextId := n }) := by
  unfold SubmissionsMgr.consume
  cases m.submissions.lookup id with
  | none => rfl
  | some remaining =>
      simp only
      split <;> rfl

/-- The next id is not looked at. -/
theorem accountingStep_setNextId (s : Accounting) (n : Nat) {action : AccountingAction}
    (h : Answering action) :
    accountingStep (s.setNextId n) action =
      (accountingStep s action).map fun s' => s'.setNextId n := by
  cases action with
  | submit request => exact h.elim
  | answer ticket outcome =>
      simp only [accountingStep, answerStep, Accounting.setNextId]
      cases s.accepted[ticket.submission]? with
      | none => rfl
      | some sub =>
          cases outcome.code with
          | none => rfl
          | some code =>
              simp only
              cases (placedFiles 0 sub.request)[ticket.range]? with
              | none => rfl
              | some placed =>
                  by_cases hanswered : ticket ∈ s.answered
                  · simp only [if_pos hanswered, Option.map_none]
                    exact if_pos hanswered
                  · simp only [if_neg hanswered, Option.map_some]
                    exact if_neg hanswered
  | respond timeoutMs =>
      simp only [accountingStep, respondStep, response, Accounting.setNextId]
      cases s.responder.pop timeoutMs with
      | none => rfl
      | some popped =>
          obtain ⟨popped, responder⟩ := popped
          simp only [Option.map_some]
          by_cases hsentinel : IsSentinel (poppedRet popped)
          · simp only [if_pos hsentinel, Option.map_some, deliver]
          · simp only [if_neg hsentinel, consume_setNextId]
            cases s.registry.consume (poppedId popped) with
            | error failure => rfl
            | ok r => rfl

/-- What is in flight is answered in the same way, whatever id comes next. -/
theorem run_setNextId (n : Nat) {actions : List AccountingAction} (s : Accounting)
    (h : ∀ action ∈ actions, Answering action) :
    run accountingStep (s.setNextId n) actions =
      (run accountingStep s actions).map fun s' => s'.setNextId n := by
  induction actions generalizing s with
  | nil => rfl
  | cons action actions ih =>
      rw [run, run, accountingStep_setNextId s n (h action (by simp))]
      cases accountingStep s action with
      | none => rfl
      | some s₁ => exact ih s₁ fun a ha => h a (by simp [ha])

/-! ## The call -/

/-- The call left nothing behind: at most an id was used up, and the plugin locked. -/
structure Untouched (s s' : StreamerState) : Prop where
  accounting : ∃ nextId, s'.accounting = s.accounting.setNextId nextId
  committed : s'.committed = s.committed

theorem Untouched.registered {s s' : StreamerState} (h : Untouched s s') :
    s'.accounting.registry.submissions = s.accounting.registry.submissions ∧
      s'.accounting.responder = s.accounting.responder := by
  obtain ⟨n, hn⟩ := h.accounting
  rw [hn]
  exact ⟨rfl, rfl⟩

theorem lockFor_eq {request : List FileRanges} {s s' : StreamerState}
    (h : lockFor request s = .ok s') :
    (∃ plugin, lockObjectPlugin request = .ok plugin) ∧
      s'.accounting = s.accounting ∧ s'.committed = s.committed := by
  simp only [lockFor, bind, Except.bind] at h
  split at h
  · cases h
  · cases hlock : lockObjectPlugin request with
    | error code => simp [hlock, Except.mapError] at h
    | ok plugin =>
        simp only [hlock, Except.mapError] at h
        refine ⟨⟨plugin, rfl⟩, ?_⟩
        cases plugin with
        | none =>
            cases h
            exact ⟨rfl, rfl⟩
        | some plugin =>
            simp only [StreamerState.lockPlugin] at h
            split at h
            · cases h
              exact ⟨rfl, rfl⟩
            · split at h
              · cases h
                exact ⟨rfl, rfl⟩
              · cases h

/-- The id that is minted is not registered, and minting changes the next id only. -/
theorem generate_setNextId {s : Accounting} {id : Nat} {registry : SubmissionsMgr}
    (h : s.registry.generate = some (id, registry)) :
    ∃ n, registry = { s.registry with nextId := n } := by
  obtain ⟨⟨i, next⟩, -, heq⟩ := Option.map_eq_some_iff.1 h
  simp only [Prod.mk.injEq] at heq
  exact ⟨next, heq.2.symm⟩

/-- How a call ends, and in which state. -/
inductive Ends (config : Config) (router : Router) (device : Device)
    (request : List FileRanges) (s : StreamerState) : Except Failure Unit → StreamerState → Prop
  | notLocked {failure : Failure} (hlock : lockFor request s = .error failure) :
      Ends config router device request s (.error failure) s
  | notAdmitted {failure : Failure} {s₁ : StreamerState} (hlock : lockFor request s = .ok s₁)
      (hadmission : admission router request = .error failure) :
      Ends config router device request s (.error failure) s₁
  | nothing {s₁ : StreamerState} {id : Nat} {registry : SubmissionsMgr}
      (hlock : lockFor request s = .ok s₁) (hadmission : admission router request = .ok ())
      (hmint : s₁.accounting.registry.generate = some (id, registry))
      (hzero : totalRanges request = 0) :
      Ends config router device request s (.ok ()) (s₁.setRegistry registry)
  | notBuilt {failure : Failure} {s₁ : StreamerState} {id : Nat} {registry : SubmissionsMgr}
      (hlock : lockFor request s = .ok s₁) (hadmission : admission router request = .ok ())
      (hmint : s₁.accounting.registry.generate = some (id, registry))
      (hbuild : build config router device request id = .error failure) :
      Ends config router device request s (.error failure) (s₁.setRegistry registry)
  | notCommitted {failure : Failure} {s₁ : StreamerState} {id : Nat}
      {registry : SubmissionsMgr} {built : Committed} (hlock : lockFor request s = .ok s₁)
      (hadmission : admission router request = .ok ())
      (hmint : s₁.accounting.registry.generate = some (id, registry))
      (hbuild : build config router device request id = .ok built)
      (hcommit : (s₁.setRegistry registry).commit request built = .error failure) :
      Ends config router device request s (.error failure) (s₁.setRegistry registry)
  | committed {s₁ s₂ : StreamerState} {id : Nat} {registry : SubmissionsMgr}
      {built : Committed} (hlock : lockFor request s = .ok s₁)
      (hadmission : admission router request = .ok ())
      (hmint : s₁.accounting.registry.generate = some (id, registry))
      (hbuild : build config router device request id = .ok built)
      (hcommit : (s₁.setRegistry registry).commit request built = .ok s₂) :
      Ends config router device request s (.ok ()) s₂

section Call

variable {config : Config} {router : Router} {device : Device} {request : List FileRanges}
  {s s' : StreamerState} {ended : Except Failure Unit}

theorem asyncRequest_ends (h : asyncRequest config router device request s = some (ended, s')) :
    Ends config router device request s ended s' := by
  unfold asyncRequest at h
  cases hlock : lockFor request s with
  | error failure =>
      simp only [hlock, Option.some.injEq, Prod.mk.injEq] at h
      obtain ⟨rfl, rfl⟩ := h
      exact .notLocked hlock
  | ok s₁ =>
      simp only [hlock] at h
      cases hadmission : admission router request with
      | error failure =>
          simp only [hadmission, Option.some.injEq, Prod.mk.injEq] at h
          obtain ⟨rfl, rfl⟩ := h
          exact .notAdmitted hlock hadmission
      | ok u =>
          simp only [hadmission, StreamerState.submit] at h
          cases hmint : s₁.accounting.registry.generate with
          | none => simp [hmint] at h
          | some minted =>
              obtain ⟨id, registry⟩ := minted
              simp only [hmint] at h
              by_cases hzero : totalRanges request = 0
              · simp only [if_pos hzero, Option.some.injEq, Prod.mk.injEq] at h
                obtain ⟨rfl, rfl⟩ := h
                exact .nothing hlock hadmission hmint hzero
              · simp only [if_neg hzero] at h
                cases hbuild : build config router device request id with
                | error failure =>
                    simp only [hbuild, Option.some.injEq, Prod.mk.injEq] at h
                    obtain ⟨rfl, rfl⟩ := h
                    exact .notBuilt hlock hadmission hmint hbuild
                | ok built =>
                    simp only [hbuild] at h
                    cases hcommit : (s₁.setRegistry registry).commit request built with
                    | error failure =>
                        simp only [hcommit, Option.some.injEq, Prod.mk.injEq] at h
                        obtain ⟨rfl, rfl⟩ := h
                        exact .notCommitted hlock hadmission hmint hbuild hcommit
                    | ok s₂ =>
                        simp only [hcommit, Option.some.injEq, Prod.mk.injEq] at h
                        obtain ⟨rfl, rfl⟩ := h
                        exact .committed hlock hadmission hmint hbuild hcommit

/-- A request that wraps has ranges. -/
theorem RequestWraps.totalRanges_pos (h : RequestWraps request) : 0 < totalRanges request := by
  rw [← length_placedFiles 0 request, List.length_pos_iff]
  intro hnil
  rcases h with htotal | ⟨file, hfile, range, hrange, -, -⟩
  · rw [hnil, totalSize_nil] at htotal
    omega
  · obtain ⟨k, hk⟩ := List.mem_iff_getElem?.1 hfile
    obtain ⟨i, hi⟩ := List.mem_iff_getElem?.1 hrange
    have hplaced : ⟨k, i, range⟩ ∈ placedFiles 0 request :=
      mem_placedFiles.2 ⟨Nat.zero_le _, file, by simpa using hk, hi⟩
    rw [hnil] at hplaced
    cases hplaced

theorem lockFor_terminates : Terminates (lockFor request s) := by
  refine Terminates.bind ?_ fun _ _ => Terminates.bind ?_ fun plugin _ => ?_
  · unfold verifyRequests
    split <;> simp
  · cases lockObjectPlugin request <;> simp [Except.mapError]
  · unfold StreamerState.lockPlugin
    split
    · exact terminates_ok _
    · split
      · exact terminates_ok _
      · split <;> simp

theorem admission_terminates : Terminates (admission router request) := by
  unfold admission
  split
  · exact terminates_exception _
  · split <;> simp

/-- Only a request with fewer than {lit}`2 ^ 32` ranges is admitted. -/
theorem totalRanges_lt_of_admission (h : admission router request = .ok ()) :
    totalRanges request < 2 ^ 32 := by
  unfold admission at h
  split at h
  · cases h
  · omega

/-- An id that was minted can be registered. -/
theorem commit_isOk (request : List FileRanges) {s₁ : StreamerState} {id : Nat}
    {registry : SubmissionsMgr} {built : Committed}
    (hmint : s₁.accounting.registry.generate = some (id, registry)) (hid : built.id = id) :
    ∃ s₂, (s₁.setRegistry registry).commit request built = .ok s₂ := by
  obtain ⟨hfresh, hsame⟩ := SubmissionsMgr.generate_fresh hmint
  have hadd := SubmissionsMgr.add_eq (m := (s₁.setRegistry registry).accounting.registry)
    (hsame ▸ hid ▸ hfresh : built.id ∉ registry.submissions) (totalRanges request)
  simp only [StreamerState.commit, hadd, bind, Except.bind]
  exact ⟨_, rfl⟩

/-- A request that is built was given the id of the call. -/
theorem id_of_build {id : Nat} {built : Committed}
    (h : build config router device request id = .ok built) : built.id = id := by
  simp only [build, bind, Except.bind] at h
  split at h
  · cases h
  · split at h
    · cases h
    · cases h
      rfl

/-- A call with a request that wraps fails and leaves nothing behind. -/
theorem Ends.refused (h : Ends config router device request s ended s')
    (hwords : RequestWords request) (hwraps : RequestWraps request) :
    (∃ failure, ended = .error failure ∧ failure ≠ .endless) ∧ Untouched s s' := by
  cases h with
  | notLocked hlock =>
      exact ⟨⟨_, rfl, (hlock ▸ lockFor_terminates).failure_ne⟩,
        ⟨s.accounting.registry.nextId, rfl⟩, rfl⟩
  | notAdmitted hlock hadmission =>
      obtain ⟨-, haccounting, hcommitted⟩ := lockFor_eq hlock
      exact ⟨⟨_, rfl, (hadmission ▸ admission_terminates).failure_ne⟩,
        ⟨s.accounting.registry.nextId, haccounting⟩, hcommitted⟩
  | nothing hlock hadmission hmint hzero =>
      have hpos := hwraps.totalRanges_pos
      omega
  | @notBuilt failure s₁ id registry hlock hadmission hmint hbuild =>
      obtain ⟨-, haccounting, hcommitted⟩ := lockFor_eq hlock
      obtain ⟨n, rfl⟩ := generate_setNextId hmint
      have hends := build_terminates config router device hwords
        (totalRanges_lt_of_admission hadmission) id
      refine ⟨⟨_, rfl, (hbuild ▸ hends).failure_ne⟩, ⟨n, ?_⟩, hcommitted⟩
      simp only [StreamerState.setRegistry, haccounting, Accounting.setNextId]
  | notCommitted hlock hadmission hmint hbuild hcommit =>
      obtain ⟨failure, hfail⟩ := build_refuses config router device hwords hwraps _
      rw [hfail] at hbuild
      cases hbuild
  | committed hlock hadmission hmint hbuild hcommit =>
      obtain ⟨failure, hfail⟩ := build_refuses config router device hwords hwraps _
      rw [hfail] at hbuild
      cases hbuild

/-- The call comes to the build of the request. -/
def ReachesBuild (router : Router) (request : List FileRanges) (s : StreamerState) : Prop :=
  ∃ s₁ minted, lockFor request s = .ok s₁ ∧ admission router request = .ok () ∧
    s₁.accounting.registry.generate = some minted

/-- The call fails only in the checks before the build. -/
def RefusedEarly (config : Config) (router : Router) (device : Device)
    (request : List FileRanges) (s : StreamerState) : Prop :=
  ∀ failure s', asyncRequest config router device request s = some (.error failure, s') →
    lockFor request s = .error failure ∨ admission router request = .error failure

/-- A request without ranges is cut into nothing. -/
theorem slicesCountable_of_noRanges (hfits : RequestFits request)
    (hzero : totalRanges request = 0) : SlicesCountable config router device request := by
  intro a heap slices ha hcut
  obtain ⟨a', ha', hassigned⟩ :=
    makeAssigner_spec config (router.groupsFor request device) hfits
  obtain rfl := Except.ok.inj (ha.symm.trans ha')
  have hnil : a.transfers = [] := by
    apply List.eq_nil_iff_forall_not_mem.2
    intro t ht
    obtain ⟨size, sizes, hsizes⟩ := List.exists_cons_of_ne_nil (hassigned.sizes_ne_nil t ht)
    have hmem : ⟨t.fileIndex, t.firstRangeIndex, ⟨t.offset, size, t.destination⟩⟩ ∈
        placedFiles 0 request := by
      rw [← hassigned.expand_eq, List.mem_flatMap]
      exact ⟨t, ht, by simp [ContiguousTransfer.expand, hsizes, expandSizes]⟩
    rw [← length_placedFiles 0 request, List.length_eq_zero_iff] at hzero
    rw [hzero] at hmem
    cases hmem
  rw [hnil] at hcut
  cases hcut
  intro ts hts
  cases hts

/--
A call with a request that fits fails only in the checks before the build, exactly when no
batch gets {lit}`2 ^ 32` tasks or the call does not come to the build.
-/
theorem refusedEarly_iff (hfits : RequestFits request) :
    RefusedEarly config router device request s ↔
      (ReachesBuild router request s → SlicesCountable config router device request) := by
  constructor
  · rintro hearly ⟨s₁, ⟨id, registry⟩, hlock, hadmission, hmint⟩
    obtain ⟨⟨plugin, hplugin⟩, -, -⟩ := lockFor_eq hlock
    by_cases hzero : totalRanges request = 0
    · exact slicesCountable_of_noRanges hfits hzero
    · refine (build_fits config router device hfits hplugin id).1 ?_
      cases hbuild : build config router device request id with
      | ok built => exact ⟨built, rfl, id_of_build hbuild⟩
      | error failure =>
          have hcall : asyncRequest config router device request s =
              some (.error failure, s₁.setRegistry registry) := by
            simp only [asyncRequest, hlock, hadmission, StreamerState.submit, hmint,
              if_neg hzero, hbuild]
          rcases hearly failure _ hcall with hcontra | hcontra
          · rw [hlock] at hcontra
            cases hcontra
          · rw [hadmission] at hcontra
            cases hcontra
  · intro hcount failure s' hcall
    cases asyncRequest_ends hcall with
    | notLocked hlock => exact .inl hlock
    | notAdmitted hlock hadmission => exact .inr hadmission
    | notBuilt hlock hadmission hmint hbuild =>
        obtain ⟨⟨plugin, hplugin⟩, -, -⟩ := lockFor_eq hlock
        obtain ⟨built, hbuilt, -⟩ := (build_fits config router device hfits hplugin _).2
          (hcount ⟨_, _, hlock, hadmission, hmint⟩)
        rw [hbuilt] at hbuild
        cases hbuild
    | notCommitted hlock hadmission hmint hbuild hcommit =>
        obtain ⟨s₂, hs₂⟩ := commit_isOk request hmint (id_of_build hbuild)
        rw [hs₂] at hcommit
        cases hcommit

/-- A call comes back when there is an id to mint. -/
theorem asyncRequest_isSome (hnext : s.accounting.registry.nextId < 2 ^ 64)
    (hroom : s.accounting.registry.submissions.keys.length < idCount) :
    (asyncRequest config router device request s).isSome := by
  unfold asyncRequest
  cases hlock : lockFor request s with
  | error failure => rfl
  | ok s₁ =>
      cases hadmission : admission router request with
      | error failure => rfl
      | ok u =>
          obtain ⟨-, haccounting, -⟩ := lockFor_eq hlock
          obtain ⟨k, hk, hfirst⟩ := SubmissionsMgr.exists_generate hroom
          have hmint := SubmissionsMgr.generate_eq hnext hk hfirst
          simp only [StreamerState.submit, haccounting, hmint]
          split
          · rfl
          · split
            · rfl
            · split <;> rfl

end Call

/--
A call with a request that wraps.  It ends with a failure, before the commit: no submission
is registered, the responder expects what it expected, no workload goes to a pool, and what is
in flight is answered as if there had been no call.  The loops that divide and cut the request
end, and the call returns whenever there is an id to mint.  A request that fits is refused by
the checks that come before the build, and otherwise exactly when a batch of it gets
{lit}`2 ^ 32` tasks or more.
-/
theorem wrapping_refused (config : Config) (router : Router) (device : Device)
    {request : List FileRanges} (hwords : RequestWords request) (s : StreamerState) :
    (RequestWraps request →
      (∀ ended s', asyncRequest config router device request s = some (ended, s') →
        (∃ failure, ended = .error failure ∧ failure ≠ .endless) ∧ Untouched s s' ∧
          ∀ actions, (∀ action ∈ actions, Answering action) →
            run accountingStep s'.accounting actions =
              (run accountingStep s.accounting actions).map fun t =>
                t.setNextId s'.accounting.registry.nextId) ∧
      LoopsEnd config router device request ∧
      (s.accounting.registry.nextId < 2 ^ 64 →
        s.accounting.registry.submissions.keys.length < idCount →
          (asyncRequest config router device request s).isSome)) ∧
    (RequestFits request →
      (RefusedEarly config router device request s ↔
        (ReachesBuild router request s → SlicesCountable config router device request))) := by
  constructor
  · intro hwraps
    refine ⟨fun ended s' hrun => ?_, loopsEnd config router device hwords, asyncRequest_isSome⟩
    obtain ⟨hfailed, huntouched⟩ := (asyncRequest_ends hrun).refused hwords hwraps
    refine ⟨hfailed, huntouched, fun actions hactions => ?_⟩
    obtain ⟨n, hn⟩ := huntouched.accounting
    rw [hn]
    exact run_setNextId n s.accounting hactions
  · exact refusedEarly_iff

/-- The second range starts where the first one ends, at the start of the file. -/
def hiddenWrap : List FileRanges :=
  [{ path := ['a'], ranges := [⟨2 ^ 64 - 4, 4, 4096⟩, ⟨0, 4, 4100⟩] }]

/-- A router without asynchronous groups. -/
def syncRouter : Router :=
  { resolve := .success, groups := fun _ _ => [] }

theorem wrapping_refused_hiddenWrap : ∃ failure s',
    asyncRequest tinyConfig syncRouter ⟨.cpu, 0⟩ hiddenWrap .start =
      some (.error failure, s') ∧ Untouched .start s' := by
  have hwords : RequestWords hiddenWrap := by
    unfold RequestWords
    decide
  have hwraps : RequestWraps hiddenWrap :=
    .inr ⟨_, List.mem_singleton.2 rfl, ⟨2 ^ 64 - 4, 4, 4096⟩, by simp, by decide,
      Nat.le_refl _⟩
  obtain ⟨hends, -, hreturns⟩ :=
    (wrapping_refused tinyConfig syncRouter ⟨.cpu, 0⟩ hwords .start).1 hwraps
  obtain ⟨⟨ended, s'⟩, hcall⟩ := Option.isSome_iff_exists.1 (hreturns (by decide) (by decide))
  obtain ⟨⟨failure, rfl, -⟩, huntouched, -⟩ := hends ended s' hcall
  exact ⟨failure, s', hcall, huntouched⟩

/-- The one slice that one worker gets of a range of 4 GiB and one byte. -/
theorem assigner_longRange_oneWorker :
    (makeAssigner longRange (byteConfig 1 (by decide) (by decide))
        (syncRouter.groupsFor longRange ⟨.cpu, 0⟩)).toOption.map
      (fun a => a.transfers.map fun t => (t.fileIndex, t.tasks.length, t.size)) =
        some [(0, 1, 2 ^ 32 + 1)] := by
  decide +kernel

/-- Chunks of one byte cut this slice into more tasks than an {lit}`unsigned` counts. -/
theorem not_slicesCountable_longRange :
    ¬ SlicesCountable (byteConfig 1 (by decide) (by decide)) syncRouter ⟨.cpu, 0⟩ longRange := by
  intro hcount
  have hfits : RequestFits longRange := ⟨by decide, by decide⟩
  have hwords : RequestWords longRange := by
    unfold RequestWords
    decide
  obtain ⟨a, heap, slices, ha, hcut, -, -⟩ := workloads_of_submission
    (byteConfig 1 (by decide) (by decide)) (syncRouter.groupsFor longRange ⟨.cpu, 0⟩) 1
    ⟨.cpu, 0⟩ hfits (rfl : lockObjectPlugin longRange = .ok none)
  have hassigner := makeAssigner_words (byteConfig 1 (by decide) (by decide))
    (syncRouter.groupsFor longRange ⟨.cpu, 0⟩) hwords
  rw [if_pos (by decide)] at hassigner
  obtain ⟨a', ha', hassigned⟩ := hassigner
  obtain rfl := Except.ok.inj (ha.symm.trans ha')
  have hone := assigner_longRange_oneWorker
  rw [ha] at hone
  have htransfers : a.transfers.map (fun t => (t.fileIndex, t.tasks.length, t.size)) =
      [(0, 1, 2 ^ 32 + 1)] := Option.some.inj hone
  obtain ⟨t, ht, hvalues⟩ := List.map_eq_singleton_iff.1 htransfers
  simp only [Prod.mk.injEq] at hvalues
  obtain ⟨hfile, hlength, hsize⟩ := hvalues
  have hmem : t ∈ a.transfers := by simp [ht]
  have hslices := hcount a heap slices ha hcut
  rw [ht] at hcut
  obtain ⟨s, hs, rfl⟩ := cutTransfers_one hcut
  have hchunk : chunkOfFile (byteConfig 1 (by decide) (by decide)) longRange t.fileIndex = 1 := by
    rw [hfile]
    rfl
  rw [hchunk] at hs
  obtain ⟨s', base, hs', hinv⟩ := cutTransfer_words (c := 1) (by decide) t.fileIndex []
    (hassigned.sliced t hmem) (hassigned.size_eq t hmem) (hassigned.offset_lt t hmem)
    (hassigned.size_lt t hmem)
  obtain rfl := Except.ok.inj (hs.symm.trans hs')
  obtain ⟨tasks, htasks, -, hlong, -⟩ := hinv.exists_long hlength (by omega)
  have hlt := hslices tasks (by simp [htasks])
  omega

/--
A range of 4 GiB and one byte that fits, chunks of one byte and one worker.  The request passes
the checks before the build, and is refused by the build all the same.
-/
theorem fitting_refused_longRange :
    RequestFits longRange ∧ ReachesBuild syncRouter longRange .start ∧
      ∃ failure s',
        asyncRequest (byteConfig 1 (by decide) (by decide)) syncRouter ⟨.cpu, 0⟩ longRange
          .start = some (.error failure, s') ∧
        lockFor longRange .start ≠ .error failure ∧
        admission syncRouter longRange ≠ .error failure := by
  have hfits : RequestFits longRange := ⟨by decide, by decide⟩
  have hreaches : ReachesBuild syncRouter longRange .start :=
    ⟨.start, _, rfl, rfl, rfl⟩
  refine ⟨hfits, hreaches, ?_⟩
  by_contra hnone
  refine not_slicesCountable_longRange ((refusedEarly_iff hfits).1 ?_ hreaches)
  intro failure s' hcall
  by_contra hlate
  exact hnone ⟨failure, s', hcall, fun hlock => hlate (.inl hlock),
    fun hadmission => hlate (.inr hadmission)⟩

end Streamer
end ModelStreamer
