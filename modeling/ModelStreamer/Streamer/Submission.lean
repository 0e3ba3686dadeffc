import ModelStreamer.Streamer.BatchesSpec

/-!
# Building a submission

The part of {lit}`Streamer::async_request` that turns a request into workloads: classify the
backend, divide the request, build the batches of every transfer and hand each batch to the
workload of its slice.

Main results:

- Theorem {lit}`buildBatches_tiled`: the batches of all transfers hold exactly the tasks of
  all ranges, and are built when the tasks of each can be counted.
- Theorem {lit}`buildWorkloads_eq`: for a request of one backend, every batch ends up in the
  workload it was built for.
-/

namespace ModelStreamer
namespace Streamer

open Common Lib

/-! ## Backend classification -/

/-- {lit}`BackendPools::Plugin`. -/
inductive Plugin where
  | s3
  | gcs
  | azure
deriving DecidableEq, Repr

/-- The plugin that serves a scheme. -/
def Plugin.ofScheme : Scheme → Plugin
  | .gs => .gcs
  | .az => .azure
  | .s3 => .s3

/-- The loop of {lit}`Streamer::lock_object_plugin` over the files with ranges. -/
def classifyFiles :
    List FileRanges → Option Plugin → Bool → Except ResponseCode (Option Plugin × Bool)
  | [], plugin, hasFilesystem => .ok (plugin, hasFilesystem)
  | file :: files, plugin, hasFilesystem =>
      if file.ranges = [] then
        classifyFiles files plugin hasFilesystem
      else
        match StorageUri.parse file.path with
        | none => classifyFiles files plugin true
        | some uri =>
            if plugin.isSome ∧ plugin ≠ some (Plugin.ofScheme uri.scheme) then
              .error .unsupportedBackendMix
            else
              classifyFiles files (some (Plugin.ofScheme uri.scheme)) hasFilesystem

/-- {lit}`Streamer::lock_object_plugin` up to the lock itself: the plugin to lock, if any. -/
def lockObjectPlugin (request : List FileRanges) : Except ResponseCode (Option Plugin) := do
  let (plugin, hasFilesystem) ← classifyFiles request none false
  if plugin.isSome ∧ hasFilesystem then
    .error .unsupportedBackendMix
  else
    return plugin

/-! ## Workloads -/

/-- {lit}`Workload`: batches that share a backend kind and a device. -/
structure Workload where
  batches : List Batch
  isObjectStorage : Bool
  device : Device
deriving DecidableEq, Repr

/-- A workload nothing was added to. -/
def Workload.empty : Workload :=
  { batches := [], isObjectStorage := false, device := { type := .cpu, id := 0 } }

/-- {lit}`Workload::verify_batch`. -/
def Workload.verifyBatch (workload : Workload) (batch : Batch) : ResponseCode :=
  if batch.isObjectStorage ≠ workload.isObjectStorage then
    .invalidParameterError
  else if ¬ batch.device.same workload.device then
    .invalidParameterError
  else
    .success

/-- {lit}`Workload::add_batch`: the first batch decides the backend and the device. -/
def Workload.addBatch (workload : Workload) (batch : Batch) : Except ResponseCode Workload :=
  if workload.batches = [] then
    .ok { batches := [batch], isObjectStorage := batch.isObjectStorage, device := batch.device }
  else if workload.verifyBatch batch ≠ .success then
    .error (workload.verifyBatch batch)
  else
    .ok { workload with batches := workload.batches ++ [batch] }

/-! ## The build loop -/

/-- What every batch of a transfer inherits from its file and its submission. -/
def originOf (submissionId : Nat) (device : Device) (t : ContiguousTransfer)
    (file : FileRanges) : BatchOrigin :=
  { submissionId
    fileIndex := t.fileIndex
    path := file.path
    isObjectStorage := (StorageUri.parse file.path).isSome
    device }

/-- The batches of one transfer; a transfer names a file of the request. -/
def batchesOf (config : Config) (submissionId : Nat) (device : Device)
    (request : List FileRanges) (t : ContiguousTransfer) (heap : List Request) :
    Except Failure (List Request × List Batch) :=
  match request[t.fileIndex]? with
  | some file => makeBatches config (originOf submissionId device t file) t heap
  | none => .error .assertion

/-- All batches that {lit}`Assigner` and {lit}`Batches` build, transfer by transfer. -/
def buildBatches (config : Config) (submissionId : Nat) (device : Device)
    (request : List FileRanges) :
    List ContiguousTransfer → List Request → Except Failure (List Request × List Batch)
  | [], heap => .ok (heap, [])
  | t :: ts, heap => do
      let (heap, batches) ← batchesOf config submissionId device request t heap
      let (heap, rest) ← buildBatches config submissionId device request ts heap
      return (heap, batches ++ rest)

/-- One batch joins the workload it was built for; an empty batch is skipped. -/
def placeBatch (workloads : List Workload) (batch : Batch) :
    Except Failure (List Workload) :=
  if batch.tasks = [] then
    .ok workloads
  else
    match workloads[batch.workloadIndex]? with
    | none => .error .assertion
    | some workload =>
        match workload.addBatch batch with
        | .ok workload => .ok (workloads.set batch.workloadIndex workload)
        | .error code => .error (.exception code)

/-- The loop of {lit}`Streamer::async_request` over the batches of one transfer. -/
def placeBatches : List Batch → List Workload → Except Failure (List Workload)
  | [], workloads => .ok workloads
  | batch :: batches, workloads => do
      let workloads ← placeBatch workloads batch
      placeBatches batches workloads

/-- The loop of {lit}`Streamer::async_request` over the transfers. -/
def buildWorkloads (config : Config) (submissionId : Nat) (device : Device)
    (request : List FileRanges) :
    List ContiguousTransfer → List Request → List Workload →
      Except Failure (List Request × List Workload)
  | [], heap, workloads => .ok (heap, workloads)
  | t :: ts, heap, workloads => do
      let (heap, batches) ← batchesOf config submissionId device request t heap
      let workloads ← placeBatches batches workloads
      buildWorkloads config submissionId device request ts heap workloads

/-! ## All transfers -/

/-- Cutting with another chunk size changes nothing for files that keep theirs. -/
theorem Tiled.congr {f g : Nat → Nat} {p : Nat} {xs : List PlacedRange} {rs : List Request}
    {ts : List Task} (h : Tiled f p xs rs ts)
    (hfg : ∀ placed ∈ xs, g placed.fileIndex = f placed.fileIndex) : Tiled g p xs rs ts := by
  induction h with
  | nil p => exact Tiled.nil p
  | @cons p placed request tasks ranges requests rest hrange _ ih =>
      refine Tiled.cons ?_ (ih fun q hq => hfg q (by simp [hq]))
      rw [hfg placed (by simp)]
      exact hrange

/-- The ranges of a transfer belong to its file. -/
theorem fileIndex_of_mem_expandSizes {fileIndex index offset : Nat} {dst : Addr}
    {sizes : List Nat} {placed : PlacedRange}
    (h : placed ∈ expandSizes fileIndex index offset dst sizes) :
    placed.fileIndex = fileIndex := by
  induction sizes generalizing index offset dst with
  | nil => simp [expandSizes] at h
  | cons size sizes ih =>
      rcases List.mem_cons.1 h with rfl | hmem
      · rfl
      · exact ih hmem

/-- A task points at the request of a range that it was built for. -/
theorem Tiled.owner {chunkOf : Nat → Nat} {p : Nat} {xs : List PlacedRange}
    {rs : List Request} {ts : List Task} (h : Tiled chunkOf p xs rs ts) {task : Task}
    (htask : task ∈ ts) :
    ∃ j r placed, task.request = p + j ∧ rs[j]? = some r ∧ placed ∈ xs ∧
      r.fileIndex = placed.fileIndex := by
  induction h with
  | nil => simp at htask
  | @cons p placed request tasks ranges requests rest hrange _ ih =>
      rcases List.mem_append.1 htask with hmem | hmem
      · obtain ⟨infos, rfl, -⟩ := hrange.tasks_eq
        obtain ⟨info, -, rfl⟩ := List.mem_map.1 hmem
        refine ⟨0, request, placed, rfl, rfl, List.mem_cons_self, ?_⟩
        rw [hrange.request_eq]
        rfl
      · obtain ⟨j, r, q, hj, hr, hq, hfile⟩ := ih hmem
        exact ⟨j + 1, r, q, by omega, hr, List.mem_cons_of_mem _ hq, hfile⟩

/-- A batch points at requests of its own file. -/
def OwnFile (heap : List Request) (batch : Batch) : Prop :=
  ∀ task ∈ batch.tasks, ∃ r : Request, heap[task.request]? = some r ∧
    r.fileIndex = batch.fileIndex

/-- A file of the request, with the chunk size its tasks are cut with. -/
def chunkOfFile (config : Config) (request : List FileRanges) (fileIndex : Nat) : Nat :=
  match request[fileIndex]? with
  | some file => config.chunkBytesize (StorageUri.parse file.path).isSome
  | none => 0

/-- What every batch of a submission promises. -/
structure BatchFor (submissionId : Nat) (device : Device) (request : List FileRanges)
    (limit : Nat) (batch : Batch) : Prop where
  file : ∃ file, request[batch.fileIndex]? = some file ∧ file.ranges ≠ [] ∧
    batch.isObjectStorage = (StorageUri.parse file.path).isSome
  submissionId_eq : batch.submissionId = submissionId
  device_eq : batch.device = device
  workload_lt : batch.workloadIndex < limit
  tasks_ne_nil : batch.tasks ≠ []
  contiguous : Contiguous (fun task : Task => task.info.offset) (fun task => task.info.stop)
    batch.start batch.stop batch.tasks

/-- The cut of all transfers, before any batch is made: the tasks of every batch. -/
def cutTransfers (config : Config) (request : List FileRanges) :
    List ContiguousTransfer → List Request → Except Failure (List Request × List (List Task))
  | [], heap => .ok (heap, [])
  | t :: ts, heap => do
      let s ← cutTransfer (chunkOfFile config request t.fileIndex) t.fileIndex t heap
      let (heap, rest) ← cutTransfers config request ts s.heap
      return (heap, s.tasks ++ rest)

theorem cutTransfers_cons {config : Config} {request : List FileRanges} {t : ContiguousTransfer}
    {ts : List ContiguousTransfer} {heap : List Request} {s : BuildState}
    {cut : List Request × List (List Task)}
    (hs : cutTransfer (chunkOfFile config request t.fileIndex) t.fileIndex t heap = .ok s)
    (hrest : cutTransfers config request ts s.heap = .ok cut) :
    cutTransfers config request (t :: ts) heap = .ok (cut.1, s.tasks ++ cut.2) := by
  simp only [cutTransfers, hs, hrest, bind, Except.bind]
  rfl

/-- Two lists of batches are countable together. -/
theorem countable_append {xs ys : List (List Task)} :
    Countable (xs ++ ys) ↔ Countable xs ∧ Countable ys := by
  simp only [Countable, List.mem_append, or_imp, forall_and]

/-- When all batches were built, those of the first transfer and those of the rest were. -/
theorem buildBatches_cons {config : Config} {submissionId : Nat} {device : Device}
    {request : List FileRanges} {t : ContiguousTransfer} {ts : List ContiguousTransfer}
    {heap : List Request} {built : List Request × List Batch}
    (h : buildBatches config submissionId device request (t :: ts) heap = .ok built) :
    ∃ made rest, batchesOf config submissionId device request t heap = .ok made ∧
      buildBatches config submissionId device request ts made.1 = .ok rest := by
  simp only [buildBatches, bind, Except.bind] at h
  split at h
  · cases h
  · rename_i made hmade
    split at h
    · cases h
    · rename_i rest hrest
      exact ⟨made, rest, hmade, hrest⟩

/--
Divided transfers are cut into the tasks of their ranges.  Their batches hold exactly these
tasks, in order, and are built exactly when the tasks of each can be counted.
-/
theorem buildBatches_tiled (config : Config) (submissionId : Nat) (device : Device)
    (request : List FileRanges) (transfers : List ContiguousTransfer) {limit : Nat}
    (heap : List Request) (hdivided : ∀ t ∈ transfers, Divided limit t)
    (hsize : ∀ t ∈ transfers, t.size = t.rangeSizes.sum)
    (hstop : ∀ t ∈ transfers, t.offset + t.size < 2 ^ 63)
    (hfile : ∀ t ∈ transfers, ∃ file, request[t.fileIndex]? = some file ∧ file.ranges ≠ []) :
    ∃ requests slices,
      cutTransfers config request transfers heap = .ok (heap ++ requests, slices) ∧
      Tiled (chunkOfFile config request) heap.length
        (transfers.flatMap ContiguousTransfer.expand) requests slices.flatten ∧
      (∀ built, buildBatches config submissionId device request transfers heap = .ok built →
        Countable slices) ∧
      (Countable slices →
        ∃ batches,
          buildBatches config submissionId device request transfers heap =
            .ok (heap ++ requests, batches) ∧
          batches.flatMap Batch.tasks = slices.flatten ∧
          ∀ batch ∈ batches, BatchFor submissionId device request limit batch ∧
            OwnFile (heap ++ requests) batch ∧
            Chunked (heap ++ requests) (config.chunkBytesize batch.isObjectStorage)
              batch.tasks batch.chunks) := by
  induction transfers generalizing heap with
  | nil =>
      refine ⟨[], [], by simp [cutTransfers], by simpa using Tiled.nil _, ?_, ?_⟩
      · intro built _ ts hts
        cases hts
      · intro _
        exact ⟨[], by simp [buildBatches], rfl, by simp⟩
  | cons t ts ih =>
      obtain ⟨file, hget, hranges⟩ := hfile t (by simp)
      obtain ⟨s, requests₁, hs, hheap, hlength, htiled₁, hmake⟩ :=
        makeBatches_spec config (originOf submissionId device t file) heap
          (hdivided t (by simp)) (hsize t (by simp)) (hstop t (by simp)) rfl
      obtain ⟨requests₂, slices₂, hrest, htiled₂, hcountable, hbuild⟩ :=
        ih s.heap (fun u hu => hdivided u (by simp [hu]))
          (fun u hu => hsize u (by simp [hu])) (fun u hu => hstop u (by simp [hu]))
          (fun u hu => hfile u (by simp [hu]))
      have hchunk : chunkOfFile config request t.fileIndex =
          config.chunkBytesize (originOf submissionId device t file).isObjectStorage := by
        simp only [chunkOfFile, hget]
        rfl
      have happend : s.heap ++ requests₂ = heap ++ (requests₁ ++ requests₂) := by
        rw [hheap, List.append_assoc]
      refine ⟨requests₁ ++ requests₂, s.tasks ++ slices₂, ?_, ?_, ?_, ?_⟩
      · rw [← happend]
        exact cutTransfers_cons (hchunk ▸ hs) hrest
      · rw [List.flatMap_cons, List.flatten_append]
        refine Tiled.append (htiled₁.congr ?_) ?_
        · intro placed hplaced
          rw [fileIndex_of_mem_expandSizes hplaced]
          exact hchunk
        · have hlen := htiled₁.length_requests
          rw [hheap, List.length_append, hlen] at htiled₂
          exact htiled₂
      · intro built hbuilt
        obtain ⟨made, rest, hmade, hbuilt₂⟩ := buildBatches_cons hbuilt
        simp only [batchesOf, hget] at hmade
        obtain ⟨hsame, hcollected⟩ := collected_of_makeBatches hs hlength hmade
        rw [hsame] at hbuilt₂
        exact countable_append.2 ⟨hcollected.countable, hcountable rest hbuilt₂⟩
      · intro hcount
        obtain ⟨hcount₁, hcount₂⟩ := countable_append.1 hcount
        obtain ⟨batches₁, hmade, hflat₁, heach₁⟩ := hmake hcount₁
        obtain ⟨batches₂, hbuilt₂, hflat₂, heach₂⟩ := hbuild hcount₂
        refine ⟨batches₁ ++ batches₂, ?_, ?_, ?_⟩
        · simp only [buildBatches, batchesOf, hget, hmade, hbuilt₂, bind, Except.bind]
          rw [happend]
          rfl
        · rw [List.flatMap_append, List.flatten_append, hflat₁, hflat₂]
        · rw [← happend]
          intro batch hbatch
          rcases List.mem_append.1 hbatch with hmem | hmem
          · obtain ⟨hof, hchunked⟩ := heach₁ batch hmem
            refine ⟨⟨⟨file, ?_, hranges, hof.isObjectStorage_eq⟩, hof.submissionId_eq,
              hof.device_eq, hof.workload_lt, hof.tasks_ne_nil, hof.contiguous⟩, ?_, ?_⟩
            · rw [hof.fileIndex_eq]
              exact hget
            · intro task htask
              have hown : task ∈ s.tasks.flatten := by
                rw [← hflat₁]
                exact List.mem_flatMap.2 ⟨batch, hmem, htask⟩
              obtain ⟨j, r, placed, hj, hr, hplaced, hfile⟩ := htiled₁.owner hown
              refine ⟨r, ?_, ?_⟩
              · have hlt := (List.getElem?_eq_some_iff.1 hr).1
                rw [hj, happend, List.getElem?_append_right (Nat.le_add_right _ _),
                  Nat.add_sub_cancel_left, List.getElem?_append_left hlt]
                exact hr
              · rw [hfile, fileIndex_of_mem_expandSizes hplaced, hof.fileIndex_eq]
                rfl
            · rw [hof.isObjectStorage_eq]
              exact hchunked.append_heap requests₂
          · exact heach₂ batch hmem

/-! ## Places of ranges -/

/-- One place comes before another: an earlier file, or earlier in the same file. -/
def PlacedRange.before (x y : PlacedRange) : Prop :=
  x.fileIndex < y.fileIndex ∨ (x.fileIndex = y.fileIndex ∧ x.index < y.index)

/-- Places are listed in order. -/
theorem pairwise_placedFiles (k : Nat) (files : List FileRanges) :
    (placedFiles k files).Pairwise PlacedRange.before := by
  have hranges : ∀ (ranges : List ReadRange) (k i : Nat),
      (placedRanges k i ranges).Pairwise PlacedRange.before := by
    intro ranges
    induction ranges with
    | nil => simp [placedRanges]
    | cons range ranges ih =>
        intro k i
        refine List.pairwise_cons.2 ⟨?_, ih k (i + 1)⟩
        intro y hy
        obtain ⟨hfile, hle, -⟩ := mem_placedRanges.1 hy
        exact Or.inr ⟨hfile.symm, hle⟩
  induction files generalizing k with
  | nil => simp [placedFiles]
  | cons file files ih =>
      refine List.pairwise_append.2 ⟨hranges file.ranges k 0, ih (k + 1), ?_⟩
      intro x hx y hy
      obtain ⟨hxfile, -⟩ := mem_placedRanges.1 hx
      obtain ⟨hyfile, -⟩ := mem_placedFiles.1 hy
      exact Or.inl (by omega)

/-- A place stands in the list once. -/
theorem placedFiles_unique {files : List FileRanges} {p q : Nat} {x y : PlacedRange}
    (hx : (placedFiles 0 files)[p]? = some x) (hy : (placedFiles 0 files)[q]? = some y)
    (hfile : x.fileIndex = y.fileIndex) (hindex : x.index = y.index) : p = q := by
  have hpairwise := List.pairwise_iff_getElem.1 (pairwise_placedFiles 0 files)
  obtain ⟨hp, rfl⟩ := List.getElem?_eq_some_iff.1 hx
  obtain ⟨hq, rfl⟩ := List.getElem?_eq_some_iff.1 hy
  rcases Nat.lt_trichotomy p q with hlt | heq | hlt
  · have hbefore := hpairwise p q hp hq hlt
    unfold PlacedRange.before at hbefore
    omega
  · exact heq
  · have hbefore := hpairwise q p hq hp hlt
    unfold PlacedRange.before at hbefore
    omega

/-! ## Workloads of one backend -/

/-- Every file with ranges is of the one kind. -/
def OneBackend (request : List FileRanges) (isObjectStorage : Bool) : Prop :=
  ∀ file ∈ request, file.ranges ≠ [] →
    (StorageUri.parse file.path).isSome = isObjectStorage

/-- The classification remembers which kinds it has seen. -/
theorem classifyFiles_seen {files : List FileRanges} {plugin plugin' : Option Plugin}
    {fs fs' : Bool} (h : classifyFiles files plugin fs = .ok (plugin', fs')) :
    (plugin.isSome = true → plugin'.isSome = true) ∧ (fs = true → fs' = true) ∧
      ∀ file ∈ files, file.ranges ≠ [] →
        if (StorageUri.parse file.path).isSome then plugin'.isSome = true else fs' = true := by
  induction files generalizing plugin fs with
  | nil =>
      simp only [classifyFiles, Except.ok.injEq, Prod.mk.injEq] at h
      obtain ⟨rfl, rfl⟩ := h
      simp
  | cons file files ih =>
      simp only [classifyFiles] at h
      split at h
      · rename_i hranges
        obtain ⟨hplugin, hfs, hfiles⟩ := ih h
        refine ⟨hplugin, hfs, ?_⟩
        intro f hf hne
        rcases List.mem_cons.1 hf with rfl | hmem
        · exact absurd hranges hne
        · exact hfiles f hmem hne
      · cases hparse : StorageUri.parse file.path with
        | none =>
            rw [hparse] at h
            obtain ⟨hplugin, hfs, hfiles⟩ := ih h
            refine ⟨hplugin, fun _ => hfs rfl, ?_⟩
            intro f hf hne
            rcases List.mem_cons.1 hf with rfl | hmem
            · simp [hparse, hfs]
            · exact hfiles f hmem hne
        | some uri =>
            rw [hparse] at h
            simp only at h
            split at h
            · cases h
            · obtain ⟨hplugin, hfs, hfiles⟩ := ih h
              refine ⟨fun _ => hplugin rfl, hfs, ?_⟩
              intro f hf hne
              rcases List.mem_cons.1 hf with rfl | hmem
              · simp [hparse, hplugin]
              · exact hfiles f hmem hne

/-- A request that the plugin lock accepts does not mix backends. -/
theorem oneBackend_of_lockObjectPlugin {request : List FileRanges} {plugin : Option Plugin}
    (h : lockObjectPlugin request = .ok plugin) : ∃ b, OneBackend request b := by
  unfold lockObjectPlugin at h
  cases hclassify : classifyFiles request none false with
  | error code => simp [hclassify, bind, Except.bind] at h
  | ok result =>
      obtain ⟨plugin', fs'⟩ := result
      obtain ⟨-, -, hseen⟩ := classifyFiles_seen hclassify
      simp only [hclassify, bind, Except.bind] at h
      refine ⟨plugin'.isSome, ?_⟩
      intro file hfile hranges
      have hcase := hseen file hfile hranges
      split at hcase
      · rename_i hsome
        rw [hsome, hcase]
      · rename_i hnone
        split at h
        · cases h
        · rename_i hmix
          simp only [hcase, and_true, Bool.not_eq_true] at hmix hnone
          rw [hnone, hmix]

/-- A workload that can still take any batch of the backend and device. -/
def Workload.Accepts (b : Bool) (device : Device) (workload : Workload) : Prop :=
  workload.batches = [] ∨ (workload.isObjectStorage = b ∧ workload.device = device)

/-- A batch of the one backend and device is always accepted. -/
theorem Workload.Accepts.addBatch {b : Bool} {device : Device} {workload : Workload}
    (h : workload.Accepts b device) {batch : Batch} (hb : batch.isObjectStorage = b)
    (hdevice : batch.device = device) :
    ∃ workload', workload.addBatch batch = .ok workload' ∧ workload'.Accepts b device ∧
      workload'.batches = workload.batches ++ [batch] := by
  by_cases hempty : workload.batches = []
  · refine ⟨_, if_pos hempty, Or.inr ⟨hb, hdevice⟩, by simp [hempty]⟩
  · rcases h with hnil | ⟨hkind, hdev⟩
    · exact absurd hnil hempty
    · have hverify : workload.verifyBatch batch = .success := by
        simp [Workload.verifyBatch, hb, hkind, hdevice, hdev]
      simp only [Workload.addBatch, if_neg hempty, hverify, ne_eq, not_true_eq_false, if_false]
      exact ⟨_, rfl, Or.inr ⟨hkind, hdev⟩, rfl⟩

/-- Each batch joins the workload it names, in order. -/
theorem placeBatches_eq {b : Bool} {device : Device} (batches : List Batch)
    {workloads : List Workload} (haccepts : ∀ w ∈ workloads, w.Accepts b device)
    (hbatches : ∀ batch ∈ batches, batch.isObjectStorage = b ∧ batch.device = device ∧
      batch.tasks ≠ [] ∧ batch.workloadIndex < workloads.length) :
    ∃ workloads', placeBatches batches workloads = .ok workloads' ∧
      (∀ w ∈ workloads', w.Accepts b device) ∧ workloads'.length = workloads.length ∧
      ∀ i, workloads'[i]?.map Workload.batches = workloads[i]?.map fun w =>
        w.batches ++ batches.filter fun batch => batch.workloadIndex = i := by
  induction batches generalizing workloads with
  | nil => exact ⟨workloads, rfl, haccepts, rfl, by simp⟩
  | cons batch batches ih =>
      obtain ⟨hb, hdevice, htasks, hindex⟩ := hbatches batch (by simp)
      have hget : workloads[batch.workloadIndex]? = some workloads[batch.workloadIndex] :=
        List.getElem?_eq_getElem hindex
      obtain ⟨workload, hadd, haccept, hadded⟩ :=
        (haccepts _ (List.getElem_mem hindex)).addBatch hb hdevice
      have haccepts' : ∀ w ∈ workloads.set batch.workloadIndex workload,
          w.Accepts b device := by
        intro w hw
        rcases List.mem_or_eq_of_mem_set hw with hmem | rfl
        · exact haccepts w hmem
        · exact haccept
      obtain ⟨workloads', hrest, hall, hlength, hlists⟩ :=
        ih haccepts' (fun x hx => by simpa using hbatches x (by simp [hx]))
      refine ⟨workloads', ?_, hall, by simpa using hlength, ?_⟩
      · simp only [placeBatches, placeBatch, if_neg htasks, hget, hadd]
        exact hrest
      · intro i
        rw [hlists i, getElem?_set_of_some hget]
        by_cases hi : i = batch.workloadIndex
        · subst hi
          simp [hget, hadded]
        · have hne : batch.workloadIndex ≠ i := Ne.symm hi
          simp [hi, hne]

/-- For a request of one backend the build loop places every batch it builds. -/
theorem buildWorkloads_eq {config : Config} {submissionId : Nat} {device : Device}
    {request : List FileRanges} {b : Bool} (transfers : List ContiguousTransfer)
    {heap heap' : List Request} {batches : List Batch} {workloads : List Workload}
    (hbuild : buildBatches config submissionId device request transfers heap =
      .ok (heap', batches))
    (haccepts : ∀ w ∈ workloads, w.Accepts b device)
    (hbatches : ∀ batch ∈ batches, batch.isObjectStorage = b ∧ batch.device = device ∧
      batch.tasks ≠ [] ∧ batch.workloadIndex < workloads.length) :
    ∃ workloads',
      buildWorkloads config submissionId device request transfers heap workloads =
        .ok (heap', workloads') ∧
      workloads'.length = workloads.length ∧
      ∀ i, workloads'[i]?.map Workload.batches = workloads[i]?.map fun w =>
        w.batches ++ batches.filter fun batch => batch.workloadIndex = i := by
  induction transfers generalizing heap batches workloads with
  | nil =>
      simp only [buildBatches, Except.ok.injEq, Prod.mk.injEq] at hbuild
      obtain ⟨rfl, rfl⟩ := hbuild
      exact ⟨workloads, rfl, rfl, by simp⟩
  | cons t ts ih =>
      simp only [buildBatches, bind, Except.bind] at hbuild
      split at hbuild
      · cases hbuild
      · rename_i first hfirst
        obtain ⟨heap₁, batches₁⟩ := first
        simp only at hbuild
        split at hbuild
        · cases hbuild
        · rename_i second hsecond
          obtain ⟨heap₂, batches₂⟩ := second
          simp only [pure, Except.pure, Except.ok.injEq, Prod.mk.injEq] at hbuild
          obtain ⟨rfl, rfl⟩ := hbuild
          obtain ⟨workloads₁, hplace, haccepts₁, hlength₁, hlists₁⟩ :=
            placeBatches_eq batches₁ haccepts fun x hx => hbatches x (by simp [hx])
          obtain ⟨workloads₂, hrest, hlength₂, hlists₂⟩ :=
            ih hsecond haccepts₁ fun x hx => hlength₁ ▸ hbatches x (by simp [hx])
          refine ⟨workloads₂, ?_, hlength₂.trans hlength₁, ?_⟩
          · simp only [buildWorkloads, hfirst, hplace, bind, Except.bind]
            exact hrest
          · intro i
            rw [hlists₂ i]
            have hfirstlist := hlists₁ i
            cases hget₁ : workloads₁[i]? with
            | none =>
                rw [hget₁] at hfirstlist
                cases hget : workloads[i]? with
                | none => rfl
                | some w => simp [hget] at hfirstlist
            | some w₁ =>
                rw [hget₁] at hfirstlist
                cases hget : workloads[i]? with
                | none => simp [hget] at hfirstlist
                | some w =>
                    simp only [hget, Option.map_some, Option.some.injEq] at hfirstlist
                    simp [hfirstlist]

end Streamer
end ModelStreamer
