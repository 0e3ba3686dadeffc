import ModelStreamer.Streamer.Submission

/-!
# A submission is tiled exactly

The batches that {lit}`Assigner` and {lit}`Batches` build for a request, looked at range by
range.  Every range of the caller has one request object; the tasks that point at it follow
each other over the bytes of the range, each writes to its place in the caller's buffer, and
the counter of the request is the number of its tasks.

Main results:

- Theorem {lit}`Tiled.tasks_of`: the tasks of a request are the block built for its range.
- Theorem {lit}`submission_tiles_request`: the tiling of a whole submission.
-/

namespace ModelStreamer
namespace Streamer

open Common Lib

/-! ## The tasks of one request -/

/-- The tasks of a list of ranges point at the requests built for these ranges. -/
theorem Tiled.request_bounds {chunkOf : Nat → Nat} {p : Nat} {xs : List PlacedRange}
    {rs : List Request} {ts : List Task} (h : Tiled chunkOf p xs rs ts) {task : Task}
    (htask : task ∈ ts) : p ≤ task.request ∧ task.request < p + xs.length := by
  induction h with
  | nil => simp at htask
  | @cons p placed request tasks ranges requests rest hrange _ ih =>
      rw [List.length_cons]
      rcases List.mem_append.1 htask with hmem | hmem
      · obtain ⟨infos, rfl, -⟩ := hrange.tasks_eq
        obtain ⟨info, -, rfl⟩ := List.mem_map.1 hmem
        exact ⟨le_refl _, Nat.lt_add_of_pos_right (Nat.succ_pos _)⟩
      · have hbounds := ih hmem
        omega

/-- The tasks that point at a request are the block built for its range. -/
theorem Tiled.tasks_of {chunkOf : Nat → Nat} {p : Nat} {xs : List PlacedRange}
    {rs : List Request} {ts : List Task} (h : Tiled chunkOf p xs rs ts) {j : Nat}
    {placed : PlacedRange} (hj : xs[j]? = some placed) :
    ∃ request, rs[j]? = some request ∧
      TiledRange (chunkOf placed.fileIndex) (p + j) placed request
        (ts.filter fun task => task.request = p + j) := by
  induction h generalizing j with
  | nil => simp at hj
  | @cons p first request tasks ranges requests rest hrange htiled ih =>
      have hblock : ∀ task ∈ tasks, task.request = p := by
        obtain ⟨infos, rfl, -⟩ := hrange.tasks_eq
        intro task htask
        obtain ⟨info, -, rfl⟩ := List.mem_map.1 htask
        rfl
      rw [List.filter_append]
      cases j with
      | zero =>
          simp only [List.getElem?_cons_zero, Option.some.injEq] at hj
          subst hj
          have hkeep : (tasks.filter fun task => task.request = p + 0) = tasks :=
            List.filter_eq_self.2 fun task htask => by simp [hblock task htask]
          have hdrop : (rest.filter fun task => task.request = p + 0) = [] := by
            refine List.filter_eq_nil_iff.2 fun task htask => ?_
            have hbounds := htiled.request_bounds htask
            simp only [decide_eq_true_eq]
            omega
          rw [hkeep, hdrop, List.append_nil]
          exact ⟨request, rfl, hrange⟩
      | succ j =>
          simp only [List.getElem?_cons_succ] at hj ⊢
          have hdrop : (tasks.filter fun task => task.request = p + (j + 1)) = [] := by
            refine List.filter_eq_nil_iff.2 fun task htask => ?_
            have heq := hblock task htask
            simp only [decide_eq_true_eq]
            omega
          obtain ⟨r, hr, hrange'⟩ := ih hj
          rw [Nat.add_assoc, Nat.add_comm 1 j] at hrange'
          rw [hdrop, List.nil_append]
          exact ⟨r, hr, hrange'⟩

/-- There is a task for every range. -/
theorem Tiled.length_le {chunkOf : Nat → Nat} {p : Nat} {xs : List PlacedRange}
    {rs : List Request} {ts : List Task} (h : Tiled chunkOf p xs rs ts) :
    xs.length ≤ ts.length := by
  induction h with
  | nil => exact le_refl _
  | cons hrange _ ih =>
      obtain ⟨infos, rfl, hcut⟩ := hrange.tasks_eq
      have hpos := List.length_pos_iff.2 hcut.ne_nil
      simp only [List.length_cons, List.length_append, List.length_map]
      omega

/-! ## The statement -/

/-- The tasks of all batches, in the order they were built. -/
def allTasks (batches : List Batch) : List Task :=
  batches.flatMap Batch.tasks

/-- The tasks that point at the request at {lit}`p`. -/
def tasksOf (batches : List Batch) (p : Nat) : List Task :=
  (allTasks batches).filter fun task => task.request = p

/-- The request at {lit}`p` carries the pair of a file index and a range index. -/
def Carries (heap : List Request) (p fileIndex index : Nat) : Prop :=
  ∃ request, heap[p]? = some request ∧ request.fileIndex = fileIndex ∧ request.index = index

/-- The request of a range and its tasks, as the caller's range prescribes them. -/
structure RangeTiled (heap : List Request) (batches : List Batch) (range : ReadRange)
    (p : Nat) (request : Request) : Prop where
  offset_eq : request.offset = range.offset
  bytesize_eq : request.bytesize = range.size
  dst_eq : request.dst = range.dst
  consecutive : Contiguous (fun task : Task => task.info.offset)
    (fun task => task.info.offset + task.info.bytesize)
    range.offset (range.offset + range.size) (tasksOf batches p)
  ascending : (tasksOf batches p).Pairwise fun x y => x.info.offset < y.info.offset
  destination : ∀ task ∈ tasksOf batches p,
    task.destination heap = .ok (ptrAdd range.dst (task.info.offset - range.offset))
  counter : request.tasks = (tasksOf batches p).length
  counter_pos : 0 < request.tasks

/-- A block built for a range is what the caller's range prescribes. -/
theorem rangeTiled_of_tiledRange {c p : Nat} {placed : PlacedRange} {request : Request}
    {heap : List Request} {batches : List Batch}
    (h : TiledRange c p placed request (tasksOf batches p)) (hget : heap[p]? = some request)
    (hcount : (tasksOf batches p).length < 2 ^ 32) :
    RangeTiled heap batches placed.range p request := by
  obtain ⟨infos, htasks, hcut⟩ := h.tasks_eq
  have hrequest := h.request_eq
  have hstop : ∀ info ∈ infos, info.stop = info.offset + info.bytesize :=
    fun info hinfo => (hcut.each info hinfo).stop_eq
  have hcounter : request.tasks = (tasksOf batches p).length := by
    rw [hrequest]
    exact toWord_of_lt hcount
  refine ⟨by rw [hrequest]; rfl, by rw [hrequest]; rfl, by rw [hrequest]; rfl, ?_, ?_, ?_,
    hcounter, ?_⟩
  · rw [htasks]
    exact contiguous_map.2 (hcut.contiguous.congr_stop hstop)
  · rw [htasks, List.pairwise_map]
    by_cases hzero : placed.range.size = 0
    · obtain ⟨info, rfl⟩ := List.length_eq_one_iff.1 (hcut.single hzero)
      exact List.pairwise_singleton _ _
    · refine hcut.contiguous.pairwise_lt fun info hinfo => ?_
      have hpos := (hcut.each info hinfo).positive (by omega)
      have heq := hstop info hinfo
      omega
  · intro task htask
    rw [htasks] at htask
    obtain ⟨info, hinfo, rfl⟩ := List.mem_map.1 htask
    have hpointer : heap[(Task.make p info).request]? = some request := hget
    rw [Task.destination_of_getElem? hpointer, hrequest]
    simp only [Request.make, Task.make, (hcut.each info hinfo).relative_eq]
  · rw [hcounter, htasks, List.length_map]
    exact List.length_pos_iff.2 hcut.ne_nil

theorem length_placedRanges (k i : Nat) (ranges : List ReadRange) :
    (placedRanges k i ranges).length = ranges.length := by
  induction ranges generalizing i with
  | nil => rfl
  | cons range ranges ih => simp [placedRanges, ih]

/-- A range index is below the number of ranges. -/
theorem index_lt_length_placedFiles {k : Nat} {files : List FileRanges}
    {placed : PlacedRange} (h : placed ∈ placedFiles k files) :
    placed.index < (placedFiles k files).length := by
  induction files generalizing k with
  | nil => simp [placedFiles] at h
  | cons file files ih =>
      simp only [placedFiles, List.length_append, length_placedRanges] at h ⊢
      rcases List.mem_append.1 h with hmem | hmem
      · obtain ⟨-, -, hget⟩ := mem_placedRanges.1 hmem
        obtain ⟨hlt, -⟩ := List.getElem?_eq_some_iff.1 hget
        omega
      · have hlt := ih hmem
        omega

/-- The number of ranges of a request. -/
def totalRanges (request : List FileRanges) : Nat :=
  (request.map fun file => file.ranges.length).sum

/-- There are as many places as ranges. -/
theorem length_placedFiles (k : Nat) (files : List FileRanges) :
    (placedFiles k files).length = totalRanges files := by
  induction files generalizing k with
  | nil => rfl
  | cons file files ih => simp [placedFiles, totalRanges, length_placedRanges, ih]

/-- Among requests built for a request, a pair is carried at the place of its range only. -/
theorem carries_iff {chunkOf : Nat → Nat} {request : List FileRanges} {heap : List Request}
    {tasks : List Task} (h : Tiled chunkOf 0 (placedFiles 0 request) heap tasks)
    (hindices : ∀ placed ∈ placedFiles 0 request, toWord 32 placed.index = placed.index)
    {p : Nat} {placed : PlacedRange} (hp : (placedFiles 0 request)[p]? = some placed) (q : Nat) :
    Carries heap q placed.fileIndex placed.index ↔ q = p := by
  constructor
  · rintro ⟨r, hr, hfile, hindex⟩
    have hq : q < (placedFiles 0 request).length := by
      rw [← h.length_requests]
      exact (List.getElem?_eq_some_iff.1 hr).1
    obtain ⟨x, hx⟩ : ∃ x, (placedFiles 0 request)[q]? = some x :=
      ⟨_, List.getElem?_eq_getElem hq⟩
    obtain ⟨r', hr', hblock⟩ := h.tasks_of hx
    obtain rfl : r = r' := Option.some.inj (hr.symm.trans hr')
    rw [hblock.request_eq] at hfile hindex
    refine placedFiles_unique hx hp hfile ?_
    rw [← hindices x (List.mem_of_getElem? hx)]
    exact hindex
  · rintro rfl
    obtain ⟨r, hr, hblock⟩ := h.tasks_of hp
    refine ⟨r, hr, by rw [hblock.request_eq]; rfl, ?_⟩
    rw [hblock.request_eq]
    exact hindices placed (List.mem_of_getElem? hp)

/-- The cut of a request that fits, and the batches that are built from it. -/
theorem buildBatches_spec (config : Config) {request : List FileRanges} (submissionId : Nat)
    (device : Device) {a : Assigner} (ha : AssignedFor request a) :
    ∃ heap slices,
      cutTransfers config request a.transfers [] = .ok (heap, slices) ∧
      Tiled (chunkOfFile config request) 0 (placedFiles 0 request) heap slices.flatten ∧
      (∀ built, buildBatches config submissionId device request a.transfers [] = .ok built →
        Countable slices) ∧
      (Countable slices →
        ∃ batches,
          buildBatches config submissionId device request a.transfers [] =
            .ok (heap, batches) ∧
          allTasks batches = slices.flatten ∧
          ∀ batch ∈ batches, BatchFor submissionId device request a.numWorkloads batch ∧
            OwnFile heap batch ∧
            Chunked heap (config.chunkBytesize batch.isObjectStorage) batch.tasks
              batch.chunks) := by
  have hfile : ∀ t ∈ a.transfers, ∃ file,
      request[t.fileIndex]? = some file ∧ file.ranges ≠ [] := by
    intro t ht
    obtain ⟨size, sizes, hsizes⟩ := List.exists_cons_of_ne_nil (ha.sizes_ne_nil t ht)
    have hmem : ⟨t.fileIndex, t.firstRangeIndex, ⟨t.offset, size, t.destination⟩⟩ ∈
        placedFiles 0 request := by
      rw [← ha.expand_eq, List.mem_flatMap]
      refine ⟨t, ht, ?_⟩
      simp [ContiguousTransfer.expand, hsizes, expandSizes]
    obtain ⟨-, file, hget, hrange⟩ := mem_placedFiles.1 hmem
    refine ⟨file, hget, ?_⟩
    intro hnil
    simp [hnil] at hrange
  obtain ⟨heap, slices, hcut, htiled, hcountable, hbuild⟩ :=
    buildBatches_tiled config submissionId device request a.transfers [] ha.divided
      ha.size_eq ha.stop_lt hfile
  rw [ha.expand_eq] at htiled
  exact ⟨heap, slices, hcut, htiled, hcountable, hbuild⟩

/-- For a request of one backend the workloads hold exactly the batches that were built. -/
theorem buildWorkloads_spec {config : Config} {request : List FileRanges} {submissionId : Nat}
    {device : Device} {a : Assigner} {heap : List Request} {batches : List Batch}
    {plugin : Option Plugin} (hlock : lockObjectPlugin request = .ok plugin)
    (hbuild : buildBatches config submissionId device request a.transfers [] =
      .ok (heap, batches))
    (heach : ∀ batch ∈ batches, BatchFor submissionId device request a.numWorkloads batch) :
    ∃ workloads,
      buildWorkloads config submissionId device request a.transfers []
        (List.replicate a.numWorkloads Workload.empty) = .ok (heap, workloads) ∧
      workloads.length = a.numWorkloads ∧
      ∀ w workload, workloads[w]? = some workload →
        workload.batches = batches.filter fun batch => batch.workloadIndex = w := by
  obtain ⟨b, hone⟩ := oneBackend_of_lockObjectPlugin hlock
  have haccepts : ∀ w ∈ List.replicate a.numWorkloads Workload.empty,
      w.Accepts b device := by
    intro w hw
    rw [List.eq_of_mem_replicate hw]
    exact Or.inl rfl
  have hbatches : ∀ batch ∈ batches, batch.isObjectStorage = b ∧ batch.device = device ∧
      batch.tasks ≠ [] ∧
      batch.workloadIndex < (List.replicate a.numWorkloads Workload.empty).length := by
    intro batch hbatch
    have hfor := heach batch hbatch
    obtain ⟨file, hget, hranges, hkind⟩ := hfor.file
    refine ⟨?_, hfor.device_eq, hfor.tasks_ne_nil, by simpa using hfor.workload_lt⟩
    rw [hkind]
    exact hone file (List.mem_of_getElem? hget) hranges
  obtain ⟨workloads, hworkloads, hlength, hlists⟩ :=
    buildWorkloads_eq a.transfers hbuild haccepts hbatches
  refine ⟨workloads, hworkloads, by simpa using hlength, ?_⟩
  intro w workload hget
  have hlist := hlists w
  rw [hget, List.getElem?_replicate] at hlist
  split at hlist
  · simpa [Workload.empty] using hlist
  · simp at hlist

/-- Fewer than {lit}`2 ^ 32` tasks in all are as few in every batch. -/
theorem countable_of_flatten {slices : List (List Task)} (h : slices.flatten.length < 2 ^ 32) :
    Countable slices := by
  intro ts hts
  have hle : ts.length ≤ slices.flatten.length :=
    (List.sublist_flatten_of_mem hts).length_le
  omega

/--
For every request whose ranges fit, every configuration and every grouping of the files, the
division and the cut succeed.  When no batch gets {lit}`2 ^ 32` tasks, the batches are built
from exactly these tasks; for a request of one backend the workloads hold exactly these
batches.  When fewer than {lit}`2 ^ 32` tasks result, they tile the request: each range has
exactly one request object, its tasks are consecutive from the start of the range to its end,
each task writes to its place, and the counter of the request is the number of its tasks.
-/
theorem submission_tiles_request (config : Config) (request : List FileRanges)
    (groupByFile : List Int32) (submissionId : Nat) (device : Device)
    (hfits : RequestFits request) :
    ∃ a heap slices,
      makeAssigner request config groupByFile = .ok a ∧
      cutTransfers config request a.transfers [] = .ok (heap, slices) ∧
      (slices.flatten.length < 2 ^ 32 → Countable slices) ∧
      (Countable slices →
        ∃ batches,
          buildBatches config submissionId device request a.transfers [] =
            .ok (heap, batches) ∧
          allTasks batches = slices.flatten ∧
          (∀ batch ∈ batches, batch.workloadIndex < a.numWorkloads) ∧
          (∀ plugin, lockObjectPlugin request = .ok plugin →
            ∃ workloads,
              buildWorkloads config submissionId device request a.transfers []
                (List.replicate a.numWorkloads Workload.empty) = .ok (heap, workloads) ∧
              workloads.length = a.numWorkloads ∧
              ∀ w workload, workloads[w]? = some workload →
                workload.batches = batches.filter fun batch => batch.workloadIndex = w) ∧
          ((allTasks batches).length < 2 ^ 32 →
            heap.length = totalRanges request ∧
            (∀ task ∈ allTasks batches, task.request < heap.length) ∧
            ∀ fileIndex index file range, request[fileIndex]? = some file →
              file.ranges[index]? = some range →
              ∃ p r, heap[p]? = some r ∧ (∀ q, Carries heap q fileIndex index ↔ q = p) ∧
                RangeTiled heap batches range p r)) := by
  obtain ⟨a, ha, hassigned⟩ := makeAssigner_spec config groupByFile hfits
  obtain ⟨heap, slices, hcut, htiled, -, hbuilt⟩ :=
    buildBatches_spec config submissionId device hassigned
  refine ⟨a, heap, slices, ha, hcut, countable_of_flatten, fun hcountable => ?_⟩
  obtain ⟨batches, hbuild, htasks, heach⟩ := hbuilt hcountable
  rw [← htasks] at htiled
  refine ⟨batches, hbuild, htasks,
    fun batch hbatch => (heach batch hbatch).1.workload_lt, ?_, ?_⟩
  · intro plugin hlock
    exact buildWorkloads_spec hlock hbuild fun batch hbatch => (heach batch hbatch).1
  · intro hcount
    have hlength : heap.length = (placedFiles 0 request).length := htiled.length_requests
    refine ⟨hlength.trans (length_placedFiles 0 request), ?_, ?_⟩
    · intro task htask
      have hbounds := htiled.request_bounds htask
      omega
    · intro fileIndex index file range hfile hrange
      have hmem : ⟨fileIndex, index, range⟩ ∈ placedFiles 0 request :=
        mem_placedFiles.2 ⟨Nat.zero_le _, file, hfile, hrange⟩
      obtain ⟨p, hp⟩ := List.mem_iff_getElem?.1 hmem
      obtain ⟨r, hr, hblock⟩ := htiled.tasks_of hp
      rw [Nat.zero_add] at hblock
      have hindices : ∀ placed ∈ placedFiles 0 request,
          toWord 32 placed.index = placed.index := by
        intro placed hplaced
        have hlt := index_lt_length_placedFiles hplaced
        have hle := htiled.length_le
        exact toWord_of_lt (by omega)
      refine ⟨p, r, hr, carries_iff htiled hindices hp, ?_⟩
      refine rangeTiled_of_tiledRange hblock hr ?_
      exact lt_of_le_of_lt (List.length_filter_le _ _) hcount

/-- A configuration with two workers, blocks of four bytes and chunks of three. -/
def tinyConfig : Config where
  concurrency := 2
  s3Concurrency := 2
  s3BlockBytesize := 4
  fsSyncReadBlockBytesize := 4
  fsAsyncChunkBytesize := 3
  concurrency_pos := Nat.zero_lt_two
  s3Concurrency_pos := Nat.zero_lt_two
  concurrency_le := by decide
  s3Concurrency_le := by decide
  s3BlockBytesize_pos := by decide
  fsSyncReadBlockBytesize_pos := by decide
  fsAsyncChunkBytesize_pos := by decide
  s3BlockBytesize_lt := by decide
  fsAsyncChunkBytesize_lt := by decide

/-- Two files; the last range of the first one is shared by both workers. -/
def sharedRequest : List FileRanges :=
  [{ path := ['a'], ranges := [⟨5, 6, 100⟩, ⟨11, 0, 106⟩, ⟨11, 4, 106⟩] },
    { path := ['b'], ranges := [⟨0, 0, 0⟩, ⟨2, 3, 200⟩] }]

/-- The number of tasks that a request is cut into. -/
def cutCounts (config : Config) (request : List FileRanges) (groupByFile : List Int32) :
    Except Failure Nat := do
  let a ← makeAssigner request config groupByFile
  let (_, slices) ← cutTransfers config request a.transfers []
  return slices.flatten.length

theorem submission_tiles_sharedRequest :
    RequestFits sharedRequest ∧
    ∃ a heap batches p r,
      makeAssigner sharedRequest tinyConfig [] = .ok a ∧
      buildBatches tinyConfig 1 ⟨.cpu, 0⟩ sharedRequest a.transfers [] = .ok (heap, batches) ∧
      (allTasks batches).length = 10 ∧ heap[p]? = some r ∧
      RangeTiled heap batches ⟨11, 4, 106⟩ p r := by
  have hfits : RequestFits sharedRequest := by
    constructor
    · decide
    · decide
  have hcut : cutCounts tinyConfig sharedRequest [] = .ok 10 := by decide +kernel
  obtain ⟨a, heap, slices, ha, hslices, hcountable, hbuilt⟩ :=
    submission_tiles_request tinyConfig sharedRequest [] 1 ⟨.cpu, 0⟩ hfits
  simp only [cutCounts, ha, hslices, bind, Except.bind, pure, Except.pure,
    Except.ok.injEq] at hcut
  obtain ⟨batches, hbuild, htasks, -, -, htiles⟩ := hbuilt (hcountable (by omega))
  have hcount : (allTasks batches).length = 10 := by rw [htasks, hcut]
  obtain ⟨-, -, hranges⟩ := htiles (by omega)
  obtain ⟨p, r, hr, -, htiled⟩ := hranges 0 2 _ _ rfl rfl
  exact ⟨hfits, a, heap, batches, p, r, ha, hbuild, hcount, hr, htiled⟩

end Streamer
end ModelStreamer
