import ModelStreamer.Streamer.AssignerSpec
import ModelStreamer.Streamer.Batches
import ModelStreamer.Streamer.ChunkSpec

/-!
# The batches of a transfer tile its ranges

Every range of a transfer is cut into tasks that follow each other from the start of the
range to its end, whatever the slices and the chunk windows are.

Main results:

- Theorem {lit}`cutRange_spec`: the infos of one range tile it.
- Theorem {lit}`cutTransfer_spec`: a divided transfer is cut into the tasks of its ranges.
- Theorem {lit}`makeBatches_spec`: its batches hold exactly these tasks, in order, when no
  batch has more of them than can be counted.
-/

namespace ModelStreamer
namespace Streamer

open Common Lib

/-! ## The slice iterator -/

/-- The bytes the iterator can still hand out. -/
def BatchItr.left (itr : BatchItr) : Nat :=
  itr.currentWorkerBytesize +
    ((itr.fileReadTasks.drop (itr.currentTaskIndex + 1)).map FileReadTask.size).sum

/-- One call of {lit}`consume` that took {lit}`n` bytes. -/
structure Consumed (itr : BatchItr) (n : Nat) (itr' : BatchItr) : Prop where
  slices_eq : itr'.fileReadTasks = itr.fileReadTasks
  left_eq : itr.left = n + itr'.left
  index_le : itr.currentTaskIndex ≤ itr'.currentTaskIndex
  index_lt : itr'.currentTaskIndex < itr.fileReadTasks.length

/-- Two calls one after the other. -/
theorem Consumed.trans {itr itr₁ itr₂ : BatchItr} {m n k : Nat} (h₁ : Consumed itr m itr₁)
    (h₂ : Consumed itr₁ n itr₂) (hk : m + n = k) : Consumed itr k itr₂ := by
  have hleft₁ := h₁.left_eq
  have hleft₂ := h₂.left_eq
  refine ⟨h₂.slices_eq.trans h₁.slices_eq, by omega, h₁.index_le.trans h₂.index_le, ?_⟩
  have hlt := h₂.index_lt
  rwa [h₁.slices_eq] at hlt

/-- Moving on to the next slice loses no byte and finds bytes to take. -/
theorem advance_spec {itr : BatchItr} {want : Nat}
    (hindex : itr.currentTaskIndex < itr.fileReadTasks.length) (hwant : want ≤ itr.left)
    (hpos : 0 < want → ∀ slice ∈ itr.fileReadTasks, 0 < slice.size) :
    ∃ itr', itr.advance want = .ok itr' ∧ Consumed itr 0 itr' ∧
      (0 < want → 0 < itr'.currentWorkerBytesize) := by
  unfold BatchItr.advance
  by_cases hadvance : itr.currentWorkerBytesize = 0 ∧ want ≠ 0
  · rw [if_pos hadvance]
    obtain ⟨hzero, hne⟩ := hadvance
    have hleft : itr.left =
        ((itr.fileReadTasks.drop (itr.currentTaskIndex + 1)).map FileReadTask.size).sum := by
      rw [BatchItr.left, hzero, Nat.zero_add]
    have hnext : itr.currentTaskIndex + 1 < itr.fileReadTasks.length := by
      by_contra hge
      rw [List.drop_eq_nil_of_le (by omega)] at hleft
      simp only [List.map_nil, List.sum_nil] at hleft
      omega
    have hget : itr.fileReadTasks[itr.currentTaskIndex + 1]? =
        some itr.fileReadTasks[itr.currentTaskIndex + 1] :=
      List.getElem?_eq_getElem hnext
    simp only [BatchItr.readTask, hget, bind, Except.bind]
    refine ⟨_, rfl, ⟨rfl, ?_, Nat.le_succ _, hnext⟩, ?_⟩
    · rw [hleft, List.drop_eq_getElem_cons hnext, List.map_cons, List.sum_cons, Nat.zero_add]
      rfl
    · intro hlt
      exact hpos hlt _ (List.getElem_mem hnext)
  · rw [if_neg hadvance]
    refine ⟨itr, rfl, ⟨rfl, by omega, le_refl _, hindex⟩, ?_⟩
    omega

/-- Consuming takes at most what is wanted, and something when something is wanted. -/
theorem consume_spec {itr : BatchItr} {want : Nat}
    (hindex : itr.currentTaskIndex < itr.fileReadTasks.length) (hwant : want ≤ itr.left)
    (hpos : 0 < want → ∀ slice ∈ itr.fileReadTasks, 0 < slice.size) :
    ∃ n itr', itr.consume want = .ok (n, itr') ∧ Consumed itr n itr' ∧ n ≤ want ∧
      (0 < want → 0 < n) := by
  obtain ⟨itr₁, hadvance, hconsumed, hbytes⟩ := advance_spec hindex hwant hpos
  simp only [BatchItr.consume, hadvance, bind, Except.bind]
  refine ⟨_, _, rfl, ⟨hconsumed.slices_eq, ?_, hconsumed.index_le, hconsumed.index_lt⟩,
    Nat.min_le_right _ _, ?_⟩
  · rw [hconsumed.left_eq]
    simp only [BatchItr.left]
    omega
  · intro hlt
    have hcurrent := hbytes hlt
    omega

/-! ## The infos of one range -/

/-- The batch indices of the infos do not go down, between the two bounds. -/
def Ascends : Nat → Nat → List (Nat × TaskInfo) → Prop
  | lo, hi, [] => lo ≤ hi
  | lo, hi, (k, _) :: infos => lo ≤ k ∧ Ascends k hi infos

/--
An info of a range that starts at file offset {lit}`start`, cut at windows of {lit}`c`
bytes: its end, its place in the range and its size are right.
-/
structure CutInfo (c start size : Nat) (info : TaskInfo) : Prop where
  stop_eq : info.stop = info.offset + info.bytesize
  relative_eq : info.relativeOffset = info.offset - start
  positive : 0 < size → 0 < info.bytesize
  stop_le : info.stop ≤ windowEnd c info.offset

/-- The infos of the last {lit}`bytes` bytes of a range, from {lit}`offset` on. -/
structure RangeCut (c start size offset bytes : Nat) (infos : List TaskInfo) : Prop where
  ne_nil : infos ≠ []
  contiguous : Contiguous TaskInfo.offset TaskInfo.stop offset (offset + bytes) infos
  each : ∀ info ∈ infos, CutInfo c start size info
  single : size = 0 → infos.length = 1

/-- The next info starts at the cursor and stays inside its window. -/
theorem cutInfo_make {c start size offset n : Nat} (hc : 0 < c)
    (hwindow : n ≤ c - offset % c) (hstop : offset + n < 2 ^ 64)
    (hpos : 0 < size → 0 < n) :
    CutInfo c start size (TaskInfo.make offset n (offset - start)) := by
  have hend : wordAdd 64 offset n = offset + n := wordAdd_of_lt (by omega)
  refine ⟨hend, rfl, hpos, ?_⟩
  simp only [TaskInfo.make, hend, windowEnd]
  have hmod := Nat.mod_lt offset hc
  have hdiv := Nat.div_add_mod offset c
  rw [Nat.add_mul, Nat.one_mul, Nat.mul_comm (offset / c) c]
  omega

/--
The loop cuts the rest of a range into tasks.  Every turn with bytes left takes at least one
byte, so a turn per byte and one for an empty range are enough.
-/
theorem cutRange_spec (start : Nat) {c size : Nat} (hc : 0 < c) (fuel : Nat) {itr : BatchItr}
    {offset bytes : Nat} (hfuel : bytes < fuel)
    (hindex : itr.currentTaskIndex < itr.fileReadTasks.length) (hleft : bytes ≤ itr.left)
    (hslices : 0 < size → ∀ slice ∈ itr.fileReadTasks, 0 < slice.size)
    (hsize : 0 < size ↔ 0 < bytes) (hstart : start ≤ offset)
    (hstop : offset + bytes < 2 ^ 64) :
    ∃ infos itr', cutRange c fuel itr offset bytes (offset - start) = .ok (infos, itr') ∧
      Consumed itr bytes itr' ∧
      Ascends itr.currentTaskIndex itr'.currentTaskIndex infos ∧
      RangeCut c start size offset bytes (infos.map Prod.snd) := by
  induction fuel generalizing itr offset bytes with
  | zero => omega
  | succ fuel ih =>
      have hmod := Nat.mod_lt offset hc
      have hwant : min bytes (c - offset % c) ≤ itr.left := by omega
      obtain ⟨n, itr₁, hconsume, hconsumed, hn, hnpos⟩ :=
        consume_spec hindex hwant (fun hlt => hslices (by omega))
      have hpos : 0 < size → 0 < n := fun hlt => hnpos (by omega)
      have hinfo : CutInfo c start size (TaskInfo.make offset n (offset - start)) :=
        cutInfo_make hc (by omega) (by omega) hpos
      have hend : wordAdd 64 offset n = offset + n := wordAdd_of_lt (by omega)
      have hleft₁ := hconsumed.left_eq
      simp only [cutRange, hconsume, bind, Except.bind]
      by_cases hmore : bytes - n > 0
      · have hrelative : wordAdd 64 (offset - start) n = offset + n - start := by
          rw [wordAdd_of_lt (by omega)]
          omega
        rw [if_pos hmore, hend, hrelative]
        have hslices₁ : 0 < size → ∀ slice ∈ itr₁.fileReadTasks, 0 < slice.size := by
          rw [hconsumed.slices_eq]
          exact hslices
        have hindex₁ : itr₁.currentTaskIndex < itr₁.fileReadTasks.length := by
          rw [hconsumed.slices_eq]
          exact hconsumed.index_lt
        have hfuel₁ : bytes - n < fuel := by omega
        have hleft₂ : bytes - n ≤ itr₁.left := by omega
        have hsize₁ : 0 < size ↔ 0 < bytes - n := by omega
        have hstart₁ : start ≤ offset + n := by omega
        have hstop₁ : offset + n + (bytes - n) < 2 ^ 64 := by omega
        obtain ⟨infos, itr₂, hrest, hconsumed₂, hascends, hcut⟩ :=
          ih hfuel₁ hindex₁ hleft₂ hslices₁ hsize₁ hstart₁ hstop₁
        rw [hrest]
        refine ⟨_, itr₂, rfl, hconsumed.trans hconsumed₂ (by omega), ?_, ?_⟩
        · exact ⟨hconsumed.index_le, hascends⟩
        · refine ⟨by simp, ⟨rfl, ?_⟩, ?_, by omega⟩
          · have hchain := hcut.contiguous
            rw [show offset + n + (bytes - n) = offset + bytes by omega] at hchain
            simpa [TaskInfo.make, hend] using hchain
          · intro info hmem
            rcases List.mem_cons.1 hmem with rfl | htail
            · exact hinfo
            · exact hcut.each info htail
      · have hall : n = bytes := by omega
        rw [if_neg hmore]
        subst hall
        refine ⟨_, itr₁, rfl, hconsumed, ⟨hconsumed.index_le, le_refl _⟩, by simp, ⟨rfl, hend⟩,
          ?_, fun _ => rfl⟩
        intro info hmem
        obtain rfl := List.mem_singleton.1 hmem
        exact hinfo

/-! ## Adding tasks to their batches -/

/-- No batch after number {lit}`k` has a task yet. -/
def EmptyAfter {α : Type*} (k : Nat) (tasks : List (List α)) : Prop :=
  ∀ j ts, k < j → tasks[j]? = some ts → ts = []

theorem EmptyAfter.mono {α : Type*} {k k' : Nat} {tasks : List (List α)}
    (h : EmptyAfter k tasks) (hle : k ≤ k') : EmptyAfter k' tasks :=
  fun j ts hj hts => h j ts (by omega) hts

theorem EmptyAfter.modify {α : Type*} {k : Nat} {tasks : List (List α)}
    (h : EmptyAfter k tasks) (f : List α → List α) : EmptyAfter k (tasks.modify k f) := by
  intro j ts hj hts
  have hne : k ≠ j := by omega
  rw [List.getElem?_modify] at hts
  simp only [if_neg hne, Option.map_eq_map, Option.map_id'] at hts
  exact h j ts hj hts

/-- Adding to the last batch in use adds at the end of all tasks. -/
theorem flatten_modify_concat {α : Type*} {tasks : List (List α)} {k : Nat}
    (h : EmptyAfter k tasks) (hk : k < tasks.length) (x : α) :
    (tasks.modify k (· ++ [x])).flatten = tasks.flatten ++ [x] := by
  induction tasks generalizing k with
  | nil => simp at hk
  | cons ts rest ih =>
      cases k with
      | zero =>
          have hrest : rest.flatten = [] := by
            rw [List.flatten_eq_nil_iff]
            intro us hus
            obtain ⟨j, hj⟩ := List.mem_iff_getElem?.1 hus
            exact h (j + 1) us (Nat.succ_pos j) (by simpa using hj)
          simp [hrest]
      | succ k =>
          have hempty : EmptyAfter k rest := by
            intro j us hj hus
            exact h (j + 1) us (by omega) (by simpa using hus)
          simp only [List.modify_succ_cons, List.flatten_cons,
            ih hempty (by simpa using hk), List.append_assoc]

/-- The tasks of a request join their batches in order, after all tasks before them. -/
theorem addTasks_spec (request : Nat) (infos : List (Nat × TaskInfo)) {lo hi : Nat}
    {tasks : List (List Task)} (hascends : Ascends lo hi infos) (hhi : hi < tasks.length)
    (hempty : EmptyAfter lo tasks) :
    ∃ tasks', addTasks request infos tasks = .ok tasks' ∧
      tasks'.length = tasks.length ∧ EmptyAfter hi tasks' ∧
      tasks'.flatten = tasks.flatten ++ infos.map fun info => Task.make request info.2 := by
  induction infos generalizing lo tasks with
  | nil => exact ⟨tasks, rfl, rfl, hempty.mono hascends, by simp⟩
  | cons info infos ih =>
      obtain ⟨k, info⟩ := info
      obtain ⟨hlo, hrest⟩ := hascends
      have hle : k ≤ hi := by
        clear ih hlo
        induction infos generalizing k with
        | nil => exact hrest
        | cons info' infos ih' => exact hrest.1.trans (ih' info'.1 hrest.2)
      have hk : k < tasks.length := by omega
      have hmodify := hempty.mono hlo
      obtain ⟨tasks', htasks', hlength, hempty', hflatten⟩ :=
        ih hrest (by simpa using hhi) (hmodify.modify (· ++ [Task.make request info]))
      refine ⟨tasks', ?_, by simpa using hlength, hempty', ?_⟩
      · simp only [addTasks, assertThat_of hk]
        exact htasks'
      · rw [hflatten, flatten_modify_concat hmodify hk]
        simp

/-! ## Ranges tiled by tasks -/

/-- The request and the tasks built for one range, with the request at {lit}`p`. -/
structure TiledRange (c p : Nat) (placed : PlacedRange) (request : Request)
    (tasks : List Task) : Prop where
  request_eq : request = Request.make placed.range.offset placed.fileIndex
    (toWord 32 placed.index) tasks.length placed.range.size placed.range.dst
  tasks_eq : ∃ infos, tasks = infos.map (Task.make p) ∧
    RangeCut c placed.range.offset placed.range.size placed.range.offset placed.range.size infos

/--
The requests and tasks of a list of ranges, with the first request at {lit}`p`.  A range is
cut with the chunk size of its file.
-/
inductive Tiled (chunkOf : Nat → Nat) :
    Nat → List PlacedRange → List Request → List Task → Prop
  | nil (p : Nat) : Tiled chunkOf p [] [] []
  | cons {p : Nat} {placed : PlacedRange} {request : Request} {tasks : List Task}
      {ranges : List PlacedRange} {requests : List Request} {rest : List Task} :
      TiledRange (chunkOf placed.fileIndex) p placed request tasks →
      Tiled chunkOf (p + 1) ranges requests rest →
      Tiled chunkOf p (placed :: ranges) (request :: requests) (tasks ++ rest)

/-- The state of the build after the ranges {lit}`ranges` on top of a heap. -/
structure BuildInv (c : Nat) (heap : List Request) (slices : List FileReadTask)
    (ranges : List PlacedRange) (s : BuildState) : Prop where
  slices_eq : s.itr.fileReadTasks = slices
  index_lt : s.itr.currentTaskIndex < slices.length
  length_eq : s.tasks.length = slices.length
  empty_after : EmptyAfter s.itr.currentTaskIndex s.tasks
  tiled : ∃ requests, s.heap = heap ++ requests ∧
    Tiled (fun _ => c) heap.length ranges requests s.tasks.flatten

/-- Ranges tiled one after the other are tiled together. -/
theorem Tiled.append {chunkOf : Nat → Nat} {p : Nat} {xs ys : List PlacedRange} {rs ss : List Request}
    {ts us : List Task} (h₁ : Tiled chunkOf p xs rs ts)
    (h₂ : Tiled chunkOf (p + xs.length) ys ss us) :
    Tiled chunkOf p (xs ++ ys) (rs ++ ss) (ts ++ us) := by
  induction h₁ with
  | nil p => simpa using h₂
  | cons hrange _ ih =>
      rw [List.append_assoc]
      refine Tiled.cons hrange (ih ?_)
      rwa [List.length_cons, Nat.add_comm _ 1, ← Nat.add_assoc] at h₂

theorem Tiled.length_requests {chunkOf : Nat → Nat} {p : Nat} {xs : List PlacedRange}
    {rs : List Request} {ts : List Task} (h : Tiled chunkOf p xs rs ts) : rs.length = xs.length := by
  induction h with
  | nil => rfl
  | cons _ _ ih => simp [ih]

/-- One range becomes one request and the tasks that tile it. -/
theorem handleRequest_inv {c : Nat} (hc : 0 < c) {heap : List Request}
    {slices : List FileReadTask} {ranges : List PlacedRange} {s : BuildState}
    (h : BuildInv c heap slices ranges s) (placed : PlacedRange)
    (hleft : placed.range.size ≤ s.itr.left)
    (hslices : 0 < placed.range.size → ∀ slice ∈ slices, 0 < slice.size)
    (hstop : placed.range.offset + placed.range.size < 2 ^ 64) :
    ∃ s', handleRequest placed.fileIndex (toWord 32 placed.index) placed.range.offset
        placed.range.size placed.range.dst c s = .ok s' ∧
      BuildInv c heap slices (ranges ++ [placed]) s' ∧
      s.itr.left = placed.range.size + s'.itr.left := by
  obtain ⟨requests, hheap, htiled⟩ := h.tiled
  have hcut := cutRange_spec placed.range.offset hc (placed.range.size + 1)
    (Nat.lt_succ_self _) (h.slices_eq ▸ h.index_lt) hleft (h.slices_eq ▸ hslices)
    Iff.rfl (le_refl _) hstop
  rw [Nat.sub_self] at hcut
  obtain ⟨infos, itr', hrun, hconsumed, hascends, hrange⟩ := hcut
  have hindex : itr'.currentTaskIndex < slices.length := h.slices_eq ▸ hconsumed.index_lt
  obtain ⟨tasks', htasks', hlength, hempty, hflatten⟩ :=
    addTasks_spec s.heap.length infos hascends (h.length_eq ▸ hindex) h.empty_after
  simp only [handleRequest, hrun, htasks', bind, Except.bind]
  refine ⟨_, rfl, ⟨hconsumed.slices_eq.trans h.slices_eq, hindex, ?_, hempty, ?_⟩,
    hconsumed.left_eq⟩
  · exact hlength.trans h.length_eq
  · refine ⟨requests ++ [Request.make placed.range.offset placed.fileIndex
      (toWord 32 placed.index) infos.length placed.range.size placed.range.dst], ?_, ?_⟩
    · rw [hheap, List.append_assoc]
    · rw [hflatten]
      refine htiled.append ?_
      have hlen := htiled.length_requests
      have hsingle : infos.map (fun info => Task.make s.heap.length info.2) =
          (infos.map Prod.snd).map (Task.make (heap.length + ranges.length)) ++ [] := by
        simp [hheap, hlen]
      rw [hsingle]
      refine Tiled.cons ⟨?_, ?_⟩ (Tiled.nil _)
      · simp
      · exact ⟨infos.map Prod.snd, rfl, hrange⟩

/-- The ranges of a transfer become requests one after the other. -/
theorem buildRequests_inv {c : Nat} (fileIndex index : Nat) (hc : 0 < c)
    {heap : List Request} {slices : List FileReadTask} (sizes : List Nat) {offset : Nat}
    (dst : Addr) {ranges : List PlacedRange} {s : BuildState} (h : BuildInv c heap slices ranges s)
    (hleft : sizes.sum ≤ s.itr.left)
    (hslices : 0 < sizes.sum → ∀ slice ∈ slices, 0 < slice.size)
    (hstop : offset + sizes.sum < 2 ^ 64) :
    ∃ s', buildRequests fileIndex c index offset dst sizes s = .ok s' ∧
      BuildInv c heap slices (ranges ++ expandSizes fileIndex index offset dst sizes) s' := by
  induction sizes generalizing index offset dst ranges s with
  | nil => exact ⟨s, rfl, by simpa [expandSizes] using h⟩
  | cons size sizes ih =>
      rw [List.sum_cons] at hleft hslices hstop
      obtain ⟨s₁, hs₁, hinv₁, hleft₁⟩ :=
        handleRequest_inv hc h ⟨fileIndex, index, ⟨offset, size, dst⟩⟩ (by simp only; omega)
          (fun hlt => hslices (by simp only at hlt; omega)) (by simp only; omega)
      simp only at hs₁ hinv₁ hleft₁
      have hoffset : wordAdd 64 offset size = offset + size := wordAdd_of_lt (by omega)
      have hstop₁ : offset + size + sizes.sum < 2 ^ 64 := by omega
      obtain ⟨s₂, hs₂, hinv₂⟩ := ih (index + 1) (ptrAdd dst size) hinv₁ (by omega)
        (fun hlt => hslices (by omega)) hstop₁
      refine ⟨s₂, ?_, ?_⟩
      · simp only [buildRequests, hs₁, hoffset]
        exact hs₂
      · simpa [expandSizes] using hinv₂

/-! ## The batches -/

/-- Tasks of tiled ranges satisfy what the chunk splitter relies on. -/
theorem Tiled.windowTask {c p : Nat} {ranges : List PlacedRange} {requests : List Request}
    {tasks : List Task} (h : Tiled (fun _ => c) p ranges requests tasks)
    (hstop : ∀ placed ∈ ranges, placed.range.offset + placed.range.size < 2 ^ 63)
    (pre post : List Request) (hpre : pre.length = p) :
    ∀ task ∈ tasks, WindowTask (pre ++ requests ++ post) c task := by
  induction h generalizing pre with
  | nil => simp
  | @cons p placed request ts ranges requests rest hrange htiled ih =>
      intro task htask
      rcases List.mem_append.1 htask with hmem | hmem
      · obtain ⟨infos, rfl, hcut⟩ := hrange.tasks_eq
        obtain ⟨info, hinfo, rfl⟩ := List.mem_map.1 hmem
        have heach := hcut.each info hinfo
        have hbounds := hcut.contiguous.bounds
          (fun i hi => by have := (hcut.each i hi).stop_eq; omega) hinfo
        have hlt := hstop placed (by simp)
        refine ⟨⟨request, ?_⟩, heach.stop_eq, ?_, heach.stop_le⟩
        · simp [Task.make, ← hpre]
        · simp only [Task.make]
          omega
      · have hpre' : (pre ++ [request]).length = p + 1 := by simp [hpre]
        have hrest := ih (fun q hq => hstop q (by simp [hq])) (pre ++ [request]) hpre' task hmem
        simpa using hrest

/-- The tasks of contiguous ranges follow each other over the whole span. -/
theorem Tiled.contiguous {c p fileIndex index offset : Nat} {dst : Addr} {sizes : List Nat}
    {requests : List Request} {tasks : List Task}
    (h : Tiled (fun _ => c) p (expandSizes fileIndex index offset dst sizes) requests tasks) :
    Contiguous (fun task : Task => task.info.offset) (fun task => task.info.stop)
      offset (offset + sizes.sum) tasks := by
  induction sizes generalizing p index offset dst requests tasks with
  | nil =>
      cases h
      simp
  | cons size sizes ih =>
      cases h with
      | cons hrange htiled =>
          obtain ⟨infos, rfl, hcut⟩ := hrange.tasks_eq
          refine contiguous_append.2 ⟨offset + size, ?_, ?_⟩
          · exact contiguous_map.2 hcut.contiguous
          · have hrest := ih htiled
            rwa [Nat.add_assoc, ← List.sum_cons] at hrest

/-- What a batch of a transfer promises. -/
structure BatchOf (origin : BatchOrigin) (limit : Nat) (batch : Batch) : Prop where
  fileIndex_eq : batch.fileIndex = origin.fileIndex
  submissionId_eq : batch.submissionId = origin.submissionId
  isObjectStorage_eq : batch.isObjectStorage = origin.isObjectStorage
  device_eq : batch.device = origin.device
  workload_lt : batch.workloadIndex < limit
  tasks_ne_nil : batch.tasks ≠ []
  contiguous : Contiguous (fun task : Task => task.info.offset) (fun task => task.info.stop)
    batch.start batch.stop batch.tasks

/-- The tasks of every batch can be counted by the index of {lit}`split_into_chunks`. -/
def Countable (tasks : List (List Task)) : Prop :=
  ∀ ts ∈ tasks, ts.length < 2 ^ 32

/-- Contiguous tasks cut at the windows make a batch. -/
theorem batchMake_spec (origin : BatchOrigin) {heap : List Request} {c w limit a b : Nat}
    {tasks : List Task} (hc : 0 < c) (hc64 : c < 2 ^ 64) (hne : tasks ≠ [])
    (hcount : tasks.length < 2 ^ 32) (htasks : ∀ task ∈ tasks, WindowTask heap c task) (hw : w < limit)
    (hchain : Contiguous (fun task : Task => task.info.offset) (fun task => task.info.stop)
      a b tasks) :
    ∃ batch, Batch.make origin heap w tasks c = .ok batch ∧ BatchOf origin limit batch ∧
      Chunked heap c batch.tasks batch.chunks ∧ batch.tasks = tasks := by
  obtain ⟨chunks, hchunks⟩ := splitIntoChunks_ok hc hc64 hcount htasks hchain
  have hchunked := splitIntoChunks_chunked hc hc64 htasks hchain hchunks
  have hstart : (tasks.head?.map fun task => task.info.offset).getD 0 = a := by
    obtain ⟨task, rest, rfl⟩ := List.exists_cons_of_ne_nil hne
    exact hchain.1
  have hstop : (tasks.getLast?.map fun task => task.info.stop).getD 0 = b := by
    rw [List.getLast?_eq_getLast_of_ne_nil hne]
    exact hchain.stop_getLast hne
  have hle : a ≤ b := hchain.le fun task htask => by
    have heq := (htasks task htask).stop_eq
    omega
  simp only [Batch.make, hchunks, hstart, hstop, bind, Except.bind]
  rw [if_neg (by omega)]
  exact ⟨_, rfl, ⟨rfl, rfl, rfl, rfl, hw, hne, hchain⟩, hchunked, rfl⟩

/-- Where the first task of a batch starts. -/
def startOf (tasks : List Task) : Nat :=
  (tasks.head?.map fun task => task.info.offset).getD 0

/-- Where the last task of a batch ends. -/
def stopOf (tasks : List Task) : Nat :=
  (tasks.getLast?.map fun task => task.info.stop).getD 0

/-- A batch does not stop before it starts. -/
def Forward (tasks : List Task) : Prop :=
  startOf tasks ≤ stopOf tasks

/-- What the constructor of a batch makes of tasks it accepts. -/
theorem batchMake_cases {origin : BatchOrigin} {heap : List Request} {c w : Nat}
    {tasks : List Task} {batch : Batch} (h : Batch.make origin heap w tasks c = .ok batch) :
    ∃ chunks, splitIntoChunks heap tasks c = .ok chunks ∧ Forward tasks ∧
      batch = {
        submissionId := origin.submissionId
        workloadIndex := w
        fileIndex := origin.fileIndex
        path := origin.path
        isObjectStorage := origin.isObjectStorage
        device := origin.device
        tasks
        chunks
        start := startOf tasks
        stop := stopOf tasks
        unfinished := 0 } := by
  simp only [Batch.make, bind, Except.bind] at h
  cases hchunks : splitIntoChunks heap tasks c with
  | error failure => simp [hchunks] at h
  | ok chunks =>
      simp only [hchunks] at h
      split at h
      · cases h
      · rename_i hle
        exact ⟨chunks, rfl, Nat.le_of_not_lt hle, (Except.ok.inj h).symm⟩

/-- A turn of the closing loop that makes a batch. -/
theorem collectBatches_cons {origin : BatchOrigin} {heap : List Request} {c : Nat}
    {slice : FileReadTask} {slices : List FileReadTask} {ts : List Task}
    {tasks : List (List Task)} {batches : List Batch} (hne : ts ≠ [])
    (h : collectBatches origin heap c (slice :: slices) (ts :: tasks) = .ok batches) :
    ∃ batch rest, Batch.make origin heap slice.workloadIndex ts c = .ok batch ∧
      collectBatches origin heap c slices tasks = .ok rest ∧ batches = batch :: rest := by
  rw [collectBatches, if_neg hne] at h
  cases hbatch : Batch.make origin heap slice.workloadIndex ts c with
  | error failure => simp [hbatch, bind, Except.bind] at h
  | ok batch =>
      cases hrest : collectBatches origin heap c slices tasks with
      | error failure => simp [hbatch, hrest, bind, Except.bind] at h
      | ok rest =>
          simp only [hbatch, hrest, bind, Except.bind, pure, Except.pure,
            Except.ok.injEq] at h
          exact ⟨batch, rest, rfl, rfl, h.symm⟩

/-- The batches that the closing loop made, and the tasks they were made of. -/
structure Collected (origin : BatchOrigin) (heap : List Request) (c : Nat)
    (tasks : List (List Task)) (batches : List Batch) : Prop where
  each : ∀ ts ∈ tasks, ts = [] ∨ ∃ w batch, Batch.make origin heap w ts c = .ok batch
  made : ∀ batch ∈ batches, ∃ ts ∈ tasks, ts ≠ [] ∧
    ∃ w, Batch.make origin heap w ts c = .ok batch
  flatten_eq : batches.flatMap Batch.tasks = tasks.flatten

/-- The closing loop makes a batch of every list of tasks that has some. -/
theorem collected_of_collectBatches {origin : BatchOrigin} {heap : List Request} {c : Nat}
    {slices : List FileReadTask} {tasks : List (List Task)} {batches : List Batch}
    (hlength : tasks.length = slices.length)
    (h : collectBatches origin heap c slices tasks = .ok batches) :
    Collected origin heap c tasks batches := by
  induction slices generalizing tasks batches with
  | nil =>
      obtain rfl := List.length_eq_zero_iff.1 hlength
      cases h
      exact ⟨by simp, by simp, rfl⟩
  | cons slice slices ih =>
      obtain ⟨ts, rest, rfl⟩ :=
        List.exists_cons_of_ne_nil (List.ne_nil_of_length_eq_add_one hlength)
      have hlength' : rest.length = slices.length := by simpa using hlength
      by_cases hnil : ts = []
      · rw [collectBatches, if_pos hnil] at h
        have hrest := ih hlength' h
        subst hnil
        refine ⟨?_, ?_, by simpa using hrest.flatten_eq⟩
        · intro us hus
          rcases List.mem_cons.1 hus with rfl | hmem
          · exact .inl rfl
          · exact hrest.each us hmem
        · intro batch hbatch
          obtain ⟨us, hus, hmade⟩ := hrest.made batch hbatch
          exact ⟨us, List.mem_cons_of_mem _ hus, hmade⟩
      · obtain ⟨batch, others, hbatch, hothers, rfl⟩ := collectBatches_cons hnil h
        have hrest := ih hlength' hothers
        obtain ⟨chunks, -, -, heq⟩ := batchMake_cases hbatch
        refine ⟨?_, ?_, by simp [hrest.flatten_eq, heq]⟩
        · intro us hus
          rcases List.mem_cons.1 hus with rfl | hmem
          · exact .inr ⟨_, batch, hbatch⟩
          · exact hrest.each us hmem
        · intro other hother
          rcases List.mem_cons.1 hother with rfl | hmem
          · exact ⟨ts, List.mem_cons_self, hnil, _, hbatch⟩
          · obtain ⟨us, hus, hmade⟩ := hrest.made other hmem
            exact ⟨us, List.mem_cons_of_mem _ hus, hmade⟩

/-- When the batches were made, the tasks of every one of them can be counted. -/
theorem Collected.countable {origin : BatchOrigin} {heap : List Request} {c : Nat}
    {tasks : List (List Task)} {batches : List Batch}
    (h : Collected origin heap c tasks batches) : Countable tasks := by
  intro ts hts
  rcases h.each ts hts with rfl | ⟨w, batch, hbatch⟩
  · decide
  · obtain ⟨chunks, hchunks, -⟩ := batchMake_cases hbatch
    exact length_lt_of_splitIntoChunks hchunks

/-- When the batches were made, all of them go forward. -/
theorem Collected.forward {origin : BatchOrigin} {heap : List Request} {c : Nat}
    {tasks : List (List Task)} {batches : List Batch}
    (h : Collected origin heap c tasks batches) : ∀ ts ∈ tasks, Forward ts := by
  intro ts hts
  rcases h.each ts hts with rfl | ⟨w, batch, hbatch⟩
  · exact Nat.le_refl 0
  · obtain ⟨chunks, -, hforward, -⟩ := batchMake_cases hbatch
    exact hforward

/-- The batches hold exactly the tasks, slice by slice. -/
theorem collectBatches_spec (origin : BatchOrigin) {heap : List Request} {c limit : Nat}
    (hc : 0 < c) (hc64 : c < 2 ^ 64) (slices : List FileReadTask) {tasks : List (List Task)}
    {a b : Nat} (hlength : tasks.length = slices.length) (hcount : Countable tasks)
    (htasks : ∀ task ∈ tasks.flatten, WindowTask heap c task)
    (hslices : ∀ slice ∈ slices, slice.workloadIndex < limit)
    (hchain : Contiguous (fun task : Task => task.info.offset) (fun task => task.info.stop)
      a b tasks.flatten) :
    ∃ batches, collectBatches origin heap c slices tasks = .ok batches ∧
      (∀ batch ∈ batches, BatchOf origin limit batch ∧
        Chunked heap c batch.tasks batch.chunks) ∧
      batches.flatMap Batch.tasks = tasks.flatten := by
  induction slices generalizing tasks a with
  | nil =>
      obtain rfl := List.length_eq_zero_iff.1 hlength
      exact ⟨[], rfl, by simp, rfl⟩
  | cons slice slices ih =>
      obtain ⟨ts, rest, rfl⟩ :=
        List.exists_cons_of_ne_nil (List.ne_nil_of_length_eq_add_one hlength)
      simp only [List.flatten_cons] at htasks hchain ⊢
      obtain ⟨m, hts, hrest⟩ := contiguous_append.1 hchain
      obtain ⟨batches, hbatches, heach, hflat⟩ :=
        ih (by simpa using hlength) (fun us hus => hcount us (by simp [hus]))
          (fun task htask => htasks task (by simp [htask]))
          (fun s hs => hslices s (by simp [hs])) hrest
      by_cases hnil : ts = []
      · refine ⟨batches, ?_, heach, by simp [hflat, hnil]⟩
        simp only [collectBatches, if_pos hnil]
        exact hbatches
      · obtain ⟨batch, hbatch, hof, hchunked, heq⟩ :=
          batchMake_spec origin hc hc64 hnil (hcount ts (by simp))
            (fun task htask => htasks task (by simp [htask])) (hslices slice (by simp)) hts
        refine ⟨batch :: batches, ?_, ?_, by simp [heq, hflat]⟩
        · simp only [collectBatches, if_neg hnil, hbatch, hbatches]
          rfl
        · intro x hx
          rcases List.mem_cons.1 hx with rfl | hmem
          · exact ⟨hof, hchunked⟩
          · exact heach x hmem

theorem Config.chunkBytesize_pos (config : Config) (b : Bool) :
    0 < config.chunkBytesize b := by
  unfold Config.chunkBytesize
  split
  · exact config.s3BlockBytesize_pos
  · exact config.fsAsyncChunkBytesize_pos

theorem Config.chunkBytesize_lt (config : Config) (b : Bool) :
    config.chunkBytesize b < 2 ^ 64 := by
  unfold Config.chunkBytesize
  split
  · exact config.s3BlockBytesize_lt
  · exact config.fsAsyncChunkBytesize_lt

/-- Expanded ranges stay inside the span they were expanded from. -/
theorem expandSizes_stop_le (fileIndex : Nat) (sizes : List Nat) {index offset : Nat}
    {dst : Addr} {placed : PlacedRange}
    (h : placed ∈ expandSizes fileIndex index offset dst sizes) :
    placed.range.offset + placed.range.size ≤ offset + sizes.sum := by
  induction sizes generalizing index offset dst with
  | nil => simp [expandSizes] at h
  | cons size sizes ih =>
      rcases List.mem_cons.1 h with rfl | hmem
      · simp only [List.sum_cons]
        omega
      · have hrest := ih hmem
        rw [List.sum_cons]
        omega

/-- The build of a divided transfer passes every assertion and tiles its ranges. -/
theorem cutTransfer_spec {c : Nat} (fileIndex : Nat) (heap : List Request)
    {t : ContiguousTransfer} {limit : Nat} (hc : 0 < c) (hdivided : Divided limit t)
    (hsize : t.size = t.rangeSizes.sum) (hstop : t.offset + t.size < 2 ^ 64) :
    ∃ s, cutTransfer c fileIndex t heap = .ok s ∧
      BuildInv c heap t.tasks
        (expandSizes fileIndex t.firstRangeIndex t.offset t.destination t.rangeSizes) s := by
  have hsum := hdivided.sliced.contiguous.sum_sizes FileReadTask.size fun _ _ => rfl
  obtain ⟨first, rest, htasks⟩ := List.exists_cons_of_ne_nil hdivided.tasks_ne_nil
  have hoffset : first.offsetInFile = t.offset := by
    have hchain := hdivided.sliced.contiguous
    rw [htasks] at hchain
    exact hchain.1
  have hdst : first.destination = t.destination := by
    have heq := hdivided.sliced.destination first (by simp [htasks])
    rwa [hoffset, Nat.sub_self, ptrAdd_zero] at heq
  generalize hitr : BatchItr.mk t.tasks 0 first.workloadIndex first.size = itr
  have hstart : BuildInv c heap t.tasks []
      { heap, tasks := List.replicate t.tasks.length [], itr } := by
    subst hitr
    refine ⟨rfl, by simp [htasks], by simp, ?_, [], by simp, ?_⟩
    · intro j ts _ hts
      rw [List.getElem?_replicate] at hts
      split at hts
      · exact (Option.some.inj hts).symm
      · cases hts
    · simpa using Tiled.nil heap.length
  have hleft : itr.left = t.rangeSizes.sum := by
    subst hitr
    rw [htasks, List.map_cons, List.sum_cons] at hsum
    simp only [BatchItr.left, htasks, Nat.zero_add, List.drop_succ_cons, List.drop_zero]
    omega
  have hsumstop : t.offset + t.rangeSizes.sum < 2 ^ 64 := by omega
  obtain ⟨s, hs, hinv⟩ :=
    buildRequests_inv fileIndex t.firstRangeIndex hc t.rangeSizes t.destination hstart
      (by simp [hleft]) (fun hlt => hdivided.sliced.positive (by omega)) hsumstop
  rw [List.nil_append] at hinv
  have hmake : BatchItr.make t.tasks = .ok itr := by
    rw [← hitr, htasks]
    rfl
  have hread : itr.readTask 0 = .ok first := by
    simp [BatchItr.readTask, ← hitr, htasks]
  refine ⟨s, ?_, hinv⟩
  simp only [cutTransfer, hmake, hread, bind, Except.bind, hoffset, hdst]
  exact hs

/-- The constructor of {lit}`Batches` cuts the transfer and collects the tasks. -/
theorem makeBatches_of_cutTransfer {config : Config} {origin : BatchOrigin}
    {t : ContiguousTransfer} {heap : List Request} {s : BuildState}
    (hs : cutTransfer (config.chunkBytesize origin.isObjectStorage) origin.fileIndex t heap =
      .ok s) :
    makeBatches config origin t heap =
      (collectBatches origin s.heap (config.chunkBytesize origin.isObjectStorage) t.tasks
        s.tasks).map fun batches => (s.heap, batches) := by
  simp only [makeBatches, hs, bind, Except.bind]
  cases collectBatches origin s.heap (config.chunkBytesize origin.isObjectStorage) t.tasks
    s.tasks <;> rfl

/-- The batches of a transfer that were made are made of the tasks it was cut into. -/
theorem collected_of_makeBatches {config : Config} {origin : BatchOrigin}
    {t : ContiguousTransfer} {heap : List Request} {s : BuildState}
    {made : List Request × List Batch}
    (hs : cutTransfer (config.chunkBytesize origin.isObjectStorage) origin.fileIndex t heap =
      .ok s)
    (hlength : s.tasks.length = t.tasks.length)
    (h : makeBatches config origin t heap = .ok made) :
    made.1 = s.heap ∧
      Collected origin s.heap (config.chunkBytesize origin.isObjectStorage) s.tasks made.2 := by
  rw [makeBatches_of_cutTransfer hs] at h
  cases hbatches : collectBatches origin s.heap (config.chunkBytesize origin.isObjectStorage)
      t.tasks s.tasks with
  | error failure => simp [hbatches, Except.map] at h
  | ok batches =>
      simp only [hbatches, Except.map, Except.ok.injEq] at h
      subst h
      exact ⟨rfl, collected_of_collectBatches hlength hbatches⟩

/--
The batches of a divided transfer hold exactly the tasks it was cut into, in order, when the
tasks of each can be counted.
-/
theorem makeBatches_spec (config : Config) (origin : BatchOrigin) (heap : List Request)
    {t : ContiguousTransfer} {limit : Nat} (hdivided : Divided limit t)
    (hsize : t.size = t.rangeSizes.sum) (hstop : t.offset + t.size < 2 ^ 63)
    (hfile : origin.fileIndex = t.fileIndex) :
    ∃ s requests,
      cutTransfer (config.chunkBytesize origin.isObjectStorage) t.fileIndex t heap = .ok s ∧
      s.heap = heap ++ requests ∧ s.tasks.length = t.tasks.length ∧
      Tiled (fun _ => config.chunkBytesize origin.isObjectStorage) heap.length t.expand
        requests s.tasks.flatten ∧
      (Countable s.tasks →
        ∃ batches, makeBatches config origin t heap = .ok (s.heap, batches) ∧
          batches.flatMap Batch.tasks = s.tasks.flatten ∧
          ∀ batch ∈ batches, BatchOf origin limit batch ∧
            Chunked s.heap (config.chunkBytesize origin.isObjectStorage) batch.tasks
              batch.chunks) := by
  have hc := config.chunkBytesize_pos origin.isObjectStorage
  have hc64 := config.chunkBytesize_lt origin.isObjectStorage
  obtain ⟨s, hs, hinv⟩ := cutTransfer_spec t.fileIndex heap hc hdivided hsize (by omega)
  obtain ⟨requests, hheap, htiled⟩ := hinv.tiled
  have hranges : ∀ placed ∈ expandSizes t.fileIndex t.firstRangeIndex t.offset t.destination
      t.rangeSizes, placed.range.offset + placed.range.size < 2 ^ 63 := by
    intro placed hplaced
    have hle := expandSizes_stop_le t.fileIndex t.rangeSizes hplaced
    omega
  have hwindow := htiled.windowTask hranges heap [] rfl
  rw [List.append_nil, ← hheap] at hwindow
  refine ⟨s, requests, hs, hheap, hinv.length_eq, htiled, fun hcount => ?_⟩
  obtain ⟨batches, hbatches, heach, hflat⟩ :=
    collectBatches_spec origin hc hc64 t.tasks hinv.length_eq hcount hwindow
      hdivided.sliced.workload htiled.contiguous
  rw [← hfile] at hs
  refine ⟨batches, ?_, hflat, heach⟩
  rw [makeBatches_of_cutTransfer hs, hbatches]
  rfl

end Streamer
end ModelStreamer
