import ModelStreamer.Streamer.Submission
import ModelStreamer.Streamer.WordCut

/-!
# Ranges that wrap

Nothing checks that an offset and a size add up to less than a {lit}`size_t` holds.  The sum
is carried on modulo {lit}`2 ^ 64` by the coalescing, by the cuts at the windows and by the
ends of the tasks.  The batches of a transfer follow each other, so the wrap lies inside one
of them or at its end; that batch stops before it starts, which its constructor refuses.

Main results:

- Theorem {lit}`coalesce_words`: what coalescing does with ranges that may wrap.
- Theorem {lit}`makeBatches_refuses`: a transfer that wraps gets no batches.
- Theorem {lit}`makeBatches_terminates`: building or refusing its batches comes to an end.
-/

namespace ModelStreamer
namespace Streamer

open Common Lib

/-! ## Coalescing -/

/-- The end of the range does not fit. -/
def ReadRange.Wraps (range : ReadRange) : Prop :=
  2 ^ 64 ≤ range.offset + range.size

/-- The numbers the caller hands over are machine words. -/
def RequestWords (request : List FileRanges) : Prop :=
  ∀ file ∈ request, ∀ range ∈ file.ranges, range.offset < 2 ^ 64 ∧ range.size < 2 ^ 64

/-- A transfer that was coalesced from ranges that may wrap. -/
structure ContiguousTransfer.Loose (files : Nat) (t : ContiguousTransfer) : Prop where
  file_lt : t.fileIndex < files
  offset_lt : t.offset < 2 ^ 64
  size_eq : t.size = t.rangeSizes.sum
  tasks_eq : t.tasks = []

/-- The state of the loop after the ranges {lit}`expanded`, of the first {lit}`files` files. -/
structure LooseInv (files : Nat) (expanded : List PlacedRange) (s : CoalesceState) : Prop where
  loose : ∀ t ∈ s.transfers, t.Loose files
  sum_eq : s.totalBytes = (s.transfers.map ContiguousTransfer.size).sum
  total_eq : s.totalBytes = totalSize expanded
  total_lt : s.totalBytes < 2 ^ 64
  count_eq : (s.transfers.map fun t => t.rangeSizes.length).sum = expanded.length
  wraps : ∀ placed ∈ expanded, placed.range.Wraps →
    ∃ t ∈ s.transfers, 2 ^ 64 ≤ t.offset + t.size

section Coalescing

variable {files : Nat} {expanded : List PlacedRange} {s : CoalesceState} {range : ReadRange}

theorem LooseInv.mono (h : LooseInv files expanded s) {files' : Nat} (hle : files ≤ files')
    (openIndex : Nat) : LooseInv files' expanded { s with openIndex } :=
  ⟨fun t ht => { h.loose t ht with file_lt := ((h.loose t ht).file_lt).trans_le hle },
    h.sum_eq, h.total_eq, h.total_lt, h.count_eq, h.wraps⟩

/-- A range in a transfer of its own. -/
theorem LooseInv.opened (h : LooseInv files expanded s) {k i : Nat} (hk : k < files)
    (hoffset : range.offset < 2 ^ 64) (htotal : s.totalBytes + range.size < 2 ^ 64) :
    LooseInv files (expanded ++ [⟨k, i, range⟩])
      { transfers := s.transfers ++ [openedTransfer k i range]
        totalBytes := s.totalBytes + range.size
        openIndex := s.transfers.length } := by
  refine ⟨fun t ht => ?_, ?_, ?_, htotal, ?_, fun placed hplaced hwraps => ?_⟩
  · rcases List.mem_append.1 ht with hmem | hmem
    · exact h.loose t hmem
    · obtain rfl := List.mem_singleton.1 hmem
      exact ⟨hk, hoffset, by simp [openedTransfer], rfl⟩
  · simp [h.sum_eq, openedTransfer]
  · simp [h.total_eq]
  · simp [h.count_eq, openedTransfer]
  · rcases List.mem_append.1 hplaced with hmem | hmem
    · obtain ⟨t, ht, hover⟩ := h.wraps placed hmem hwraps
      exact ⟨t, by simp [ht], hover⟩
    · obtain rfl := List.mem_singleton.1 hmem
      exact ⟨openedTransfer k i range, by simp, hwraps⟩

/--
A range that joins the open transfer.  When the range wraps, so does the transfer: its end
was either where the range starts, or had wrapped before.
-/
theorem LooseInv.extended (h : LooseInv files expanded s) {k i : Nat}
    {current : ContiguousTransfer} (hcurrent : s.transfers[s.openIndex]? = some current)
    (hadj : current.adjacent range = true) (htotal : s.totalBytes + range.size < 2 ^ 64) :
    LooseInv files (expanded ++ [⟨k, i, range⟩])
      { s with
        transfers := s.transfers.set s.openIndex (current.extend range)
        totalBytes := s.totalBytes + range.size } := by
  have hmem := List.mem_of_getElem? hcurrent
  have hloose := h.loose current hmem
  have hle : current.size ≤ s.totalBytes := by
    rw [h.sum_eq]
    exact List.le_sum_of_mem (List.mem_map_of_mem hmem)
  have hsize : (current.extend range).size = current.size + range.size :=
    wordAdd_of_lt (by omega)
  have hoffset : (current.extend range).offset = current.offset := rfl
  have hself : current.extend range ∈ s.transfers.set s.openIndex (current.extend range) := by
    obtain ⟨hlt, -⟩ := List.getElem?_eq_some_iff.1 hcurrent
    exact List.mem_set hlt _
  simp only [ContiguousTransfer.adjacent, Bool.and_eq_true, decide_eq_true_eq] at hadj
  refine ⟨fun t ht => ?_, ?_, ?_, htotal, ?_, fun placed hplaced hwraps => ?_⟩
  · rcases List.mem_or_eq_of_mem_set ht with hold | rfl
    · exact h.loose t hold
    · exact ⟨hloose.file_lt, hloose.offset_lt,
        by rw [hsize, hloose.size_eq]; simp [ContiguousTransfer.extend], hloose.tasks_eq⟩
  · have hsize? : (s.transfers.map ContiguousTransfer.size)[s.openIndex]? =
        some current.size := by
      simp [hcurrent]
    have hsum := sum_set_add hsize? range.size
    simp only [List.map_set, hsize, hsum, h.sum_eq]
  · simp [h.total_eq]
  · have hcount? : (s.transfers.map fun t => t.rangeSizes.length)[s.openIndex]? =
        some current.rangeSizes.length := by
      simp [hcurrent]
    have hsum := sum_set_add hcount? 1
    simp only [List.map_set, ContiguousTransfer.extend, List.length_append,
      List.length_singleton, hsum, h.count_eq]
  · rcases List.mem_append.1 hplaced with hold | hnew
    · obtain ⟨t, ht, hover⟩ := h.wraps placed hold hwraps
      obtain ⟨j, hj⟩ := List.mem_iff_getElem?.1 ht
      by_cases hj' : s.openIndex = j
      · rw [← hj', hcurrent, Option.some.injEq] at hj
        subst hj
        refine ⟨current.extend range, hself, ?_⟩
        omega
      · refine ⟨t, List.mem_of_getElem? (i := j) ?_, hover⟩
        rw [List.getElem?_set_ne hj', hj]
    · obtain rfl := List.mem_singleton.1 hnew
      refine ⟨current.extend range, hself, ?_⟩
      have hnext := hadj.1
      simp only [ReadRange.Wraps] at hwraps
      by_cases hover : 2 ^ 64 ≤ current.offset + current.size
      · omega
      · rw [wordAdd_of_lt (by omega)] at hnext
        omega

/-- One range is absorbed exactly when the bytes can still be counted. -/
theorem coalesceRange_words (h : LooseInv files expanded s) {k i : Nat} (hk : k < files)
    (hword : range.offset < 2 ^ 64 ∧ range.size < 2 ^ 64) :
    if s.totalBytes + range.size < 2 ^ 64 then
      ∃ s', coalesceRange k i range s = .ok s' ∧
        LooseInv files (expanded ++ [⟨k, i, range⟩]) s'
    else coalesceRange k i range s = .error (.exception .invalidParameterError) := by
  split
  · rename_i htotal
    have hguard : ¬ s.totalBytes > sizeMax - range.size := by
      unfold sizeMax
      omega
    simp only [coalesceRange, if_neg hguard]
    cases hcurrent : s.transfers[s.openIndex]? with
    | none => exact ⟨_, rfl, h.opened hk hword.1 htotal⟩
    | some current =>
        by_cases hadj : current.adjacent range = true
        · simp only [hadj, if_true]
          exact ⟨_, rfl, h.extended hcurrent hadj htotal⟩
        · simp only [hadj]
          exact ⟨_, rfl, h.opened hk hword.1 htotal⟩
  · rename_i htotal
    have hguard : s.totalBytes > sizeMax - range.size := by
      unfold sizeMax
      omega
    rw [coalesceRange, if_pos hguard]

/-- The ranges of a file are absorbed until their bytes cannot be counted any more. -/
theorem coalesceRanges_words (ranges : List ReadRange) (h : LooseInv files expanded s)
    {k i : Nat} (hk : k < files)
    (hwords : ∀ range ∈ ranges, range.offset < 2 ^ 64 ∧ range.size < 2 ^ 64) :
    if totalSize (expanded ++ placedRanges k i ranges) < 2 ^ 64 then
      ∃ s', coalesceRanges k i ranges s = .ok s' ∧
        LooseInv files (expanded ++ placedRanges k i ranges) s'
    else coalesceRanges k i ranges s = .error (.exception .invalidParameterError) := by
  induction ranges generalizing i expanded s with
  | nil =>
      have htotal := h.total_lt
      rw [h.total_eq] at htotal
      simp only [placedRanges, List.append_nil, if_pos htotal]
      exact ⟨s, rfl, h⟩
  | cons range ranges ih =>
      have hfirst := coalesceRange_words (i := i) h hk (hwords range (by simp))
      have hsplit : expanded ++ placedRanges k i (range :: ranges) =
          (expanded ++ [⟨k, i, range⟩]) ++ placedRanges k (i + 1) ranges := by
        simp [placedRanges]
      rw [hsplit]
      by_cases htotal : s.totalBytes + range.size < 2 ^ 64
      · rw [if_pos htotal] at hfirst
        obtain ⟨s₁, hs₁, hinv₁⟩ := hfirst
        have hrest := ih (i := i + 1) hinv₁ fun r hr => hwords r (by simp [hr])
        simpa only [coalesceRanges, hs₁, bind, Except.bind] using hrest
      · rw [if_neg htotal] at hfirst
        have hover : ¬ totalSize ((expanded ++ [⟨k, i, range⟩]) ++
            placedRanges k (i + 1) ranges) < 2 ^ 64 := by
          simp only [totalSize_append, totalSize_cons, totalSize_nil, ← h.total_eq]
          omega
        rw [if_neg hover]
        simp only [coalesceRanges, hfirst, bind, Except.bind]

/-- The files are absorbed until their bytes cannot be counted any more. -/
theorem coalesceFiles_words (request : List FileRanges) (h : LooseInv files expanded s)
    {k : Nat} (hfiles : k + request.length ≤ files) (hwords : RequestWords request) :
    if totalSize (expanded ++ placedFiles k request) < 2 ^ 64 then
      ∃ s', coalesceFiles k request s = .ok s' ∧
        LooseInv files (expanded ++ placedFiles k request) s'
    else coalesceFiles k request s = .error (.exception .invalidParameterError) := by
  induction request generalizing k expanded s with
  | nil =>
      have htotal := h.total_lt
      rw [h.total_eq] at htotal
      simp only [placedFiles, List.append_nil, if_pos htotal]
      exact ⟨s, rfl, h⟩
  | cons file request ih =>
      rw [List.length_cons] at hfiles
      have hfirst := coalesceRanges_words file.ranges (i := 0)
        (h.mono (Nat.le_refl _) s.transfers.length) (show k < files by omega)
        (hwords file (by simp))
      have hsplit : expanded ++ placedFiles k (file :: request) =
          (expanded ++ placedRanges k 0 file.ranges) ++ placedFiles (k + 1) request := by
        simp [placedFiles]
      rw [hsplit]
      by_cases htotal : totalSize (expanded ++ placedRanges k 0 file.ranges) < 2 ^ 64
      · rw [if_pos htotal] at hfirst
        obtain ⟨s₁, hs₁, hinv₁⟩ := hfirst
        have hrest := ih hinv₁ (show k + 1 + request.length ≤ files by omega)
          fun f hf => hwords f (by simp [hf])
        simpa only [coalesceFiles, hs₁, bind, Except.bind] using hrest
      · rw [if_neg htotal] at hfirst
        have hover : ¬ totalSize ((expanded ++ placedRanges k 0 file.ranges) ++
            placedFiles (k + 1) request) < 2 ^ 64 := by
          rw [totalSize_append]
          omega
        rw [if_neg hover]
        simp only [coalesceFiles, hfirst, bind, Except.bind]

end Coalescing

/-- Coalescing fails exactly when the bytes cannot be counted. -/
theorem coalesce_words {request : List FileRanges} (hwords : RequestWords request) :
    if totalSize (placedFiles 0 request) < 2 ^ 64 then
      ∃ s, coalesce request = .ok s ∧
        LooseInv request.length (placedFiles 0 request) s
    else coalesce request = .error (.exception .invalidParameterError) := by
  have hstart : LooseInv request.length []
      { transfers := [], totalBytes := 0, openIndex := 0 } :=
    ⟨by simp, rfl, rfl, by decide, rfl, by simp⟩
  have h := coalesceFiles_words request hstart (k := 0) (by omega) hwords
  simpa only [coalesce, List.nil_append] using h

/-! ## Refusing -/

/-- A transfer that wraps gets no batches. -/
theorem makeBatches_refuses (config : Config) (origin : BatchOrigin) (heap : List Request)
    {t : ContiguousTransfer} (h : Sliced t) (hsize : t.size = t.rangeSizes.sum)
    (hoffset : t.offset < 2 ^ 64) (hlt : t.size < 2 ^ 64)
    (hover : 2 ^ 64 ≤ t.offset + t.size) :
    ∃ failure, makeBatches config origin t heap = .error failure := by
  obtain ⟨s, base, hs, hinv⟩ :=
    cutTransfer_words (config.chunkBytesize_pos origin.isObjectStorage) origin.fileIndex heap h
      hsize hoffset hlt
  rw [makeBatches_of_cutTransfer hs]
  cases hbatches : collectBatches origin s.heap
      (config.chunkBytesize origin.isObjectStorage) t.tasks s.tasks with
  | error failure => exact ⟨failure, rfl⟩
  | ok batches =>
      have hforward := (collected_of_collectBatches hinv.length_eq hbatches).forward
      have hbytes := hinv.bytes_eq
      have hstop := hinv.laid.flatten_stop_lt (by omega) (by omega) hforward
      omega

/-! ## Coming to an end -/

theorem destination_terminates (heap : List Request) (task : Task) :
    Terminates (task.destination heap) := by
  unfold Task.destination
  split <;> simp

theorem splitTask_terminates (heap : List Request) (c i : Nat) (task : Task) (s : SplitState) :
    Terminates (splitTask heap c i task s) := by
  refine (terminates_assertThat _).bind fun _ _ => ?_
  split
  · exact (destination_terminates heap task).bind fun _ _ => terminates_pure _
  · split
    · exact (terminates_assertThat _).bind fun _ _ => terminates_pure _
    · exact terminates_assertion

/--
The loop of {lit}`split_into_chunks` starts over for ever only when a lap leads back to the
first offset: none of its tasks has bytes.
-/
theorem emptyTasks_of_endless {heap : List Request} {c first : Nat} (tasks : List Task)
    {i d : Nat} {s : SplitState} (hd : d + bytesOf tasks < 2 ^ 64)
    (hexpected : s.expectedOffset = toWord 64 (first + d))
    (hstop : ∀ task ∈ tasks, task.info.stop = toWord 64 (task.info.offset + task.info.bytesize))
    (h : splitTasks heap c first i tasks s = .error .endless) :
    d = 0 ∧ 2 ^ 32 ≤ i + emptyTasks tasks := by
  induction tasks generalizing i d s with
  | nil => cases h
  | cons task tasks ih =>
      simp only [splitTasks, bind, Except.bind] at h
      cases htask : splitTask heap c i task s with
      | error failure =>
          rw [htask] at h
          exact absurd (htask.trans h) (splitTask_terminates heap c i task s)
      | ok s₁ =>
          simp only [htask] at h
          obtain ⟨hoffset, hstep⟩ := splitTask_cases htask
          have hnext : s₁.expectedOffset = toWord 64 (first + (d + task.info.bytesize)) := by
            have hend := hstop task (by simp)
            rw [hoffset, hexpected, toWord_toWord_add, Nat.add_assoc] at hend
            rcases hstep with ⟨-, buffer, -, rfl⟩ | ⟨-, chunk, older, -, rfl⟩
            · exact hend
            · exact hend
          have hbytes : bytesOf (task :: tasks) = task.info.bytesize + bytesOf tasks := rfl
          have hempty : task.info.bytesize = 0 →
              emptyTasks (task :: tasks) = emptyTasks tasks + 1 := fun hzero =>
            List.countP_cons_of_pos (by simpa using hzero)
          by_cases hlap : i + 1 = 2 ^ 32
          · rw [if_pos hlap] at h
            by_cases hback : first = s₁.expectedOffset
            · have hzero : d + task.info.bytesize = 0 := by
                rw [hnext, toWord] at hback
                omega
              have hcount := hempty (by omega)
              exact ⟨by omega, by omega⟩
            · simp [hback] at h
          · rw [if_neg hlap] at h
            obtain ⟨hzero, hle⟩ := ih (by omega) hnext (fun t ht => hstop t (by simp [ht])) h
            have hcount := hempty (by omega)
            exact ⟨by omega, by omega⟩

/-- The tasks of a batch: their ends are words, and few of them are empty. -/
structure EndingTasks (tasks : List Task) : Prop where
  stop_eq : ∀ task ∈ tasks,
    task.info.stop = toWord 64 (task.info.offset + task.info.bytesize)
  offset_lt : ∀ task ∈ tasks, task.info.offset < 2 ^ 64
  bytes_lt : bytesOf tasks < 2 ^ 64
  empty_lt : emptyTasks tasks < 2 ^ 32

theorem splitIntoChunks_terminates (heap : List Request) (c : Nat) {tasks : List Task}
    (h : EndingTasks tasks) : Terminates (splitIntoChunks heap tasks c) := by
  refine (terminates_assertThat _).bind fun _ _ => ?_
  cases tasks with
  | nil => exact terminates_pure _
  | cons first rest =>
      refine Terminates.bind ?_ fun s _ => ?_
      · intro hendless
        have hlt := h.offset_lt first (by simp)
        have hempty := (emptyTasks_of_endless (first :: rest) (d := 0)
          (by rw [Nat.zero_add]; exact h.bytes_lt) (toWord_of_lt hlt).symm h.stop_eq hendless).2
        have hfew := h.empty_lt
        omega
      · dsimp only
        split <;> exact terminates_pure _

theorem batchMake_terminates (origin : BatchOrigin) (heap : List Request) (w c : Nat)
    {tasks : List Task} (h : EndingTasks tasks) :
    Terminates (Batch.make origin heap w tasks c) := by
  refine (splitIntoChunks_terminates heap c h).bind fun _ _ => ?_
  dsimp only
  split
  · exact terminates_exception _
  · exact terminates_pure _

theorem collectBatches_terminates (origin : BatchOrigin) (heap : List Request) (c : Nat)
    (slices : List FileReadTask) {tasks : List (List Task)}
    (h : ∀ ts ∈ tasks, EndingTasks ts) : Terminates (collectBatches origin heap c slices tasks) := by
  induction slices generalizing tasks with
  | nil => exact terminates_ok _
  | cons slice slices ih =>
      cases tasks with
      | nil => exact terminates_ok _
      | cons ts tasks =>
          have hrest : Terminates (collectBatches origin heap c slices tasks) :=
            ih fun us hus => h us (List.mem_cons_of_mem ts hus)
          rw [collectBatches]
          split
          · exact hrest
          · exact (batchMake_terminates origin heap _ c (h ts (by simp))).bind fun _ _ =>
              hrest.bind fun _ _ => terminates_pure _

/-- The batches of a transfer with fewer than {lit}`2 ^ 32` ranges are built, or refused. -/
theorem makeBatches_terminates (config : Config) (origin : BatchOrigin) (heap : List Request)
    {t : ContiguousTransfer} (h : Sliced t) (hsize : t.size = t.rangeSizes.sum)
    (hoffset : t.offset < 2 ^ 64) (hlt : t.size < 2 ^ 64)
    (hcount : t.rangeSizes.length < 2 ^ 32) : Terminates (makeBatches config origin t heap) := by
  obtain ⟨s, base, hs, hinv⟩ :=
    cutTransfer_words (config.chunkBytesize_pos origin.isObjectStorage) origin.fileIndex heap h
      hsize hoffset hlt
  have hending : ∀ ts ∈ s.tasks, EndingTasks ts := by
    intro ts hts
    obtain ⟨p, -, hle, hlaid⟩ := Laid.of_flatten hinv.laid hts
    have hplaced : ∀ task ∈ ts, ∃ q,
        TaskLaid s.heap (config.chunkBytesize origin.isObjectStorage) t.offset base q task :=
      fun task htask => by
        obtain ⟨q, -, -, hq⟩ := hlaid.of_mem htask
        exact ⟨q, hq⟩
    refine ⟨fun task htask => ?_, fun task htask => ?_, ?_, ?_⟩
    · obtain ⟨q, hq⟩ := hplaced task htask
      rw [hq.stop_eq, hq.offset_eq, toWord_toWord_add]
    · obtain ⟨q, hq⟩ := hplaced task htask
      rw [hq.offset_eq]
      exact toWord_lt 64 _
    · have hbytes : (s.tasks.flatten.map fun task => task.info.bytesize).sum = t.size :=
        hinv.bytes_eq
      unfold bytesOf
      omega
    · have hfew := hinv.empty_le
      have hsub : emptyTasks ts ≤ emptyTasks s.tasks.flatten :=
        (List.sublist_flatten_of_mem hts).countP_le
      omega
  rw [makeBatches_of_cutTransfer hs]
  intro hendless
  cases hbatches : collectBatches origin s.heap
      (config.chunkBytesize origin.isObjectStorage) t.tasks s.tasks with
  | error failure =>
      rw [hbatches] at hendless
      have hfailure := Except.error.inj hendless
      subst hfailure
      exact collectBatches_terminates origin s.heap _ t.tasks hending hbatches
  | ok batches =>
      rw [hbatches] at hendless
      cases hendless

end Streamer
end ModelStreamer
