import ModelStreamer.Streamer.BatchesSpec
import ModelStreamer.Streamer.Relocation

/-!
# The cut in machine words

{lit}`Batches` cuts whatever it is given: file offsets are carried on modulo {lit}`2 ^ 64`, and
nothing checks that they do not wrap.  Seen from the first byte of the transfer, though, every
task has its place: the tasks follow each other from byte to byte, a task's offset is that of
its place in words, and it writes where that place is in memory.

Main results:

- Theorem {lit}`cutRange_words`: the infos of a range, wherever it starts.
- Theorem {lit}`cutTransfer_words`: the tasks of a divided transfer at their places.
- Theorem {lit}`bytesAt_le_of_cutTransfer`: no batch gets more bytes than its slice has.
- Theorem {lit}`TasksLaid.flatten_stop_lt`: batches that all go forward have not wrapped.
-/

namespace ModelStreamer
namespace Streamer

open Common Lib

theorem toWord_toWord_add (w a b : Nat) : toWord w (toWord w a + b) = toWord w (a + b) :=
  Nat.mod_add_mod a _ b

theorem toWord_lt (w n : Nat) : toWord w n < 2 ^ w :=
  Nat.mod_lt n (Nat.two_pow_pos w)

/-! ## One range -/

/-- An info at place {lit}`p` of the bytes that start at {lit}`origin`, in words. -/
structure InfoAt (c origin p : Nat) (info : TaskInfo) : Prop where
  offset_eq : info.offset = toWord 64 (origin + p)
  stop_eq : info.stop = toWord 64 (origin + p + info.bytesize)
  relative_eq : info.relativeOffset = p
  window : info.bytesize ≤ c - info.offset % c

/-- The infos of {lit}`bytes` bytes of a range, from its place {lit}`p` on. -/
structure WordCut (c origin p bytes : Nat) (infos : List TaskInfo) : Prop where
  laid : Laid TaskInfo.bytesize (InfoAt c origin) p infos
  sum_eq : (infos.map TaskInfo.bytesize).sum = bytes
  positive : 0 < bytes → ∀ info ∈ infos, 0 < info.bytesize
  single : bytes = 0 → infos.length = 1

/-- The info that one turn of the loop makes. -/
theorem infoAt_make {c origin p n : Nat}
    (hwindow : n ≤ c - toWord 64 (origin + p) % c) :
    InfoAt c origin p (TaskInfo.make (toWord 64 (origin + p)) n p) :=
  ⟨rfl, by rw [TaskInfo.make, wordAdd, toWord_toWord_add], rfl, hwindow⟩

/-- A cut of one info. -/
theorem WordCut.single_info {c origin p n : Nat}
    (hwindow : n ≤ c - toWord 64 (origin + p) % c) :
    WordCut c origin p n [TaskInfo.make (toWord 64 (origin + p)) n p] := by
  refine ⟨⟨infoAt_make hwindow, trivial⟩, by simp [TaskInfo.make], ?_, fun _ => rfl⟩
  intro hpos info hinfo
  obtain rfl := List.mem_singleton.1 hinfo
  exact hpos

/-- One info with bytes, and the cut of the bytes after it. -/
theorem WordCut.cons {c origin p n bytes : Nat} {infos : List TaskInfo}
    (hwindow : n ≤ c - toWord 64 (origin + p) % c) (hn : 0 < n) (hbytes : 0 < bytes)
    (h : WordCut c origin (p + n) bytes infos) :
    WordCut c origin p (n + bytes) (TaskInfo.make (toWord 64 (origin + p)) n p :: infos) := by
  refine ⟨⟨infoAt_make hwindow, h.laid⟩, ?_, ?_, by omega⟩
  · simp [TaskInfo.make, h.sum_eq]
  · intro _ info hinfo
    rcases List.mem_cons.1 hinfo with rfl | hmem
    · exact hn
    · exact h.positive hbytes info hmem

/-- The loop of {lit}`handle_request` ends, whatever the offsets wrap to. -/
theorem cutRange_words {c : Nat} (hc : 0 < c) (origin fuel : Nat) {itr : BatchItr}
    {p bytes : Nat} (hfuel : bytes < fuel) (hplace : p + bytes < 2 ^ 64)
    (hindex : itr.currentTaskIndex < itr.fileReadTasks.length) (hleft : bytes ≤ itr.left)
    (hslices : 0 < bytes → ∀ slice ∈ itr.fileReadTasks, 0 < slice.size) :
    ∃ infos itr', cutRange c fuel itr (toWord 64 (origin + p)) bytes p = .ok (infos, itr') ∧
      Consumed itr bytes itr' ∧
      Ascends itr.currentTaskIndex itr'.currentTaskIndex infos ∧
      WordCut c origin p bytes (infos.map Prod.snd) := by
  induction fuel generalizing itr p bytes with
  | zero => omega
  | succ fuel ih =>
      have hmod := Nat.mod_lt (toWord 64 (origin + p)) hc
      have hwant : min bytes (c - toWord 64 (origin + p) % c) ≤ itr.left := by omega
      obtain ⟨n, itr₁, hconsume, hconsumed, hn, hpos⟩ :=
        consume_spec hindex hwant (fun hlt => hslices (by omega))
      have hleft₁ := hconsumed.left_eq
      have hwindow : n ≤ c - toWord 64 (origin + p) % c := by omega
      simp only [cutRange, hconsume, bind, Except.bind]
      by_cases hmore : bytes - n > 0
      · rw [if_pos hmore]
        have hindex₁ : itr₁.currentTaskIndex < itr₁.fileReadTasks.length := by
          rw [hconsumed.slices_eq]
          exact hconsumed.index_lt
        have hslices₁ : 0 < bytes - n → ∀ slice ∈ itr₁.fileReadTasks, 0 < slice.size := by
          rw [hconsumed.slices_eq]
          exact fun _ => hslices (by omega)
        have hoffset : wordAdd 64 (toWord 64 (origin + p)) n = toWord 64 (origin + (p + n)) := by
          rw [wordAdd, toWord_toWord_add, Nat.add_assoc]
        have hrelative : wordAdd 64 p n = p + n := wordAdd_of_lt (by omega)
        have hfuel₁ : bytes - n < fuel := by omega
        have hplace₁ : p + n + (bytes - n) < 2 ^ 64 := by omega
        obtain ⟨infos, itr₂, hrest, hconsumed₂, hascends, hcut⟩ :=
          ih hfuel₁ hplace₁ hindex₁ (by omega) hslices₁
        rw [hoffset, hrelative, hrest]
        refine ⟨_, itr₂, rfl, hconsumed.trans hconsumed₂ (by omega),
          ⟨hconsumed.index_le, hascends⟩, ?_⟩
        have hcons := WordCut.cons hwindow (hpos (by omega)) hmore hcut
        rwa [show n + (bytes - n) = bytes by omega] at hcons
      · rw [if_neg hmore]
        obtain rfl : n = bytes := by omega
        exact ⟨_, itr₁, rfl, hconsumed, ⟨hconsumed.index_le, Nat.le_refl _⟩,
          WordCut.single_info hwindow⟩

/-! ## All ranges of a transfer -/

/-- The bytes of a list of tasks. -/
def bytesOf (tasks : List Task) : Nat :=
  (tasks.map fun task => task.info.bytesize).sum

@[simp]
theorem bytesOf_append (xs ys : List Task) : bytesOf (xs ++ ys) = bytesOf xs + bytesOf ys := by
  simp [bytesOf]

/-- The number of tasks without bytes. -/
def emptyTasks (tasks : List Task) : Nat :=
  tasks.countP fun task => task.info.bytesize = 0

/--
A task at place {lit}`p` of the bytes that start at {lit}`start` in the file and at {lit}`base`
in memory.
-/
structure TaskLaid (heap : List Request) (c start : Nat) (base : Addr) (p : Nat)
    (task : Task) : Prop where
  offset_eq : task.info.offset = toWord 64 (start + p)
  stop_eq : task.info.stop = toWord 64 (start + p + task.info.bytesize)
  window : task.info.bytesize ≤ c - task.info.offset % c
  destination : task.destination heap = .ok (ptrAdd base p)
  unfinished : task.finished = false

/-- The tasks of a list at their places. -/
def TasksLaid (heap : List Request) (c start : Nat) (base : Addr) : Nat → List Task → Prop :=
  Laid (fun task => task.info.bytesize) (TaskLaid heap c start base)

/-- More requests on the heap leave a task's destination where it is. -/
theorem Task.destination_append {heap : List Request} {task : Task} {dst : Addr}
    (h : task.destination heap = .ok dst) (more : List Request) :
    task.destination (heap ++ more) = .ok dst := by
  unfold Task.destination at h ⊢
  cases hget : heap[task.request]? with
  | none => simp [hget] at h
  | some request =>
      rw [hget] at h
      have hlen := (List.getElem?_eq_some_iff.1 hget).1
      rw [List.getElem?_append_left hlen, hget]
      exact h

theorem TasksLaid.append_heap {heap : List Request} {c start p : Nat} {base : Addr}
    {tasks : List Task} (h : TasksLaid heap c start base p tasks) (more : List Request) :
    TasksLaid (heap ++ more) c start base p tasks :=
  h.imp fun _ _ _ _ _ htask =>
    { htask with destination := Task.destination_append htask.destination more }

/-- The tasks made from the infos of a range that starts at byte {lit}`p` of the transfer. -/
theorem WordCut.tasksLaid {heap : List Request} {c start p size : Nat} {base : Addr}
    {infos : List TaskInfo} {request : Request} (h : WordCut c (start + p) 0 size infos)
    (hdst : request.dst = ptrAdd base p) :
    TasksLaid (heap ++ [request]) c start base p (infos.map (Task.make heap.length)) := by
  have hplaces : Laid TaskInfo.bytesize (fun q => InfoAt c start q) (p + 0)
      (infos.map fun info => { info with relativeOffset := p + info.relativeOffset }) := by
    refine laid_add.2 (laid_map.2 (h.laid.imp fun q info _ _ _ hinfo => ?_))
    refine ⟨?_, ?_, ?_, hinfo.window⟩
    · rw [hinfo.offset_eq, Nat.add_assoc]
    · rw [hinfo.stop_eq, Nat.add_assoc start p q]
    · simp only [hinfo.relative_eq]
  refine laid_map.2 ((laid_map.1 hplaces).imp fun q info _ _ _ hinfo => ?_)
  have hpointer : (heap ++ [request])[(Task.make heap.length info).request]? = some request := by
    simp [Task.make]
  refine ⟨hinfo.offset_eq, hinfo.stop_eq, hinfo.window, ?_, rfl⟩
  rw [Task.destination_of_getElem? hpointer, hdst, ptrAdd_ptrAdd]
  exact congrArg (fun q => Except.ok (ptrAdd base q)) hinfo.relative_eq

/-- The state of the build after {lit}`n` ranges of {lit}`done` bytes of a transfer. -/
structure WordInv (c : Nat) (slices : List FileReadTask) (start : Nat) (base : Addr)
    (n done : Nat) (s : BuildState) : Prop where
  slices_eq : s.itr.fileReadTasks = slices
  index_lt : s.itr.currentTaskIndex < slices.length
  length_eq : s.tasks.length = slices.length
  empty_after : EmptyAfter s.itr.currentTaskIndex s.tasks
  laid : TasksLaid s.heap c start base 0 s.tasks.flatten
  bytes_eq : bytesOf s.tasks.flatten = done
  empty_le : emptyTasks s.tasks.flatten ≤ n

section Cutting

variable {c : Nat} {slices : List FileReadTask} {start n done : Nat} {base : Addr}
  {s : BuildState}

/-- A range has at most one task without bytes. -/
theorem WordCut.emptyTasks_le {origin p size : Nat} {infos : List TaskInfo}
    (h : WordCut c origin p size infos) (request : Nat) :
    emptyTasks (infos.map (Task.make request)) ≤ 1 := by
  unfold emptyTasks
  by_cases hzero : size = 0
  · exact List.countP_le_length.trans (by simp [h.single hzero])
  · rw [List.countP_map, List.countP_eq_zero.2]
    · exact Nat.zero_le 1
    · intro info hinfo
      have hpos := h.positive (by omega) info hinfo
      have hne := Nat.ne_of_gt hpos
      simp [Task.make, hne]

/-- One range joins the build. -/
theorem handleRequest_words (hc : 0 < c) (h : WordInv c slices start base n done s)
    (fileIndex rangeIndex size : Nat) (hsize : size < 2 ^ 64) (hleft : size ≤ s.itr.left)
    (hslices : 0 < size → ∀ slice ∈ slices, 0 < slice.size) :
    ∃ s', handleRequest fileIndex rangeIndex (toWord 64 (start + done)) size
        (ptrAdd base done) c s = .ok s' ∧
      WordInv c slices start base (n + 1) (done + size) s' ∧
      s.itr.left = size + s'.itr.left := by
  obtain ⟨infos, itr', hrun, hconsumed, hascends, hword⟩ :=
    cutRange_words hc (start + done) (size + 1) (p := 0) (Nat.lt_succ_self size)
      (by omega) (h.slices_eq ▸ h.index_lt) hleft (h.slices_eq ▸ hslices)
  rw [Nat.add_zero (start + done)] at hrun
  have hindex : itr'.currentTaskIndex < slices.length := h.slices_eq ▸ hconsumed.index_lt
  obtain ⟨tasks', htasks', hlength, hempty, hflatten⟩ :=
    addTasks_spec s.heap.length infos hascends (h.length_eq ▸ hindex) h.empty_after
  have hnew : infos.map (fun info => Task.make s.heap.length info.2) =
      (infos.map Prod.snd).map (Task.make s.heap.length) := by simp
  have hbytes : bytesOf ((infos.map Prod.snd).map (Task.make s.heap.length)) = size := by
    have hsum := hword.sum_eq
    simpa [bytesOf, Task.make, Function.comp_def] using hsum
  rw [hnew] at hflatten
  simp only [handleRequest, hrun, htasks', bind, Except.bind]
  refine ⟨_, rfl, ⟨hconsumed.slices_eq.trans h.slices_eq, hindex, hlength.trans h.length_eq,
    hempty, ?_, ?_, ?_⟩, hconsumed.left_eq⟩
  · simp only [hflatten]
    refine laid_append.2 ⟨h.laid.append_heap _, ?_⟩
    rw [Nat.zero_add, show ((s.tasks.flatten).map fun task => task.info.bytesize).sum = done
      from h.bytes_eq]
    exact hword.tasksLaid rfl
  · simp only [hflatten, bytesOf_append, h.bytes_eq, hbytes]
  · have hone := hword.emptyTasks_le s.heap.length
    have hle := h.empty_le
    simp only [hflatten]
    unfold emptyTasks at hone hle ⊢
    rw [List.countP_append]
    omega

/-- The ranges join the build one after the other. -/
theorem buildRequests_words (hc : 0 < c) (fileIndex rangeIndex : Nat) (sizes : List Nat)
    (h : WordInv c slices start base n done s) (hsizes : done + sizes.sum < 2 ^ 64)
    (hleft : sizes.sum ≤ s.itr.left)
    (hslices : 0 < sizes.sum → ∀ slice ∈ slices, 0 < slice.size) :
    ∃ s', buildRequests fileIndex c rangeIndex (toWord 64 (start + done)) (ptrAdd base done)
        sizes s = .ok s' ∧
      WordInv c slices start base (n + sizes.length) (done + sizes.sum) s' := by
  induction sizes generalizing rangeIndex n done s with
  | nil => exact ⟨s, rfl, h⟩
  | cons size sizes ih =>
      rw [List.sum_cons] at hsizes hleft hslices ⊢
      obtain ⟨s₁, hs₁, hinv₁, hleft₁⟩ :=
        handleRequest_words hc h fileIndex (toWord 32 rangeIndex) size (by omega) (by omega)
          fun hlt => hslices (by omega)
      obtain ⟨s₂, hs₂, hinv₂⟩ := ih (rangeIndex + 1) hinv₁ (by omega) (by omega)
        fun hlt => hslices (by omega)
      have hoffset : wordAdd 64 (toWord 64 (start + done)) size =
          toWord 64 (start + (done + size)) := by
        rw [wordAdd, toWord_toWord_add, Nat.add_assoc]
      refine ⟨s₂, ?_, ?_⟩
      · simp only [buildRequests, hs₁, hoffset, ptrAdd_ptrAdd, bind, Except.bind]
        exact hs₂
      · rwa [List.length_cons, Nat.add_comm sizes.length 1, ← Nat.add_assoc, ← Nat.add_assoc]

end Cutting

/-- The ranges of a divided transfer are cut to the end, into tasks at their places. -/
theorem cutTransfer_words {c : Nat} (hc : 0 < c) (fileIndex : Nat) (heap : List Request)
    {t : ContiguousTransfer} (h : Sliced t) (hsize : t.size = t.rangeSizes.sum)
    (hoffset : t.offset < 2 ^ 64) (hlt : t.size < 2 ^ 64) :
    ∃ s base, cutTransfer c fileIndex t heap = .ok s ∧
      WordInv c t.tasks t.offset base t.rangeSizes.length t.size s := by
  obtain ⟨first, rest, htasks, hfirst⟩ := h.first
  have hsum := h.sum_eq
  generalize hitr : BatchItr.mk t.tasks 0 first.workloadIndex first.size = itr
  have hstart : WordInv c t.tasks t.offset first.destination 0 0
      { heap, tasks := List.replicate t.tasks.length [], itr } := by
    subst hitr
    have hnone : (List.replicate t.tasks.length ([] : List Task)).flatten = [] := by simp
    refine ⟨rfl, by simp [htasks], by simp, fun j ts _ hts => ?_, ?_, ?_, ?_⟩
    · rw [List.getElem?_replicate] at hts
      split at hts
      · exact (Option.some.inj hts).symm
      · cases hts
    · rw [hnone]
      trivial
    · rw [hnone]
      rfl
    · rw [hnone]
      exact Nat.le_refl 0
  have hleft : itr.left = t.rangeSizes.sum := by
    subst hitr
    rw [htasks, List.map_cons, List.sum_cons] at hsum
    simp only [BatchItr.left, htasks, Nat.zero_add, List.drop_succ_cons, List.drop_zero]
    omega
  obtain ⟨s, hs, hinv⟩ := buildRequests_words hc fileIndex t.firstRangeIndex t.rangeSizes
    hstart (by omega) (by simp [hleft]) fun hlt => h.positive (by omega)
  rw [Nat.add_zero, toWord_of_lt hoffset, ← hfirst, ptrAdd_zero] at hs
  refine ⟨s, first.destination, ?_, ?_⟩
  · have hmake : BatchItr.make t.tasks = .ok itr := by
      rw [← hitr, htasks]
      rfl
    have hread : itr.readTask 0 = .ok first := by
      simp [BatchItr.readTask, ← hitr, htasks]
    simp only [cutTransfer, hmake, hread, bind, Except.bind]
    exact hs
  · rwa [Nat.zero_add, Nat.zero_add, ← hsize] at hinv

/-! ## The bytes of one batch -/

section Slices

variable {heap : List Request} {c start p : Nat} {base : Addr} {tasks : List Task}

/-- A batch starts and stops where its first and its last byte are, in words. -/
theorem TasksLaid.ends (h : TasksLaid heap c start base p tasks) (hne : tasks ≠ []) :
    startOf tasks = toWord 64 (start + p) ∧
      stopOf tasks = toWord 64 (start + p + bytesOf tasks) := by
  constructor
  · cases tasks with
    | nil => exact absurd rfl hne
    | cons task rest => exact h.1.offset_eq
  · obtain ⟨q, hend, hlast⟩ := Laid.getLast h hne
    have hbytes : q + (tasks.getLast hne).info.bytesize = p + bytesOf tasks := hend
    rw [stopOf, List.getLast?_eq_getLast_of_ne_nil hne, Option.map_some, Option.getD_some,
      hlast.stop_eq]
    congr 1
    omega

/-- The tasks of a batch may be placed by the first of them. -/
theorem TasksLaid.rebase (h : TasksLaid heap c start base p tasks) :
    TasksLaid heap c (toWord 64 (start + p)) (ptrAdd base p) 0 tasks := by
  rw [TasksLaid, ← Nat.add_zero p] at h
  refine (laid_add.1 h).imp fun q task _ _ _ htask => ?_
  refine ⟨?_, ?_, htask.window, ?_, htask.unfinished⟩
  · rw [htask.offset_eq, toWord_toWord_add, Nat.add_assoc]
  · rw [htask.stop_eq, Nat.add_assoc (toWord 64 _), toWord_toWord_add]
    congr 1
    omega
  · rw [htask.destination, ptrAdd_ptrAdd]

/-- A batch that goes forward has not wrapped. -/
theorem TasksLaid.stop_lt (h : TasksLaid heap c start base p tasks) (hne : tasks ≠ [])
    (hbytes : bytesOf tasks < 2 ^ 64) (hforward : Forward tasks) :
    startOf tasks + bytesOf tasks < 2 ^ 64 ∧ stopOf tasks = startOf tasks + bytesOf tasks := by
  obtain ⟨hstart, hstop⟩ := h.ends hne
  have hlt := toWord_lt 64 (start + p)
  rw [← toWord_toWord_add, ← hstart] at hstop
  rw [← hstart] at hlt
  have hsum : startOf tasks + bytesOf tasks < 2 ^ 64 := by
    by_contra hover
    have hwrap : toWord 64 (startOf tasks + bytesOf tasks) =
        startOf tasks + bytesOf tasks - 2 ^ 64 := by
      rw [toWord, Nat.mod_eq_sub_mod (by omega), Nat.mod_eq_of_lt (by omega)]
    unfold Forward at hforward
    omega
  exact ⟨hsum, hstop.trans (toWord_of_lt hsum)⟩

/-- Batches that follow each other and all go forward have not wrapped. -/
theorem TasksLaid.flatten_stop_lt {slices : List (List Task)}
    (h : TasksLaid heap c start base p slices.flatten) (hstart : start + p < 2 ^ 64)
    (hbytes : bytesOf slices.flatten < 2 ^ 64) (hforward : ∀ ts ∈ slices, Forward ts) :
    start + p + bytesOf slices.flatten < 2 ^ 64 := by
  induction slices generalizing p with
  | nil => simpa [bytesOf] using hstart
  | cons ts slices ih =>
      rw [List.flatten_cons, bytesOf_append] at hbytes ⊢
      rw [List.flatten_cons] at h
      obtain ⟨hfirst, hrest⟩ := laid_append.1 h
      have hrest' : TasksLaid heap c start base (p + bytesOf ts) slices.flatten := hrest
      have hstep : start + (p + bytesOf ts) < 2 ^ 64 := by
        by_cases hnil : ts = []
        · subst hnil
          simpa [bytesOf] using hstart
        · have hlt := (TasksLaid.stop_lt hfirst hnil (by omega) (hforward ts (by simp))).1
          rw [(TasksLaid.ends hfirst hnil).1, toWord_of_lt hstart] at hlt
          omega
      have hlast := ih hrest' hstep (by omega) fun us hus => hforward us (by simp [hus])
      omega

/-- Windows of one byte make a task of every byte. -/
theorem TasksLaid.bytesOf_le_length (h : TasksLaid heap 1 start base p tasks) :
    bytesOf tasks ≤ tasks.length := by
  have hone : ∀ task ∈ tasks, task.info.bytesize ≤ 1 := by
    intro task htask
    obtain ⟨q, -, -, hlaid⟩ := Laid.of_mem h htask
    have hwindow := hlaid.window
    omega
  have hsum := List.sum_le_card_nsmul (tasks.map fun task => task.info.bytesize) 1
    (by simpa using hone)
  simpa [bytesOf] using hsum

end Slices

end Streamer
end ModelStreamer
