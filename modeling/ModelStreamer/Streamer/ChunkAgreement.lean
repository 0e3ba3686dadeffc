import ModelStreamer.Streamer.SubmissionTiling
import ModelStreamer.Streamer.WordCut

/-!
# Chunks agree with the task cut

The tasks of a transfer are cut at the chunk windows by a remainder, and grouped into chunks
by a running window end.  Whenever the end of the last task of a batch and one more window fit
a {lit}`size_t`, the two agree: the chunks tile the bytes of the batch one window each, their
spans tile its tasks, and a task's destination is found from its chunk.  The index of the
grouping loop is an {lit}`unsigned`, though: a batch of {lit}`2 ^ 32` tasks gets no chunks.

Main results:

- Theorem {lit}`splitTask_agrees`: one turn of the splitter keeps the agreement.
- Theorem {lit}`chunks_agree_iff`: the chunks of every batch of transfers that were divided,
  wherever these lie.
-/

namespace ModelStreamer
namespace Streamer

open Common Lib

/-! ## Agreement -/

/-- The end of a chunk's bytes. -/
def Chunk.stop (chunk : Chunk) : Nat :=
  chunk.offset + chunk.bytesize

/-- The end of a chunk's span of tasks. -/
def Chunk.spanEnd (chunk : Chunk) : Nat :=
  chunk.firstTask + chunk.taskCount

/-- The tasks of a chunk's span lie in its bytes, and in memory where the chunk says. -/
structure ChunkAgrees (heap : List Request) (c : Nat) (tasks : List Task) (chunk : Chunk) :
    Prop where
  window_start : chunk.offset / c * c ≤ chunk.offset
  window_stop : chunk.stop ≤ (chunk.offset / c + 1) * c
  inside : ∀ j task, chunk.firstTask ≤ j → j < chunk.spanEnd → tasks[j]? = some task →
    chunk.offset ≤ task.info.offset ∧ task.info.stop ≤ chunk.stop
  destination : ∀ j task, chunk.firstTask ≤ j → j < chunk.spanEnd → tasks[j]? = some task →
    task.destination heap =
      .ok (ptrAdd chunk.buffer (task.info.offset - chunk.offset))

/-- The chunks of a batch agree with the cut of its tasks. -/
structure ChunksAgree (heap : List Request) (c : Nat) (batch : Batch) : Prop where
  bytes : Contiguous Chunk.offset Chunk.stop batch.start batch.stop batch.chunks
  positive : ∀ chunk ∈ batch.chunks, 0 < chunk.bytesize
  each : ∀ chunk ∈ batch.chunks, ChunkAgrees heap c batch.tasks chunk
  windows : batch.chunks.Pairwise fun x y => x.offset / c < y.offset / c
  spans : batch.chunks ≠ [] →
    Contiguous Chunk.firstTask Chunk.spanEnd 0 batch.tasks.length batch.chunks
  empty_iff : batch.chunks = [] ↔ ∀ task ∈ batch.tasks, task.info.bytesize = 0

/-! ## One turn -/

/--
A task that was cut inside its window, one window before the end of a {lit}`size_t`, and whose
destination is that of the byte {lit}`origin` shifted.
-/
structure CutTask (heap : List Request) (c origin : Nat) (base : Addr) (task : Task) : Prop where
  stop_eq : task.info.stop = task.info.offset + task.info.bytesize
  stop_lt : task.info.stop + c < 2 ^ 64
  stop_le : task.info.stop ≤ windowEnd c task.info.offset
  origin_le : origin ≤ task.info.offset
  destination : task.destination heap = .ok (ptrAdd base (task.info.offset - origin))

/-- A chunk of the splitter, with its place in memory relative to the byte {lit}`origin`. -/
structure OpenChunk (c origin : Nat) (base : Addr) (tasks : List Task) (chunk : Chunk) :
    Prop where
  window : chunk.stop ≤ windowEnd c chunk.offset
  origin_le : origin ≤ chunk.offset
  buffer : chunk.buffer = ptrAdd base (chunk.offset - origin)
  inside : ∀ j task, chunk.firstTask ≤ j → j < chunk.spanEnd → tasks[j]? = some task →
    chunk.offset ≤ task.info.offset ∧ task.info.stop ≤ chunk.stop

/-- The splitter after the first {lit}`i` of the tasks, which start at {lit}`a`. -/
structure AgreeInv (c origin a : Nat) (base : Addr) (tasks : List Task) (i : Nat)
    (s : SplitState) : Prop where
  bytes : Contiguous Chunk.offset Chunk.stop a s.expectedOffset s.chunks.reverse
  spans : Contiguous Chunk.firstTask Chunk.spanEnd 0 i s.chunks.reverse
  each : ∀ chunk ∈ s.chunks, OpenChunk c origin base tasks chunk
  windows : s.chunks.Pairwise fun x y => y.offset / c < x.offset / c
  current : ∀ chunk older, s.chunks = chunk :: older →
    s.chunkEnd = windowEnd c chunk.offset ∧ (older ≠ [] → 0 < chunk.bytesize) ∧
      ∀ x ∈ older, 0 < x.bytesize
  expected_lt : s.expectedOffset + c < 2 ^ 64

/-- The window after an offset ends one window further at most. -/
theorem windowEnd_le_add {c : Nat} (offset : Nat) : windowEnd c offset ≤ offset + c := by
  have hle := Nat.div_mul_le_self offset c
  unfold windowEnd
  rw [Nat.add_mul, Nat.one_mul]
  omega

/-- An offset at or after the end of a window lies in a later window. -/
theorem div_lt_div_of_windowEnd_le {c a b : Nat} (hc : 0 < c) (h : windowEnd c a ≤ b) :
    a / c < b / c :=
  Nat.lt_of_succ_le ((Nat.le_div_iff_mul_le hc).2 h)

section Turn

variable {heap : List Request} {c origin a i : Nat} {base : Addr} {tasks : List Task}
  {task : Task} {s : SplitState}

/-- The chunk opened last ends where the next task is expected, and its span ends there. -/
theorem AgreeInv.last (h : AgreeInv c origin a base tasks i s) {chunk : Chunk}
    {older : List Chunk} (hchunks : s.chunks = chunk :: older) :
    chunk.stop = s.expectedOffset ∧ chunk.spanEnd = i := by
  have hbytes := h.bytes
  have hspans := h.spans
  rw [hchunks, List.reverse_cons] at hbytes hspans
  obtain ⟨_, -, hlast⟩ := contiguous_append.1 hbytes
  obtain ⟨_, -, hlast'⟩ := contiguous_append.1 hspans
  exact ⟨hlast.2, hlast'.2⟩

/-- A chunk opened for a task. -/
theorem CutTask.openChunk {j : Nat} (h : CutTask heap c origin base task)
    (hget : tasks[j]? = some task) :
    OpenChunk c origin base tasks
      ⟨task.info.offset, task.info.bytesize,
        ptrAdd base (task.info.offset - origin), j, 1⟩ := by
  have hstop := h.stop_eq
  refine ⟨?_, h.origin_le, rfl, ?_⟩
  · simp only [Chunk.stop]
    rw [← hstop]
    exact h.stop_le
  · intro k other hlow hhigh hother
    simp only [Chunk.spanEnd] at hlow hhigh
    obtain rfl : k = j := by omega
    obtain rfl := Option.some.inj (hget.symm.trans hother)
    simp only [Chunk.stop]
    omega

/-- A turn that opens a chunk. -/
theorem AgreeInv.start (hc : 0 < c) (h : AgreeInv c origin a base tasks i s)
    (hget : tasks[i]? = some task) (htask : CutTask heap c origin base task)
    (hoffset : task.info.offset = s.expectedOffset)
    (hstart : startsAChunk s task.info = true) :
    AgreeInv c origin a base tasks (i + 1)
      { chunks := ⟨task.info.offset, task.info.bytesize,
          ptrAdd base (task.info.offset - origin), i, 1⟩ :: s.chunks
        chunkEnd := toWord 64 (windowEnd c task.info.offset)
        expectedOffset := task.info.stop } := by
  have hstop := htask.stop_eq
  have hlt := htask.stop_lt
  -- a second chunk is opened by a task with bytes, past the window of the last one
  have hlater : ∀ chunk older, s.chunks = chunk :: older →
      0 < task.info.bytesize ∧ windowEnd c chunk.offset ≤ task.info.offset := by
    intro chunk older hchunks
    have hend := (h.current chunk older hchunks).1
    simp only [startsAChunk, hchunks, List.isEmpty_cons, Bool.false_or, Bool.and_eq_true,
      decide_eq_true_eq] at hstart
    omega
  constructor
  · simp only [List.reverse_cons]
    have hconcat := h.bytes.concat
      (x := (⟨task.info.offset, task.info.bytesize,
        ptrAdd base (task.info.offset - origin), i, 1⟩ : Chunk)) hoffset
    rwa [Chunk.stop, ← hstop] at hconcat
  · simp only [List.reverse_cons]
    exact h.spans.concat
      (x := (⟨task.info.offset, task.info.bytesize,
        ptrAdd base (task.info.offset - origin), i, 1⟩ : Chunk)) rfl
  · intro chunk hchunk
    rcases List.mem_cons.1 hchunk with rfl | hmem
    · exact htask.openChunk hget
    · exact h.each chunk hmem
  · refine List.pairwise_cons.2 ⟨fun x hx => ?_, h.windows⟩
    obtain ⟨chunk, older, hchunks⟩ := List.exists_cons_of_ne_nil (List.ne_nil_of_mem hx)
    have hlast := div_lt_div_of_windowEnd_le hc (hlater chunk older hchunks).2
    rw [hchunks] at hx
    rcases List.mem_cons.1 hx with rfl | hmem
    · exact hlast
    · have hwindows := h.windows
      rw [hchunks] at hwindows
      exact (List.rel_of_pairwise_cons hwindows hmem).trans hlast
  · intro chunk older hcons
    obtain ⟨rfl, rfl⟩ := List.cons.inj hcons
    have hle := @windowEnd_le_add c task.info.offset
    refine ⟨toWord_of_lt (by omega), ?_, ?_⟩
    · intro hne
      obtain ⟨last, rest, hchunks⟩ := List.exists_cons_of_ne_nil hne
      exact (hlater last rest hchunks).1
    · intro x hx
      obtain ⟨last, rest, hchunks⟩ := List.exists_cons_of_ne_nil (List.ne_nil_of_mem hx)
      have hstop' := (h.last hchunks).1
      have hafter := (hlater last rest hchunks).2
      have hinside := lt_windowEnd hc last.offset
      rw [hchunks] at hx
      rcases List.mem_cons.1 hx with rfl | hmem
      · -- an empty chunk ends before its window does, so the task would belong to it
        unfold Chunk.stop at hstop'
        omega
      · exact (h.current last rest hchunks).2.2 x hmem
  · exact hlt

/-- A turn that extends the chunk opened last. -/
theorem AgreeInv.extend {chunk : Chunk} {older : List Chunk}
    (h : AgreeInv c origin a base tasks i s) (hget : tasks[i]? = some task)
    (htask : CutTask heap c origin base task) (hoffset : task.info.offset = s.expectedOffset)
    (hchunks : s.chunks = chunk :: older) (hle : task.info.stop ≤ windowEnd c chunk.offset) :
    AgreeInv c origin a base tasks (i + 1)
      { s with
        chunks :=
          { chunk with
            bytesize := chunk.bytesize + task.info.bytesize
            taskCount := chunk.taskCount + 1 } :: older
        expectedOffset := task.info.stop } := by
  have hstop := htask.stop_eq
  obtain ⟨hend, hspan⟩ := h.last hchunks
  have hold := h.each chunk (by simp [hchunks])
  have hbytes := h.bytes
  have hspans := h.spans
  have hwindows := h.windows
  rw [hchunks, List.reverse_cons] at hbytes hspans
  rw [hchunks] at hwindows
  unfold Chunk.stop at hend
  unfold Chunk.spanEnd at hspan
  constructor
  · obtain ⟨m, hfirst, hlast, -⟩ := contiguous_append.1 hbytes
    simp only [List.reverse_cons]
    refine contiguous_append.2 ⟨m, hfirst, hlast, ?_⟩
    simp only [Chunk.stop, contiguous_nil]
    omega
  · obtain ⟨m, hfirst, hlast, -⟩ := contiguous_append.1 hspans
    simp only [List.reverse_cons]
    refine contiguous_append.2 ⟨m, hfirst, hlast, ?_⟩
    simp only [Chunk.spanEnd, contiguous_nil]
    omega
  · intro x hx
    rcases List.mem_cons.1 hx with rfl | hmem
    · refine ⟨?_, hold.origin_le, hold.buffer, ?_⟩
      · simp only [Chunk.stop]
        omega
      · intro j other hlow hhigh hother
        simp only [Chunk.spanEnd, Chunk.stop] at hlow hhigh ⊢
        by_cases heq : j = i
        · subst heq
          obtain rfl := Option.some.inj (hget.symm.trans hother)
          omega
        · have hinside := hold.inside j other hlow (by unfold Chunk.spanEnd; omega) hother
          unfold Chunk.stop at hinside
          omega
    · exact h.each x (by simp [hchunks, hmem])
  · exact List.pairwise_cons.2 (List.pairwise_cons.1 hwindows)
  · intro x rest hcons
    obtain ⟨rfl, rfl⟩ := List.cons.inj hcons
    obtain ⟨hwindow, hpos, hrest⟩ := h.current chunk older hchunks
    refine ⟨hwindow, fun hne => ?_, hrest⟩
    have hlast := hpos hne
    simp only
    omega
  · exact htask.stop_lt

/-- One turn of the splitter on a task cut at the windows. -/
theorem splitTask_agrees (hc : 0 < c) (h : AgreeInv c origin a base tasks i s)
    (hget : tasks[i]? = some task) (htask : CutTask heap c origin base task)
    (hoffset : task.info.offset = s.expectedOffset) :
    ∃ s', splitTask heap c i task s = .ok s' ∧ AgreeInv c origin a base tasks (i + 1) s' ∧
      s'.expectedOffset = task.info.stop := by
  have hstop := htask.stop_eq
  have hlt := htask.stop_lt
  simp only [splitTask, assertThat_of hoffset, bind, Except.bind]
  by_cases hstart : startsAChunk s task.info = true
  · rw [if_pos hstart, htask.destination]
    exact ⟨_, rfl, h.start hc hget htask hoffset hstart, rfl⟩
  · rw [if_neg hstart]
    cases hchunks : s.chunks with
    | nil => simp [startsAChunk, hchunks] at hstart
    | cons chunk older =>
        have hend := (h.last hchunks).1
        have hwindow := (h.current chunk older hchunks).1
        have hinside := (h.each chunk (by simp [hchunks])).window
        unfold Chunk.stop at hend hinside
        have hle : task.info.stop ≤ windowEnd c chunk.offset := by
          by_cases hzero : task.info.bytesize = 0
          · omega
          · have hbefore : task.info.offset < windowEnd c chunk.offset := by
              simp only [startsAChunk, hchunks, List.isEmpty_cons, Bool.false_or,
                Bool.and_eq_true, decide_eq_true_eq, not_and] at hstart
              omega
            rw [← windowEnd_eq hc (by omega) hbefore]
            exact htask.stop_le
        have hbytes : wordAdd 64 chunk.bytesize task.info.bytesize =
            chunk.bytesize + task.info.bytesize := wordAdd_of_lt (by omega)
        have hsum : wordAdd 64 chunk.offset (chunk.bytesize + task.info.bytesize) ≤
            s.chunkEnd := by
          rw [wordAdd_of_lt (by omega), hwindow]
          omega
        simp only [hbytes, assertThat_of hsum]
        exact ⟨_, rfl, h.extend hget htask hoffset hchunks hle, rfl⟩

end Turn

/-! ## A list of tasks -/

/-- The splitter on contiguous tasks cut at the windows. -/
theorem splitTasks_agree {heap : List Request} {c origin a : Nat} {base : Addr}
    {all : List Task} (first : Nat) (hc : 0 < c) (tasks : List Task) {i b : Nat} {s : SplitState}
    (h : AgreeInv c origin a base all i s) (hcount : i + tasks.length < 2 ^ 32)
    (hdrop : all.drop i = tasks)
    (htasks : ∀ task ∈ tasks, CutTask heap c origin base task)
    (hchain : Contiguous (fun task : Task => task.info.offset) (fun task => task.info.stop)
      s.expectedOffset b tasks) :
    ∃ s', splitTasks heap c first i tasks s = .ok s' ∧
      AgreeInv c origin a base all (i + tasks.length) s' ∧ s'.expectedOffset = b := by
  induction tasks generalizing i s with
  | nil => exact ⟨s, rfl, h, hchain⟩
  | cons task tasks ih =>
      have hget : all[i]? = some task := by
        have hhead := congrArg List.head? hdrop
        rwa [List.head?_drop] at hhead
      have hdrop₁ : all.drop (i + 1) = tasks := by
        have htail := congrArg List.tail hdrop
        rwa [List.tail_drop] at htail
      obtain ⟨s₁, hs₁, hinv₁, hexpected⟩ :=
        splitTask_agrees hc h hget (htasks task (by simp)) hchain.1
      have hrest := hchain.2
      simp only [← hexpected] at hrest
      rw [List.length_cons] at hcount
      obtain ⟨s₂, hs₂, hinv₂, hb⟩ :=
        ih hinv₁ (by omega) hdrop₁ (fun t ht => htasks t (by simp [ht])) hrest
      refine ⟨s₂, ?_, ?_, hb⟩
      · rw [splitTasks_cons hs₁ (by omega)]
        exact hs₂
      · rw [List.length_cons, Nat.add_comm tasks.length 1, ← Nat.add_assoc]
        exact hinv₂

/-- Every chunk of the splitter agrees with its tasks. -/
theorem OpenChunk.agrees {heap : List Request} {c origin : Nat} {base : Addr}
    {tasks : List Task} {chunk : Chunk} (h : OpenChunk c origin base tasks chunk)
    (htasks : ∀ task ∈ tasks, CutTask heap c origin base task) :
    ChunkAgrees heap c tasks chunk := by
  refine ⟨Nat.div_mul_le_self _ _, h.window, h.inside, ?_⟩
  intro j task hlow hhigh hget
  have hle := (h.inside j task hlow hhigh hget).1
  have horigin := h.origin_le
  rw [(htasks task (List.mem_of_getElem? hget)).destination, h.buffer, ptrAdd_ptrAdd,
    show chunk.offset - origin + (task.info.offset - chunk.offset) =
      task.info.offset - origin by omega]

/-- Contiguous tasks have no bytes exactly when their span has none. -/
theorem bytesize_eq_zero_iff {tasks : List Task} {a b : Nat}
    (hchain : Contiguous (fun task : Task => task.info.offset) (fun task => task.info.stop)
      a b tasks)
    (hstop : ∀ task ∈ tasks, task.info.stop = task.info.offset + task.info.bytesize) :
    (∀ task ∈ tasks, task.info.bytesize = 0) ↔ a = b := by
  have hsum := hchain.sum_sizes (fun task : Task => task.info.bytesize) hstop
  have hzero : (tasks.map fun task : Task => task.info.bytesize).sum = 0 ↔
      ∀ task ∈ tasks, task.info.bytesize = 0 := by
    simp [List.sum_eq_zero_iff]
  rw [← hzero]
  omega

/-- What the splitter returns for a batch that spans the tasks. -/
structure SplitAgrees (heap : List Request) (c a b : Nat) (tasks : List Task)
    (chunks : List Chunk) : Prop where
  bytes : Contiguous Chunk.offset Chunk.stop a b chunks
  positive : ∀ chunk ∈ chunks, 0 < chunk.bytesize
  each : ∀ chunk ∈ chunks, ChunkAgrees heap c tasks chunk
  windows : chunks.Pairwise fun x y => x.offset / c < y.offset / c
  spans : chunks ≠ [] →
    Contiguous Chunk.firstTask Chunk.spanEnd 0 tasks.length chunks
  empty_iff : chunks = [] ↔ ∀ task ∈ tasks, task.info.bytesize = 0

/-- Chunks with bytes that tile a span are absent exactly when the span is empty. -/
theorem chunks_eq_nil_iff {a b : Nat} {chunks : List Chunk}
    (hbytes : Contiguous Chunk.offset Chunk.stop a b chunks)
    (hpos : ∀ chunk ∈ chunks, 0 < chunk.bytesize) : chunks = [] ↔ a = b := by
  constructor
  · rintro rfl
    exact hbytes
  · intro heq
    by_contra hne
    obtain ⟨chunk, rest, rfl⟩ := List.exists_cons_of_ne_nil hne
    have hle := hbytes.bounds (fun x _ => Nat.le_add_right _ _) (List.mem_cons_self)
    have hlt := hpos chunk (by simp)
    unfold Chunk.stop at hle
    omega

/--
The splitter accepts contiguous tasks cut at the windows that its index can count, and its
chunks agree with them.
-/
theorem splitIntoChunks_agrees {heap : List Request} {c origin a b : Nat} {base : Addr}
    {tasks : List Task} (hc : 0 < c) (hne : tasks ≠ []) (hcount : tasks.length < 2 ^ 32)
    (htasks : ∀ task ∈ tasks, CutTask heap c origin base task)
    (hchain : Contiguous (fun task : Task => task.info.offset) (fun task => task.info.stop)
      a b tasks) :
    ∃ chunks, splitIntoChunks heap tasks c = .ok chunks ∧
      SplitAgrees heap c a b tasks chunks := by
  have hpos : c ≠ 0 := by omega
  obtain ⟨first, rest, rfl⟩ := List.exists_cons_of_ne_nil hne
  have hfirst := htasks first (by simp)
  have ha : first.info.offset = a := hchain.1
  have hstart : AgreeInv c origin a base (first :: rest) 0
      { chunks := [], chunkEnd := 0, expectedOffset := first.info.offset } := by
    have hstop := hfirst.stop_eq
    have hlt := hfirst.stop_lt
    refine ⟨ha.symm, rfl, by simp, by simp, by simp, ?_⟩
    simp only
    omega
  obtain ⟨s, hs, h, hb⟩ := splitTasks_agree first.info.offset hc (first :: rest)
    hstart (by rwa [Nat.zero_add]) rfl htasks (b := b) ⟨rfl, hchain.2⟩
  rw [Nat.zero_add] at h
  have hbytes := h.bytes
  rw [hb] at hbytes
  have hstops : ∀ task ∈ first :: rest,
      task.info.stop = task.info.offset + task.info.bytesize :=
    fun task htask => (htasks task htask).stop_eq
  have hzero := bytesize_eq_zero_iff hchain hstops
  simp only [splitIntoChunks, assertThat_of hpos, bind, Except.bind, hs]
  have hall : (∀ chunk ∈ s.chunks, 0 < chunk.bytesize) →
      SplitAgrees heap c a b (first :: rest) s.chunks.reverse := by
    intro hpositive
    have hpositive' : ∀ chunk ∈ s.chunks.reverse, 0 < chunk.bytesize :=
      fun chunk hchunk => hpositive chunk (List.mem_reverse.1 hchunk)
    exact ⟨hbytes, hpositive',
      fun chunk hchunk => (h.each chunk (List.mem_reverse.1 hchunk)).agrees htasks,
      List.pairwise_reverse.2 h.windows, fun _ => h.spans,
      (chunks_eq_nil_iff hbytes hpositive').trans hzero.symm⟩
  split
  · rename_i chunk hone
    rw [hone] at hbytes hall
    by_cases hempty : chunk.bytesize = 0
    · -- the one chunk has no bytes, so the batch has none
      have hab : a = b := by
        have hoffset : chunk.offset = a := hbytes.1
        have hend : chunk.stop = b := hbytes.2
        unfold Chunk.stop at hend
        omega
      rw [if_pos hempty]
      exact ⟨[], rfl, hab, by simp, by simp, List.Pairwise.nil, fun hnil => absurd rfl hnil,
        iff_of_true rfl (hzero.2 hab)⟩
    · rw [if_neg hempty, hone]
      refine ⟨_, rfl, hall fun x hx => ?_⟩
      have hmem : x ∈ s.chunks.reverse := List.mem_reverse.2 hx
      rw [hone, List.mem_singleton] at hmem
      rw [hmem]
      omega
  · rename_i hmany
    refine ⟨_, rfl, hall fun x hx => ?_⟩
    obtain ⟨last, older, hchunks⟩ := List.exists_cons_of_ne_nil (List.ne_nil_of_mem hx)
    obtain ⟨-, hlast, holder⟩ := h.current last older hchunks
    rw [hchunks] at hx
    rcases List.mem_cons.1 hx with rfl | hmem
    · refine hlast fun hnil => hmany x ?_
      rw [hchunks, hnil]
      rfl
    · exact holder x hmem

/-! ## The batches of a transfer -/

/-- Tasks at their places that do not wrap follow each other in the file. -/
theorem TasksLaid.contiguous {heap : List Request} {c a : Nat} {base : Addr}
    {tasks : List Task} (h : TasksLaid heap c a base 0 tasks)
    (hstop : a + bytesOf tasks < 2 ^ 64) :
    Contiguous (fun task : Task => task.info.offset) (fun task => task.info.stop)
      a (a + bytesOf tasks) tasks := by
  have hplaces : Laid (fun task : Task => task.info.bytesize)
      (fun q task => task.info.offset = q ∧ task.info.stop = q + task.info.bytesize)
      (a + 0) tasks := by
    refine laid_add.2 (h.imp fun q task _ _ hle htask => ?_)
    rw [Nat.zero_add] at hle
    unfold bytesOf at hstop
    exact ⟨htask.offset_eq.trans (toWord_of_lt (by omega)),
      htask.stop_eq.trans (toWord_of_lt (by omega))⟩
  exact hplaces.contiguous fun q task htask => htask

/-- A task at its place, when the batch does not wrap. -/
theorem TasksLaid.place {heap : List Request} {c a : Nat} {base : Addr} {tasks : List Task}
    (h : TasksLaid heap c a base 0 tasks) (hstop : a + bytesOf tasks < 2 ^ 64) {task : Task}
    (htask : task ∈ tasks) :
    ∃ q, task.info.offset = a + q ∧ task.info.stop = a + q + task.info.bytesize ∧
      task.info.stop ≤ a + bytesOf tasks ∧ TaskLaid heap c a base q task := by
  obtain ⟨q, -, hle, hlaid⟩ := Laid.of_mem h htask
  rw [Nat.zero_add] at hle
  unfold bytesOf at hstop ⊢
  have hoffset : task.info.offset = a + q :=
    hlaid.offset_eq.trans (toWord_of_lt (by omega))
  have hend : task.info.stop = a + q + task.info.bytesize :=
    hlaid.stop_eq.trans (toWord_of_lt (by omega))
  exact ⟨q, hoffset, hend, by omega, hlaid⟩

/-- Tasks at their places, one window before the end of a {lit}`size_t`. -/
theorem TasksLaid.cutTask {heap : List Request} {c a : Nat} {base : Addr}
    {tasks : List Task} (hc : 0 < c) (h : TasksLaid heap c a base 0 tasks)
    (hstop : a + bytesOf tasks + c < 2 ^ 64) :
    ∀ task ∈ tasks, CutTask heap c a base task := by
  intro task htask
  obtain ⟨q, hoffset, hend, hle, hlaid⟩ := h.place (by omega) htask
  have hwindow := hlaid.window
  refine ⟨by omega, by omega, ?_, by omega, ?_⟩
  · have hmod := Nat.mod_lt task.info.offset hc
    have hdiv := Nat.div_add_mod task.info.offset c
    rw [windowEnd, Nat.add_mul, Nat.one_mul, Nat.mul_comm (task.info.offset / c) c]
    omega
  · rw [hlaid.destination, hoffset, Nat.add_sub_cancel_left]

/-- The tasks of a batch that goes forward lie at their places, and do not wrap. -/
theorem WordInv.tasks_laid {c start n done : Nat} {slices : List FileReadTask} {base : Addr}
    {s : BuildState} (h : WordInv c slices start base n done s) (hlt : done < 2 ^ 64)
    {tasks : List Task} (hmem : tasks ∈ s.tasks) (hne : tasks ≠ []) (hforward : Forward tasks) :
    ∃ base', TasksLaid s.heap c (startOf tasks) base' 0 tasks ∧
      startOf tasks + bytesOf tasks < 2 ^ 64 ∧
      stopOf tasks = startOf tasks + bytesOf tasks := by
  obtain ⟨q, -, hle, hlaid⟩ := Laid.of_flatten h.laid hmem
  have htotal : (s.tasks.flatten.map fun task => task.info.bytesize).sum = done := h.bytes_eq
  have hbytes : bytesOf tasks < 2 ^ 64 := by
    unfold bytesOf
    omega
  have hlaid' : TasksLaid s.heap c start base q tasks := hlaid
  obtain ⟨hsum, hstop⟩ := hlaid'.stop_lt hne hbytes hforward
  have hbased := hlaid'.rebase
  rw [← (hlaid'.ends hne).1] at hbased
  exact ⟨_, hbased, hsum, hstop⟩

/-- The tasks of one batch: it goes forward, and ends one window before a {lit}`size_t` does. -/
structure BatchCut (c : Nat) (tasks : List Task) : Prop where
  ne_nil : tasks ≠ []
  forward : Forward tasks
  stop_lt : stopOf tasks + c < 2 ^ 64

/-- The tasks of a batch of a transfer are cut for the splitter, and follow each other. -/
theorem WordInv.cut {c start n done : Nat} {slices : List FileReadTask} {base : Addr}
    {s : BuildState} (hc : 0 < c) (h : WordInv c slices start base n done s)
    (hlt : done < 2 ^ 64) {tasks : List Task} (hmem : tasks ∈ s.tasks)
    (hcut : BatchCut c tasks) :
    (∃ base', ∀ task ∈ tasks, CutTask s.heap c (startOf tasks) base' task) ∧
      Contiguous (fun task : Task => task.info.offset) (fun task => task.info.stop)
        (startOf tasks) (stopOf tasks) tasks := by
  obtain ⟨base', hbased, hsum, hstop⟩ := h.tasks_laid hlt hmem hcut.ne_nil hcut.forward
  have hend := hcut.stop_lt
  rw [hstop] at hend ⊢
  exact ⟨⟨base', hbased.cutTask hc hend⟩, hbased.contiguous hsum⟩

/--
The batches of a divided transfer, wherever it lies.  The tasks of a batch are grouped into
chunks that agree with the cut exactly when the index can count them, and every batch that is
built has such chunks.
-/
structure BatchesAgree (config : Config) (origin : BatchOrigin) (t : ContiguousTransfer)
    (heap : List Request) (s : BuildState) : Prop where
  cut : cutTransfer (config.chunkBytesize origin.isObjectStorage) origin.fileIndex t heap =
    .ok s
  length_eq : s.tasks.length = t.tasks.length
  split_iff : ∀ tasks ∈ s.tasks, BatchCut (config.chunkBytesize origin.isObjectStorage) tasks →
    ((∃ chunks,
      splitIntoChunks s.heap tasks (config.chunkBytesize origin.isObjectStorage) = .ok chunks ∧
      SplitAgrees s.heap (config.chunkBytesize origin.isObjectStorage) (startOf tasks)
        (stopOf tasks) tasks chunks) ↔ tasks.length < 2 ^ 32)
  built : ∀ made, makeBatches config origin t heap = .ok made →
    made.1 = s.heap ∧ made.2.flatMap Batch.tasks = s.tasks.flatten ∧
      ∀ batch ∈ made.2,
        batch.stop + config.chunkBytesize origin.isObjectStorage < 2 ^ 64 →
          ChunksAgree made.1 (config.chunkBytesize origin.isObjectStorage) batch

theorem batches_agree (config : Config) (origin : BatchOrigin) (heap : List Request)
    {t : ContiguousTransfer} (h : Sliced t) (hsize : t.size = t.rangeSizes.sum)
    (hoffset : t.offset < 2 ^ 64) (hlt : t.size < 2 ^ 64) :
    ∃ s, BatchesAgree config origin t heap s := by
  have hc := config.chunkBytesize_pos origin.isObjectStorage
  obtain ⟨s, base, hs, hinv⟩ := cutTransfer_words hc origin.fileIndex heap h hsize hoffset hlt
  have hsplit : ∀ tasks ∈ s.tasks,
      BatchCut (config.chunkBytesize origin.isObjectStorage) tasks → tasks.length < 2 ^ 32 →
      ∃ chunks,
        splitIntoChunks s.heap tasks (config.chunkBytesize origin.isObjectStorage) =
          .ok chunks ∧
        SplitAgrees s.heap (config.chunkBytesize origin.isObjectStorage) (startOf tasks)
          (stopOf tasks) tasks chunks := by
    intro tasks hmem hcut hcount
    obtain ⟨⟨base', htasks⟩, hchain⟩ := hinv.cut hc hlt hmem hcut
    exact splitIntoChunks_agrees hc hcut.ne_nil hcount htasks hchain
  refine ⟨s, hs, hinv.length_eq, fun tasks hmem hcut => ⟨?_, hsplit tasks hmem hcut⟩,
    fun made hmade => ?_⟩
  · rintro ⟨chunks, hchunks, -⟩
    exact length_lt_of_splitIntoChunks hchunks
  · obtain ⟨hheap, hcollected⟩ := collected_of_makeBatches hs hinv.length_eq hmade
    refine ⟨hheap, hcollected.flatten_eq, fun batch hbatch hstop => ?_⟩
    obtain ⟨tasks, hmem, hne, w, hmake⟩ := hcollected.made batch hbatch
    obtain ⟨chunks, hchunks, hforward, rfl⟩ := batchMake_cases hmake
    obtain ⟨chunks', hchunks', hagrees⟩ :=
      hsplit tasks hmem ⟨hne, hforward, hstop⟩ (length_lt_of_splitIntoChunks hchunks)
    obtain rfl := Except.ok.inj (hchunks.symm.trans hchunks')
    rw [hheap]
    exact ⟨hagrees.bytes, hagrees.positive, hagrees.each, hagrees.windows, hagrees.spans,
      hagrees.empty_iff⟩

/--
However transfers are divided over the workloads and wherever they lie: the tasks of every
batch that goes forward, and ends a window before a {lit}`size_t` does, are grouped into chunks
that agree with the cut exactly when there are fewer than {lit}`2 ^ 32` of them.
-/
theorem chunks_agree_iff (config : Config) (block : Nat) (b : Bool)
    (groupByFile : List Int32) {transfers : List ContiguousTransfer} {totalBytes : Nat}
    (hfresh : ∀ t ∈ transfers, t.tasks = []) (hoffset : ∀ t ∈ transfers, t.offset < 2 ^ 64)
    (hsize : ∀ t ∈ transfers, t.size = t.rangeSizes.sum)
    (htotal : totalBytes = (transfers.map ContiguousTransfer.size).sum)
    (hlt : totalBytes < 2 ^ 64) :
    ∃ a, assign block (config.numWorkers b) groupByFile transfers totalBytes = .ok a ∧
      ∀ t ∈ a.transfers, ∀ (origin : BatchOrigin) (heap : List Request),
        ∃ s, BatchesAgree config origin t heap s := by
  obtain ⟨a, ha, hcore, hsliced⟩ :=
    assign_anywhere block groupByFile (config.numWorkers_le b) (config.numWorkers_pos b) hfresh
      hoffset htotal hlt
  refine ⟨a, ha, fun t ht origin heap => ?_⟩
  obtain ⟨t₀, ht₀, heq⟩ := exists_before hcore ht
  obtain ⟨hoffset', hsize', hsizes⟩ := eq_of_core_eq heq
  have hle : t₀.size ≤ (transfers.map ContiguousTransfer.size).sum :=
    List.le_sum_of_mem (List.mem_map_of_mem ht₀)
  have hplace := hoffset t₀ ht₀
  have hsum := hsize t₀ ht₀
  exact batches_agree config origin heap (hsliced t ht) (by rw [hsize', hsizes, hsum])
    (by omega) (by omega)

/-- A transfer of three ranges that crosses windows of three bytes. -/
def crossingTransfer : ContiguousTransfer :=
  { fileIndex := 0, offset := 4, size := 9, destination := 100, firstRangeIndex := 0
    rangeSizes := [7, 0, 2], tasks := [] }

/-- The origin of batches of a file of the first submission. -/
def fileOrigin : BatchOrigin :=
  ⟨1, 0, ['a'], false, ⟨.cpu, 0⟩⟩

/-- Where the batches of a transfer stop, when they are built. -/
def builtStops (t : ContiguousTransfer) : Option (List Nat) :=
  (makeBatches tinyConfig fileOrigin t []).toOption.map fun made => made.2.map Batch.stop

theorem chunks_agree_crossing :
    ∃ a, assign 4 2 [] [crossingTransfer] 9 = .ok a ∧
      ∀ t ∈ a.transfers, ∃ made, makeBatches tinyConfig fileOrigin t [] = .ok made ∧
        made.2.map Batch.stop = [9, 13] ∧
        ∀ batch ∈ made.2, ChunksAgree made.1 3 batch := by
  have hbuilt : (assign 4 2 [] [crossingTransfer] 9).toOption.map
      (fun a => a.transfers.map builtStops) = some [some [9, 13]] := by
    decide +kernel
  obtain ⟨a, ha, heach⟩ := @chunks_agree_iff tinyConfig 4 false [] [crossingTransfer] 9
    (by decide) (by decide) (by decide) (by decide) (by decide)
  have ha' : assign 4 2 [] [crossingTransfer] 9 = .ok a := ha
  rw [ha'] at hbuilt
  have hstops : a.transfers.map builtStops = [some [9, 13]] := Option.some.inj hbuilt
  refine ⟨a, ha', fun t ht => ?_⟩
  have hmember : builtStops t ∈ a.transfers.map builtStops := List.mem_map_of_mem ht
  rw [hstops, List.mem_singleton, builtStops] at hmember
  obtain ⟨s, hs⟩ := heach t ht fileOrigin []
  cases hmade : makeBatches tinyConfig fileOrigin t [] with
  | error failure =>
      rw [hmade] at hmember
      cases hmember
  | ok made =>
      rw [hmade] at hmember
      have hends : made.2.map Batch.stop = [9, 13] := Option.some.inj hmember
      refine ⟨made, rfl, hends, fun batch hbatch => ?_⟩
      have hstop : batch.stop ∈ [9, 13] := hends ▸ List.mem_map_of_mem hbatch
      refine (hs.built made hmade).2.2 batch hbatch ?_
      have hchunk : tinyConfig.chunkBytesize fileOrigin.isObjectStorage = 3 := rfl
      rw [hchunk]
      simp only [List.mem_cons, List.not_mem_nil, or_false] at hstop
      omega

/-! ## A batch that the index cannot count -/

/-- A configuration whose chunks have one byte, for any number of workers. -/
def byteConfig (workers : Nat) (hpos : 0 < workers) (hle : workers ≤ maxConcurrency) : Config :=
  { tinyConfig with
    concurrency := workers
    fsSyncReadBlockBytesize := minFsSyncReadBlockBytesize
    fsAsyncChunkBytesize := 1
    concurrency_pos := hpos
    concurrency_le := hle
    fsSyncReadBlockBytesize_pos := by decide
    fsAsyncChunkBytesize_pos := by decide
    fsAsyncChunkBytesize_lt := by decide }

/-- Windows of one byte cut the bytes of a single slice into tasks that cannot be counted. -/
theorem WordInv.exists_long {slices : List FileReadTask} {start n done : Nat} {base : Addr}
    {s : BuildState} (h : WordInv 1 slices start base n done s) (hone : slices.length = 1)
    (hdone : 2 ^ 32 ≤ done) :
    ∃ tasks, s.tasks = [tasks] ∧ bytesOf tasks = done ∧ 2 ^ 32 ≤ tasks.length ∧
      TasksLaid s.heap 1 start base 0 tasks := by
  obtain ⟨tasks, htasks⟩ := List.length_eq_one_iff.1 (h.length_eq.trans hone)
  have hbytes := h.bytes_eq
  have hlaid := h.laid
  simp only [htasks, List.flatten_cons, List.flatten_nil, List.append_nil] at hbytes hlaid
  have hle := hlaid.bytesOf_le_length
  exact ⟨tasks, htasks, hbytes, by omega, hlaid⟩

/-- A transfer of 4 GiB, which one worker reads. -/
def longTransfer : ContiguousTransfer :=
  openedTransfer 0 0 ⟨0, 2 ^ 32, 100⟩

/-- The slices that one worker gets of it. -/
theorem assign_longTransfer :
    (assign minFsSyncReadBlockBytesize 1 [] [longTransfer] (2 ^ 32)).toOption.map
        (fun a => a.transfers.map fun t => t.tasks.length) = some [1] := by
  decide +kernel

/--
Chunks of one byte cut a transfer of 4 GiB into one task for every byte, in one batch that is
well inside a {lit}`size_t`.  The index of {lit}`split_into_chunks` starts over, so it returns
no chunks, and the batch is not built.
-/
theorem long_batch_has_no_chunks :
    ∃ a, assign minFsSyncReadBlockBytesize 1 [] [longTransfer] (2 ^ 32) = .ok a ∧
      ∃ t ∈ a.transfers, ∃ s, cutTransfer 1 0 t [] = .ok s ∧
        ∃ tasks ∈ s.tasks, BatchCut 1 tasks ∧ startOf tasks = 0 ∧ stopOf tasks = 2 ^ 32 ∧
          (∀ chunks, splitIntoChunks s.heap tasks 1 ≠ .ok chunks) ∧
          ∀ made, makeBatches (byteConfig 1 (by decide) (by decide)) fileOrigin t [] ≠
            .ok made := by
  obtain ⟨a, ha, hcore, hsliced⟩ := @assign_anywhere minFsSyncReadBlockBytesize 1 []
    [longTransfer] (2 ^ 32) (by decide) (by decide) (by decide) (by decide) (by decide)
    (by decide)
  have hone := assign_longTransfer
  simp only [ha, Except.toOption, Option.map_some, Option.some.injEq] at hone
  obtain ⟨t, ht⟩ : ∃ t, a.transfers = [t] := by
    apply List.length_eq_one_iff.1
    simpa using congrArg List.length hcore
  have hmem : t ∈ a.transfers := by simp [ht]
  have hlength : t.tasks.length = 1 := by simpa [ht] using hone
  have hsame : t.core = longTransfer.core := by simpa [ht] using hcore
  obtain ⟨hoffset, hsize, hsizes⟩ := eq_of_core_eq hsame
  have hplace : t.offset = 0 := hoffset
  have hbytes : t.size = 2 ^ 32 := hsize
  have hsum : t.size = t.rangeSizes.sum := by
    rw [hbytes, hsizes]
    rfl
  obtain ⟨s, base, hs, hinv⟩ := cutTransfer_words (c := 1) (by decide) 0 [] (hsliced t hmem) hsum
    (by omega) (by omega)
  obtain ⟨tasks, htasks, hdone, hlong, hlaid⟩ := hinv.exists_long hlength (by omega)
  have hne : tasks ≠ [] := by
    rintro rfl
    simp at hlong
  have hmember : tasks ∈ s.tasks := by simp [htasks]
  obtain ⟨hstart, hstop⟩ := hlaid.ends hne
  rw [hplace] at hstart hstop
  rw [hdone, hbytes] at hstop
  have hstart' : startOf tasks = 0 := hstart
  have hstop' : stopOf tasks = 2 ^ 32 := hstop
  have hsplit : ∀ chunks, splitIntoChunks s.heap tasks 1 ≠ .ok chunks := fun chunks hchunks => by
    have hlt := length_lt_of_splitIntoChunks hchunks
    omega
  refine ⟨a, ha, t, hmem, s, hs, tasks, hmember, ⟨hne, ?_, by omega⟩, hstart', hstop', hsplit,
    fun made hmade => ?_⟩
  · unfold Forward
    omega
  · have hcut : cutTransfer ((byteConfig 1 (by decide) (by decide)).chunkBytesize
        fileOrigin.isObjectStorage) fileOrigin.fileIndex t [] = .ok s := hs
    have hcollected := (collected_of_makeBatches hcut hinv.length_eq hmade).2
    have hlt := hcollected.countable tasks hmember
    omega

end Streamer
end ModelStreamer
