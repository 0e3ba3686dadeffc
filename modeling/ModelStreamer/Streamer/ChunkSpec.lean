import ModelStreamer.Streamer.ChunkSplitter

/-!
# The chunks of a batch

What {lit}`split_into_chunks` returns: every chunk has bytes, stays inside one window and
carries the tasks of its span, and every task with bytes is in the span of some chunk.

Main results:

- Theorem {lit}`splitIntoChunks_chunked`: the chunks of contiguous tasks cut at the windows.
-/

namespace ModelStreamer
namespace Streamer

open Common Lib

/-! ## Inversion of one turn -/

/-- What one turn of the splitter did. -/
theorem splitTask_cases {heap : List Request} {c i : Nat} {task : Task} {s s' : SplitState}
    (h : splitTask heap c i task s = .ok s') :
    task.info.offset = s.expectedOffset ∧
      ((startsAChunk s task.info = true ∧ ∃ buffer, task.destination heap = .ok buffer ∧
          s' =
            { chunks := ⟨task.info.offset, task.info.bytesize, buffer, i, 1⟩ :: s.chunks
              chunkEnd := toWord 64 (windowEnd c task.info.offset)
              expectedOffset := task.info.stop }) ∨
        (startsAChunk s task.info = false ∧ ∃ chunk older, s.chunks = chunk :: older ∧
          s' =
            { s with
              chunks :=
                { chunk with
                  bytesize := wordAdd 64 chunk.bytesize task.info.bytesize
                  taskCount := chunk.taskCount + 1 } :: older
              expectedOffset := task.info.stop })) := by
  simp only [splitTask, bind, Except.bind] at h
  by_cases hoffset : task.info.offset = s.expectedOffset
  · rw [assertThat_of hoffset] at h
    refine ⟨hoffset, ?_⟩
    by_cases hstart : startsAChunk s task.info = true
    · left
      simp only [hstart, if_true] at h
      cases hdst : task.destination heap with
      | error e => simp [hdst] at h
      | ok buffer =>
          simp only [hdst] at h
          cases h
          exact ⟨hstart, buffer, rfl, rfl⟩
    · right
      rw [Bool.not_eq_true] at hstart
      simp only [hstart, Bool.false_eq_true, if_false] at h
      cases hchunks : s.chunks with
      | nil => simp [hchunks] at h
      | cons chunk older =>
          simp only [hchunks, assertThat] at h
          split at h
          · cases h
          · cases h
            exact ⟨hstart, chunk, older, rfl, rfl⟩
  · simp [assertThat, hoffset] at h

/-! ## Chunks of a task list -/

/-- One chunk of a list of tasks. -/
structure ChunkOf (heap : List Request) (c : Nat) (tasks : List Task) (chunk : Chunk) :
    Prop where
  stop_lt : chunk.offset + chunk.bytesize < 2 ^ 63
  window : chunk.offset + chunk.bytesize ≤ windowEnd c chunk.offset
  covers : ∀ j task, chunk.firstTask ≤ j → j < chunk.firstTask + chunk.taskCount →
    tasks[j]? = some task →
      chunk.offset ≤ task.info.offset ∧ task.info.stop ≤ chunk.offset + chunk.bytesize
  placed : ∃ task, task ∈ tasks ∧ task.info.offset = chunk.offset ∧
    task.destination heap = .ok chunk.buffer

/-- The chunks of a list of tasks. -/
structure Chunked (heap : List Request) (c : Nat) (tasks : List Task) (chunks : List Chunk) :
    Prop where
  each : ∀ chunk ∈ chunks, ChunkOf heap c tasks chunk
  positive : ∀ chunk ∈ chunks, 0 < chunk.bytesize
  owner : ∀ (j : Nat) (task : Task), tasks[j]? = some task → 0 < task.info.bytesize →
    ∃ chunk ∈ chunks, chunk.firstTask ≤ j ∧ j < chunk.firstTask + chunk.taskCount

/-- The splitter after the first {lit}`i` of the tasks. -/
structure SplitDone (heap : List Request) (c : Nat) (tasks : List Task) (i : Nat)
    (s : SplitState) : Prop where
  each : ∀ chunk ∈ s.chunks, ChunkOf heap c tasks chunk
  spans : ∀ chunk ∈ s.chunks, chunk.firstTask + chunk.taskCount ≤ i
  older_pos : ∀ chunk older, s.chunks = chunk :: older →
    (older ≠ [] → 0 < chunk.bytesize) ∧ ∀ x ∈ older, 0 < x.bytesize
  owner : ∀ j < i, j < tasks.length → ∃ chunk ∈ s.chunks,
    chunk.firstTask ≤ j ∧ j < chunk.firstTask + chunk.taskCount

/-- A turn that opens a chunk. -/
theorem SplitDone.start {heap : List Request} {c i : Nat} {tasks : List Task} {task : Task}
    {s : SplitState} {buffer : Addr} (hc : 0 < c) (h : SplitDone heap c tasks i s)
    (hs : SplitInv c i s) (hget : tasks[i]? = some task) (htask : WindowTask heap c task)
    (hoffset : task.info.offset = s.expectedOffset)
    (hstart : startsAChunk s task.info = true) (hdst : task.destination heap = .ok buffer) :
    SplitDone heap c tasks (i + 1)
      { chunks := ⟨task.info.offset, task.info.bytesize, buffer, i, 1⟩ :: s.chunks
        chunkEnd := toWord 64 (windowEnd c task.info.offset)
        expectedOffset := task.info.stop } := by
  have hstop := htask.stop_eq
  have hlt := htask.stop_lt
  have hle := htask.stop_le
  have hnew : ChunkOf heap c tasks ⟨task.info.offset, task.info.bytesize, buffer, i, 1⟩ := by
    refine ⟨by simp only; omega, by simp only; omega, ?_, ?_⟩
    · intro j other hj hji hother
      simp only at hj hji
      obtain rfl : j = i := by omega
      obtain rfl := Option.some.inj (hget.symm.trans hother)
      exact ⟨le_refl _, by simp only; omega⟩
    · exact ⟨task, List.mem_of_getElem? hget, rfl, hdst⟩
  constructor
  · intro chunk hchunk
    rcases List.mem_cons.1 hchunk with rfl | hmem
    · exact hnew
    · exact h.each chunk hmem
  · intro chunk hchunk
    rcases List.mem_cons.1 hchunk with rfl | hmem
    · exact le_refl _
    · exact Nat.le_succ_of_le (h.spans chunk hmem)
  · intro chunk older hcons
    obtain ⟨rfl, rfl⟩ := List.cons.inj hcons
    cases hchunks : s.chunks with
    | nil => simp
    | cons last rest =>
        obtain ⟨hend, hwindow, -, -⟩ := hs.current last rest hchunks
        obtain ⟨-, hrest⟩ := h.older_pos last rest hchunks
        simp only [startsAChunk, hchunks, List.isEmpty_cons, Bool.false_or, Bool.and_eq_true,
          decide_eq_true_eq] at hstart
        have hlast : 0 < last.bytesize := by
          -- an empty chunk ends before its window does, so the next task still belongs to it
          have hinside := lt_windowEnd hc last.offset
          omega
        refine ⟨fun _ => hstart.1, fun x hx => ?_⟩
        rcases List.mem_cons.1 hx with rfl | hmem
        · exact hlast
        · exact hrest x hmem
  · intro j hj hlen
    by_cases hji : j = i
    · exact ⟨_, List.mem_cons_self, by simp only; omega, by simp only; omega⟩
    · obtain ⟨chunk, hchunk, hspan⟩ := h.owner j (by omega) hlen
      exact ⟨chunk, List.mem_cons_of_mem _ hchunk, hspan⟩

/-- A turn that extends the chunk opened last. -/
theorem SplitDone.extend {heap : List Request} {c i : Nat} {tasks : List Task} {task : Task}
    {s : SplitState} {chunk : Chunk} {older : List Chunk} (h : SplitDone heap c tasks i s)
    (hs : SplitInv c i s) (hs' : SplitInv c (i + 1)
      { s with
        chunks :=
          { chunk with
            bytesize := wordAdd 64 chunk.bytesize task.info.bytesize
            taskCount := chunk.taskCount + 1 } :: older
        expectedOffset := task.info.stop })
    (hget : tasks[i]? = some task) (htask : WindowTask heap c task)
    (hoffset : task.info.offset = s.expectedOffset) (hchunks : s.chunks = chunk :: older) :
    SplitDone heap c tasks (i + 1)
      { s with
        chunks :=
          { chunk with
            bytesize := wordAdd 64 chunk.bytesize task.info.bytesize
            taskCount := chunk.taskCount + 1 } :: older
        expectedOffset := task.info.stop } := by
  have hstop := htask.stop_eq
  have hlt := htask.stop_lt
  obtain ⟨hend, -, -, hcount⟩ := hs.current chunk older hchunks
  obtain ⟨hend', hwindow', hle', -⟩ := hs'.current _ _ rfl
  simp only at hend' hwindow' hle'
  have hbytes : wordAdd 64 chunk.bytesize task.info.bytesize =
      chunk.bytesize + task.info.bytesize := wordAdd_of_lt (by omega)
  have hold := h.each chunk (by simp [hchunks])
  have hspan := h.spans chunk (by simp [hchunks])
  obtain ⟨hpos, hrest⟩ := h.older_pos chunk older hchunks
  have hmem : ∀ x ∈ older, x ∈ s.chunks := fun x hx => by simp [hchunks, hx]
  constructor
  · intro x hx
    rcases List.mem_cons.1 hx with rfl | hx
    · refine ⟨by simp only; omega, by simp only; omega, ?_, hold.placed⟩
      intro j other hj hji hother
      simp only [hbytes] at hj hji ⊢
      by_cases heq : j = i
      · subst heq
        obtain rfl := Option.some.inj (hget.symm.trans hother)
        omega
      · have hcovers := hold.covers j other hj (by omega) hother
        omega
    · exact h.each x (hmem x hx)
  · intro x hx
    rcases List.mem_cons.1 hx with rfl | hx
    · simp only
      omega
    · exact Nat.le_succ_of_le (h.spans x (hmem x hx))
  · intro x rest hcons
    obtain ⟨rfl, rfl⟩ := List.cons.inj hcons
    refine ⟨fun hne => ?_, hrest⟩
    have hold := hpos hne
    simp only [hbytes]
    omega
  · intro j hj hlen
    by_cases hji : j = i
    · refine ⟨_, List.mem_cons_self, ?_, ?_⟩
      · simp only
        omega
      · simp only
        omega
    · obtain ⟨x, hx, hlow, hhigh⟩ := h.owner j (by omega) hlen
      rw [hchunks] at hx
      rcases List.mem_cons.1 hx with rfl | hx
      · exact ⟨_, List.mem_cons_self, hlow, by simp only; omega⟩
      · exact ⟨x, List.mem_cons_of_mem _ hx, hlow, hhigh⟩

/-- The loop keeps both invariants of the splitter. -/
theorem splitTasks_done {heap : List Request} {c first : Nat} (hc : 0 < c) (hc64 : c < 2 ^ 64)
    {all : List Task} (tasks : List Task) {i b : Nat} {s s' : SplitState}
    (hdone : SplitDone heap c all i s) (hs : SplitInv c i s) (hdrop : all.drop i = tasks)
    (htasks : ∀ task ∈ tasks, WindowTask heap c task)
    (hchain : Contiguous (fun task : Task => task.info.offset) (fun task => task.info.stop)
      s.expectedOffset b tasks)
    (hcount : i + tasks.length < 2 ^ 32)
    (hsplit : splitTasks heap c first i tasks s = .ok s') :
    SplitDone heap c all (i + tasks.length) s' := by
  induction tasks generalizing i s with
  | nil =>
      cases hsplit
      exact hdone
  | cons task tasks ih =>
      have htask := htasks task (by simp)
      have hget : all[i]? = some task := by
        have hhead := congrArg List.head? hdrop
        rwa [List.head?_drop] at hhead
      obtain ⟨s₁, hs₁, hinv₁, hexpected⟩ := splitTask_inv hc hc64 hs htask hchain.1
      rw [List.length_cons] at hcount
      rw [splitTasks_cons hs₁ (by omega)] at hsplit
      have hdone₁ : SplitDone heap c all (i + 1) s₁ := by
        obtain ⟨hoffset, ⟨hstart, buffer, hdst, rfl⟩ | ⟨-, chunk, older, hchunks, rfl⟩⟩ :=
          splitTask_cases hs₁
        · exact hdone.start hc hs hget htask hoffset hstart hdst
        · exact hdone.extend hs hinv₁ hget htask hoffset hchunks
      have hdrop₁ : all.drop (i + 1) = tasks := by
        have htail := congrArg List.tail hdrop
        rwa [List.tail_drop] at htail
      have hrest := hchain.2
      simp only [← hexpected] at hrest
      have hfinal := ih hdone₁ hinv₁ hdrop₁ (fun t ht => htasks t (by simp [ht])) hrest
        (by omega) hsplit
      rw [List.length_cons, Nat.add_comm tasks.length 1, ← Nat.add_assoc]
      exact hfinal

/-- The chunks of contiguous tasks cut at the windows. -/
theorem splitIntoChunks_chunked {heap : List Request} {c : Nat} (hc : 0 < c)
    (hc64 : c < 2 ^ 64) {tasks : List Task} {chunks : List Chunk} {a b : Nat}
    (htasks : ∀ task ∈ tasks, WindowTask heap c task)
    (hchain : Contiguous (fun task : Task => task.info.offset) (fun task => task.info.stop)
      a b tasks)
    (hsplit : splitIntoChunks heap tasks c = .ok chunks) : Chunked heap c tasks chunks := by
  have hpos : c ≠ 0 := by omega
  have hcount := length_lt_of_splitIntoChunks hsplit
  simp only [splitIntoChunks, assertThat_of hpos, bind, Except.bind] at hsplit
  cases tasks with
  | nil =>
      cases hsplit
      exact ⟨by simp, by simp, by simp⟩
  | cons first rest =>
      have hfirst := htasks first (by simp)
      have hstart : SplitInv c 0
          { chunks := [], chunkEnd := 0, expectedOffset := first.info.offset } := by
        refine ⟨?_, by simp⟩
        have hlt := hfirst.stop_lt
        have heq := hfirst.stop_eq
        simp only
        omega
      have hchain' : Contiguous (fun task : Task => task.info.offset)
          (fun task => task.info.stop) first.info.offset b (first :: rest) :=
        ⟨rfl, hchain.2⟩
      rw [← Nat.zero_add (first :: rest).length] at hcount
      obtain ⟨s, hs, -⟩ := splitTasks_inv first.info.offset hc hc64 (first :: rest)
        hstart hcount htasks hchain'
      have hdone : SplitDone heap c (first :: rest) (0 + (first :: rest).length) s :=
        splitTasks_done hc hc64 (first :: rest)
          ⟨by simp, by simp, by simp, by simp⟩ hstart rfl htasks hchain' hcount hs
      rw [Nat.zero_add] at hdone
      simp only [hs] at hsplit
      have hnonempty : s.chunks ≠ [] := by
        intro hnil
        obtain ⟨chunk, hchunk, -⟩ := hdone.owner 0 (by simp) (by simp)
        simp [hnil] at hchunk
      have howner : ∀ (j : Nat) (task : Task), (first :: rest)[j]? = some task →
          ∃ chunk ∈ s.chunks, chunk.firstTask ≤ j ∧ j < chunk.firstTask + chunk.taskCount := by
        intro j task hj
        have hlt := (List.getElem?_eq_some_iff.1 hj).1
        exact hdone.owner j hlt hlt
      split at hsplit
      · rename_i chunk hone
        have hsingle : s.chunks = [chunk] := by
          rw [← List.reverse_reverse s.chunks, hone]
          rfl
        cases hsplit
        by_cases hzero : chunk.bytesize = 0
        · rw [if_pos hzero]
          refine ⟨by simp, by simp, fun j task hj htaskpos => ?_⟩
          obtain ⟨x, hx, hlow, hhigh⟩ := howner j task hj
          rw [hsingle, List.mem_singleton] at hx
          subst hx
          have hcovers := (hdone.each x (by simp [hsingle])).covers j task hlow hhigh hj
          have hstop := (htasks task (List.mem_of_getElem? hj)).stop_eq
          omega
        · rw [if_neg hzero, hone]
          refine ⟨fun x hx => hdone.each x (hsingle ▸ hx), ?_, fun j task hj _ => ?_⟩
          · intro x hx
            rw [List.mem_singleton] at hx
            subst hx
            omega
          · rw [← hsingle]
            exact howner j task hj
      · rename_i hmany
        cases hsplit
        refine ⟨fun x hx => hdone.each x (List.mem_reverse.1 hx), ?_, fun j task hj _ => ?_⟩
        · intro x hx
          obtain ⟨chunk, older, hchunks⟩ := List.exists_cons_of_ne_nil hnonempty
          obtain ⟨hhead, holder⟩ := hdone.older_pos chunk older hchunks
          have hne : older ≠ [] := by
            rintro rfl
            exact hmany chunk (by simp [hchunks])
          rw [List.mem_reverse, hchunks] at hx
          rcases List.mem_cons.1 hx with rfl | hmem
          · exact hhead hne
          · exact holder x hmem
        · obtain ⟨x, hx, hspan⟩ := howner j task hj
          exact ⟨x, List.mem_reverse.2 hx, hspan⟩

/-- More requests on the heap change nothing for the chunks. -/
theorem Chunked.append_heap {heap : List Request} {c : Nat} {tasks : List Task}
    {chunks : List Chunk} (h : Chunked heap c tasks chunks) (more : List Request) :
    Chunked (heap ++ more) c tasks chunks := by
  refine ⟨fun chunk hchunk => ?_, h.positive, h.owner⟩
  obtain ⟨hlt, hwindow, hcovers, task, hmem, hoffset, hdst⟩ := h.each chunk hchunk
  refine ⟨hlt, hwindow, hcovers, task, hmem, hoffset, ?_⟩
  unfold Task.destination at hdst ⊢
  cases hget : heap[task.request]? with
  | none => simp [hget] at hdst
  | some request =>
      rw [hget] at hdst
      have hlen := (List.getElem?_eq_some_iff.1 hget).1
      rw [List.getElem?_append_left hlen, hget]
      exact hdst

end Streamer
end ModelStreamer
