import Mathlib.Tactic.Ring
import ModelStreamer.Lib.Tiling
import ModelStreamer.Streamer.Request

/-!
# Grouping a batch's tasks into chunks

{lit}`split_into_chunks` groups the tasks of a batch by the chunk window they fall in.  It
asserts that the tasks follow each other in the file and that none crosses a window; a task
without bytes opens no chunk of its own and is absorbed into the chunk before it.  The loop
counts the tasks with an {lit}`unsigned`, which a longer list makes start over.

Main results:

- Theorem {lit}`splitIntoChunks_ok`: on contiguous tasks cut at the windows no assertion
  fails, while the index can count them.
- Theorem {lit}`length_lt_of_splitIntoChunks`: a list of {lit}`2 ^ 32` tasks gets no chunks.
-/

namespace ModelStreamer
namespace Streamer

open Common Lib

/-- {lit}`Chunk`: one read, and the tasks it completes. -/
structure Chunk where
  offset : Nat
  bytesize : Nat
  buffer : Addr
  firstTask : Nat
  taskCount : Nat
deriving DecidableEq, Repr

/-- The loop state of {lit}`split_into_chunks`; the chunk opened last is at the head. -/
structure SplitState where
  chunks : List Chunk
  chunkEnd : Nat
  expectedOffset : Nat
deriving DecidableEq, Repr

/-- The end of the window of {lit}`c` bytes that an offset falls in. -/
def windowEnd (c offset : Nat) : Nat :=
  (offset / c + 1) * c

/-- A task opens a chunk when there is none, or when it has bytes past the current window. -/
def startsAChunk (s : SplitState) (info : TaskInfo) : Bool :=
  s.chunks.isEmpty || (info.bytesize > 0 && info.offset ≥ s.chunkEnd)

/-- One turn of the loop of {lit}`split_into_chunks`. -/
def splitTask (heap : List Request) (c i : Nat) (task : Task) (s : SplitState) :
    Except Failure SplitState := do
  assertThat (task.info.offset = s.expectedOffset)
  if startsAChunk s task.info then
    let buffer ← task.destination heap
    return {
      chunks := ⟨task.info.offset, task.info.bytesize, buffer, i, 1⟩ :: s.chunks
      chunkEnd := toWord 64 (windowEnd c task.info.offset)
      expectedOffset := task.info.stop }
  else
    match s.chunks with
    | chunk :: older =>
        let chunk : Chunk :=
          { chunk with
            bytesize := wordAdd 64 chunk.bytesize task.info.bytesize
            taskCount := chunk.taskCount + 1 }
        assertThat (wordAdd 64 chunk.offset chunk.bytesize ≤ s.chunkEnd)
        return { s with chunks := chunk :: older, expectedOffset := task.info.stop }
    | [] => .error .assertion

/--
The loop over the tasks, from task number {lit}`i` on.  The index is an {lit}`unsigned`, so the
loop comes back to the first task, which starts at {lit}`first`, when there are too many.
-/
def splitTasks (heap : List Request) (c first : Nat) :
    Nat → List Task → SplitState → Except Failure SplitState
  | _, [], s => .ok s
  | i, task :: tasks, s => do
      let s ← splitTask heap c i task s
      if i + 1 = 2 ^ 32 then
        -- the index stays below the number of tasks; a lap without bytes leads to the next one
        .error (if first = s.expectedOffset then .endless else .assertion)
      else
        splitTasks heap c first (i + 1) tasks s

/-- {lit}`split_into_chunks`. A batch without bytes has no chunks at all. -/
def splitIntoChunks (heap : List Request) (tasks : List Task) (c : Nat) :
    Except Failure (List Chunk) := do
  assertThat (c ≠ 0)
  match tasks with
  | [] => return []
  | first :: _ =>
      let s ← splitTasks heap c first.info.offset 0 tasks
        { chunks := [], chunkEnd := 0, expectedOffset := first.info.offset }
      let chunks := s.chunks.reverse
      match chunks with
      | [chunk] => return if chunk.bytesize = 0 then [] else chunks
      | _ => return chunks

/-! ## Windows -/

/-- An offset lies before the end of its window. -/
theorem lt_windowEnd {c : Nat} (hc : 0 < c) (offset : Nat) : offset < windowEnd c offset := by
  unfold windowEnd
  have hmod := Nat.mod_lt offset hc
  have hdiv := Nat.div_add_mod offset c
  rw [Nat.add_mul, Nat.one_mul, Nat.mul_comm (offset / c) c]
  omega

/-- Two offsets of one window have the same window end. -/
theorem windowEnd_eq {c a b : Nat} (hc : 0 < c) (hle : a ≤ b) (hlt : b < windowEnd c a) :
    windowEnd c b = windowEnd c a := by
  have hdiv : b / c = a / c := by
    refine Nat.le_antisymm ?_ (Nat.div_le_div_right hle)
    exact Nat.lt_succ_iff.1 ((Nat.div_lt_iff_lt_mul hc).2 hlt)
  unfold windowEnd
  rw [hdiv]

/-- The window of an offset below {lit}`2 ^ 63` ends inside a {lit}`size_t`. -/
theorem windowEnd_lt {c offset : Nat} (hc : c < 2 ^ 64) (hoffset : offset < 2 ^ 63) :
    windowEnd c offset < 2 ^ 64 := by
  unfold windowEnd
  by_cases hlt : offset < c
  · rw [Nat.div_eq_of_lt hlt]
    omega
  · have hle := Nat.div_mul_le_self offset c
    rw [Nat.add_mul, Nat.one_mul]
    omega

/-! ## The contract -/

/-- What the splitter relies on: a task whose bytes stay inside one window. -/
structure WindowTask (heap : List Request) (c : Nat) (task : Task) : Prop where
  request : ∃ request, heap[task.request]? = some request
  stop_eq : task.info.stop = task.info.offset + task.info.bytesize
  stop_lt : task.info.stop < 2 ^ 63
  stop_le : task.info.stop ≤ windowEnd c task.info.offset

/-- The open chunk ends where the next task is expected, inside its window. -/
structure SplitInv (c i : Nat) (s : SplitState) : Prop where
  expected_lt : s.expectedOffset < 2 ^ 63
  current : ∀ chunk older, s.chunks = chunk :: older →
    chunk.offset + chunk.bytesize = s.expectedOffset ∧
      s.chunkEnd = windowEnd c chunk.offset ∧ s.expectedOffset ≤ s.chunkEnd ∧
      chunk.firstTask + chunk.taskCount = i

/-- One task inside a window passes the assertions. -/
theorem splitTask_inv {heap : List Request} {c i : Nat} {task : Task} {s : SplitState}
    (hc : 0 < c) (hc64 : c < 2 ^ 64) (hs : SplitInv c i s) (htask : WindowTask heap c task)
    (hoffset : task.info.offset = s.expectedOffset) :
    ∃ s', splitTask heap c i task s = .ok s' ∧ SplitInv c (i + 1) s' ∧
      s'.expectedOffset = task.info.stop := by
  obtain ⟨request, hrequest⟩ := htask.request
  have hstop := htask.stop_eq
  have hlt := htask.stop_lt
  simp only [splitTask, assertThat_of hoffset, bind, Except.bind]
  by_cases hstart : startsAChunk s task.info = true
  · rw [if_pos hstart, Task.destination_of_getElem? hrequest]
    refine ⟨_, rfl, ⟨hlt, ?_⟩, rfl⟩
    intro chunk older hcons
    obtain ⟨rfl, -⟩ := List.cons.inj hcons
    have hword : toWord 64 (windowEnd c task.info.offset) = windowEnd c task.info.offset :=
      toWord_of_lt (windowEnd_lt hc64 (by omega))
    exact ⟨hstop.symm, hword, by rw [hword]; exact htask.stop_le, rfl⟩
  · rw [if_neg hstart]
    cases hchunks : s.chunks with
    | nil => simp [startsAChunk, hchunks] at hstart
    | cons chunk older =>
        obtain ⟨hend, hwindow, hle, hcount⟩ := hs.current chunk older hchunks
        have hbytes : wordAdd 64 chunk.bytesize task.info.bytesize =
            chunk.bytesize + task.info.bytesize := wordAdd_of_lt (by omega)
        have hsum : wordAdd 64 chunk.offset (chunk.bytesize + task.info.bytesize) =
            task.info.stop := by
          rw [wordAdd_of_lt (by omega)]
          omega
        have hinside : task.info.stop ≤ s.chunkEnd := by
          by_cases hzero : task.info.bytesize = 0
          · omega
          · have hbefore : task.info.offset < s.chunkEnd := by
              simp only [startsAChunk, hchunks, List.isEmpty_cons, Bool.false_or,
                Bool.and_eq_true, decide_eq_true_eq, not_and] at hstart
              omega
            have hsame := windowEnd_eq hc (by omega) (hwindow ▸ hbefore)
            rw [hwindow, ← hsame]
            exact htask.stop_le
        simp only [hbytes, hsum, assertThat_of hinside]
        refine ⟨_, rfl, ⟨hlt, ?_⟩, rfl⟩
        intro chunk' older' hcons
        obtain ⟨rfl, -⟩ := List.cons.inj hcons
        exact ⟨by simp only; omega, hwindow, hinside, by simp only; omega⟩

/-- The loop goes on to the next task while the index can count it. -/
theorem splitTasks_cons {heap : List Request} {c first i : Nat} {task : Task}
    {tasks : List Task} {s s' : SplitState} (htask : splitTask heap c i task s = .ok s')
    (hi : i + 1 < 2 ^ 32) :
    splitTasks heap c first i (task :: tasks) s = splitTasks heap c first (i + 1) tasks s' := by
  simp only [splitTasks, htask, bind, Except.bind]
  rw [if_neg (by omega)]

/-- The loop comes to the end of a list that the index can count, and of no other. -/
theorem length_lt_of_splitTasks {heap : List Request} {c first : Nat} (tasks : List Task)
    {i : Nat} {s s' : SplitState} (hi : i < 2 ^ 32)
    (h : splitTasks heap c first i tasks s = .ok s') : i + tasks.length < 2 ^ 32 := by
  induction tasks generalizing i s with
  | nil => simpa using hi
  | cons task tasks ih =>
      simp only [splitTasks, bind, Except.bind] at h
      cases htask : splitTask heap c i task s with
      | error failure => simp [htask] at h
      | ok s₁ =>
          simp only [htask] at h
          split at h
          · cases h
          · have hrest := ih (show i + 1 < 2 ^ 32 by omega) h
            rw [List.length_cons]
            omega

/-- A list of tasks that was grouped into chunks is one that the index can count. -/
theorem length_lt_of_splitIntoChunks {heap : List Request} {c : Nat} {tasks : List Task}
    {chunks : List Chunk} (h : splitIntoChunks heap tasks c = .ok chunks) :
    tasks.length < 2 ^ 32 := by
  cases tasks with
  | nil => decide
  | cons first tasks =>
      simp only [splitIntoChunks, bind, Except.bind] at h
      split at h
      · cases h
      · split at h
        · cases h
        · rename_i s hs
          have hlength := length_lt_of_splitTasks _ (by decide) hs
          rwa [Nat.zero_add] at hlength

/-- Contiguous tasks cut at the windows pass the assertions one after the other. -/
theorem splitTasks_inv {heap : List Request} {c : Nat} (first : Nat) (hc : 0 < c) (hc64 : c < 2 ^ 64)
    (tasks : List Task) {i b : Nat} {s : SplitState} (hs : SplitInv c i s)
    (hcount : i + tasks.length < 2 ^ 32)
    (htasks : ∀ task ∈ tasks, WindowTask heap c task)
    (hchain : Contiguous (fun task : Task => task.info.offset) (fun task => task.info.stop)
      s.expectedOffset b tasks) :
    ∃ s', splitTasks heap c first i tasks s = .ok s' ∧ SplitInv c (i + tasks.length) s' := by
  induction tasks generalizing i s with
  | nil => exact ⟨s, rfl, hs⟩
  | cons task tasks ih =>
      obtain ⟨s₁, hs₁, hinv₁, hexpected⟩ :=
        splitTask_inv hc hc64 hs (htasks task (by simp)) hchain.1
      have hrest := hchain.2
      simp only [← hexpected] at hrest
      rw [List.length_cons] at hcount
      obtain ⟨s₂, hs₂, hinv₂⟩ :=
        ih hinv₁ (by omega) (fun t ht => htasks t (by simp [ht])) hrest
      refine ⟨s₂, ?_, ?_⟩
      · rw [splitTasks_cons hs₁ (by omega)]
        exact hs₂
      · rw [List.length_cons, Nat.add_comm tasks.length 1, ← Nat.add_assoc]
        exact hinv₂

/-- The splitter accepts contiguous tasks cut at the windows that its index can count. -/
theorem splitIntoChunks_ok {heap : List Request} {c : Nat} (hc : 0 < c) (hc64 : c < 2 ^ 64)
    {tasks : List Task} {a b : Nat} (hcount : tasks.length < 2 ^ 32)
    (htasks : ∀ task ∈ tasks, WindowTask heap c task)
    (hchain : Contiguous (fun task : Task => task.info.offset) (fun task => task.info.stop)
      a b tasks) :
    ∃ chunks, splitIntoChunks heap tasks c = .ok chunks := by
  have hpos : c ≠ 0 := by omega
  simp only [splitIntoChunks, assertThat_of hpos, bind, Except.bind]
  cases tasks with
  | nil => exact ⟨[], rfl⟩
  | cons first tasks =>
      have hfirst := htasks first (by simp)
      have hstart : SplitInv c 0
          { chunks := [], chunkEnd := 0, expectedOffset := first.info.offset } := by
        refine ⟨?_, by simp⟩
        have hlt := hfirst.stop_lt
        have heq := hfirst.stop_eq
        simp only
        omega
      obtain ⟨s, hs, -⟩ := splitTasks_inv first.info.offset hc hc64
        (first :: tasks) hstart (by rwa [Nat.zero_add]) htasks (b := b) ⟨rfl, hchain.2⟩
      simp only [hs]
      split <;> exact ⟨_, rfl⟩

end Streamer
end ModelStreamer
