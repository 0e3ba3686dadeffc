import ModelStreamer.Streamer.ChunkAgreement
import ModelStreamer.Streamer.SyncRead

/-!
# The answers of the synchronous reader

At every moment the tasks that were answered with success are the first ones of the batch, and
the memory at their destinations holds their bytes of the file.  When the batch was executed
every task was answered, the remaining ones with one code.

Main results:

- Theorem {lit}`makeBatches_readable`: the batches of a transfer meet the conditions below.
- Theorem {lit}`readBytes_spec`: what a read of the file leaves in memory.
- Theorem {lit}`ReadInv.finishedUntil`: answering up to a byte that was reached is right.
- Theorem {lit}`ReadInv.handleError`: an error fails exactly the tasks that are left.
- Theorem {lit}`execute_answers`: the two properties for every file, block size and stop.
-/

namespace ModelStreamer
namespace Streamer

open Common Lib

/-! ## What a log says -/

/-- The tasks that were finished, with their codes. -/
def finishes (log : List ReadEvent) : List (Nat × ResponseCode) :=
  log.filterMap fun
    | .finished i code => some (i, code)
    | .wrote _ => none

/-- The tasks that were finished with success. -/
def successes (log : List ReadEvent) : List Nat :=
  log.filterMap fun
    | .finished i .success => some i
    | _ => none

@[simp]
theorem finishes_append (log log' : List ReadEvent) :
    finishes (log ++ log') = finishes log ++ finishes log' :=
  List.filterMap_append

@[simp]
theorem successes_append (log log' : List ReadEvent) :
    successes (log ++ log') = successes log ++ successes log' :=
  List.filterMap_append

@[simp]
theorem writesOf_append (log log' : List ReadEvent) :
    writesOf (log ++ log') = writesOf log ++ writesOf log' :=
  List.filterMap_append

@[simp]
theorem finishes_wrote (writes : List (Write 64 UInt8)) :
    finishes (writes.map .wrote) = [] := by
  simp [finishes]

@[simp]
theorem successes_wrote (writes : List (Write 64 UInt8)) :
    successes (writes.map .wrote) = [] := by
  simp [successes]

@[simp]
theorem writesOf_wrote (writes : List (Write 64 UInt8)) :
    writesOf (writes.map .wrote) = writes := by
  simp [writesOf]

@[simp]
theorem writesOf_finished (i : Nat) (code : ResponseCode) :
    writesOf [.finished i code] = [] :=
  rfl

@[simp]
theorem finishes_finished (i : Nat) (code : ResponseCode) :
    finishes [.finished i code] = [(i, code)] :=
  rfl

@[simp]
theorem successes_finished_success (i : Nat) : successes [.finished i .success] = [i] :=
  rfl

theorem successes_finished_error (i : Nat) {code : ResponseCode} (hcode : code ≠ .success) :
    successes [.finished i code] = [] := by
  cases code with
  | success => exact absurd rfl hcode
  | _ => rfl

/-- All bytes of the task are in its destination, whatever the memory held before. -/
def TaskArrived (heap : List Request) (content : Nat → UInt8) (log : List ReadEvent)
    (task : Task) : Prop :=
  ∃ dst, task.destination heap = .ok dst ∧
    ∀ m x, task.info.offset ≤ x → x < task.info.stop →
      memoryAfter m log (ptrAdd dst (x - task.info.offset)) = content x

/-- The tasks answered with success are the first ones, and their bytes have arrived. -/
def AnswersTruly (heap : List Request) (content : Nat → UInt8) (batch : Batch)
    (log : List ReadEvent) : Prop :=
  ∃ k, successes log = List.range k ∧
    ∀ i < k, ∃ task, batch.tasks[i]? = some task ∧ TaskArrived heap content log task

/-- All of {lit}`n` tasks were answered: the first with success, the others with one error. -/
def AllAnswered (n : Nat) (log : List ReadEvent) : Prop :=
  ∃ k ≤ n, ∃ code, (k < n → code ≠ .success) ∧
    finishes log = (List.range k).map (fun i => (i, .success)) ++
      (List.range' k (n - k)).map (fun i => (i, code))

/-- The property held after every event. -/
def EveryMoment (P : List ReadEvent → Prop) (log : List ReadEvent) : Prop :=
  ∀ before, before <+: log → P before

theorem everyMoment_concat {P : List ReadEvent → Prop} {log : List ReadEvent}
    {event : ReadEvent} :
    EveryMoment P (log ++ [event]) ↔ EveryMoment P log ∧ P (log ++ [event]) := by
  constructor
  · intro h
    exact ⟨fun before hbefore => h before (hbefore.trans (List.prefix_append _ _)),
      h _ List.prefix_rfl⟩
  · rintro ⟨hall, hlast⟩ before hbefore
    rcases List.prefix_concat_iff.1 hbefore with rfl | hbefore
    · exact hlast
    · exact hall before hbefore

/-! ## Batches that can be read -/

/--
A batch as it is built: unfinished tasks that follow each other in the file and, from the
address {lit}`base` on, in memory.
-/
structure Batch.Readable (heap : List Request) (base : Addr) (batch : Batch) : Prop where
  contiguous : Contiguous (fun task : Task => task.info.offset) (fun task => task.info.stop)
    batch.start batch.stop batch.tasks
  stop_eq : ∀ task ∈ batch.tasks, task.info.stop = task.info.offset + task.info.bytesize
  destination : ∀ task ∈ batch.tasks,
    task.destination heap = .ok (ptrAdd base (task.info.offset - batch.start))
  unfinished : ∀ task ∈ batch.tasks, task.finished = false
  unfinished_eq : batch.unfinished = 0
  stop_lt : batch.stop < 2 ^ 64

/-- The batches of a transfer that was divided can be read, wherever it lies. -/
theorem makeBatches_readable {config : Config} {origin : BatchOrigin} {heap : List Request}
    {t : ContiguousTransfer} (h : Sliced t) (hsize : t.size = t.rangeSizes.sum)
    (hoffset : t.offset < 2 ^ 64) (hlt : t.size < 2 ^ 64) {made : List Request × List Batch}
    (hmade : makeBatches config origin t heap = .ok made) {batch : Batch}
    (hbatch : batch ∈ made.2) : ∃ base, batch.Readable made.1 base := by
  have hc := config.chunkBytesize_pos origin.isObjectStorage
  obtain ⟨s, base, hs, hinv⟩ := cutTransfer_words hc origin.fileIndex heap h hsize hoffset hlt
  obtain ⟨hheap, hcollected⟩ := collected_of_makeBatches hs hinv.length_eq hmade
  obtain ⟨tasks, hmem, hne, w, hmake⟩ := hcollected.made batch hbatch
  obtain ⟨chunks, -, hforward, rfl⟩ := batchMake_cases hmake
  obtain ⟨base', hlaid, hsum, hstop⟩ := hinv.tasks_laid hlt hmem hne hforward
  rw [hheap]
  refine ⟨base', ?_, fun task htask => ?_, fun task htask => ?_, fun task htask => ?_, rfl, ?_⟩
  · simp only
    rw [hstop]
    exact hlaid.contiguous hsum
  · obtain ⟨q, hoffset, hend, -⟩ := hlaid.place hsum htask
    omega
  · obtain ⟨q, hoffset, -, -, hplace⟩ := hlaid.place hsum htask
    rw [hplace.destination, hoffset, Nat.add_sub_cancel_left]
  · obtain ⟨q, -, -, -, hplace⟩ := hlaid.place hsum htask
    exact hplace.unfinished
  · simp only
    omega

/-! ## Reading from a file -/

section File

variable {file : OpenFile} {size chunkSize : Nat} {data : Addr}

/-- What {lit}`Fd::read` wrote: parts of the file at their places, without a gap. -/
structure ReadInto (file : OpenFile) (data : Addr) (p size total : Nat) (r : FdRead) : Prop where
  pos_eq : r.pos = p + total
  inPlace : ∀ write ∈ r.writes, InPlace data p file.bytes (p + size) write
  written : ∀ x, p ≤ x → x < p + total → Written data p file.bytes (p + size) r.writes x

theorem readInto_start (file : OpenFile) (data : Addr) (p size : Nat) :
    ReadInto file data p size 0 ⟨p, []⟩ :=
  ⟨rfl, by simp, fun x hlow hhigh => by omega⟩

/-- One call of {lit}`::read`. -/
theorem ReadInto.osRead {p total count n : Nat} {r r' : FdRead}
    (h : ReadInto file data p size total r) (hcount : total + count ≤ size)
    (hread : file.osRead (ptrAdd data total) count r = some (n, r')) :
    n ≤ count ∧ ReadInto file data p size (total + n) r' := by
  obtain ⟨n', hn', heq⟩ := Option.map_eq_some_iff.1 hread
  simp only [Prod.mk.injEq] at heq
  obtain ⟨rfl, rfl⟩ := heq
  have hle := file.read_le _ _ _ hn'
  have hwrite : (⟨ptrAdd data total, cellsFrom file.bytes r.pos n'⟩ : Write 64 UInt8) =
      partWrite data p file.bytes (p + total) n' := by
    rw [partWrite, Nat.add_sub_cancel_left, h.pos_eq]
    rfl
  refine ⟨hle, ?_, fun write hmem => ?_, fun x hlow hhigh => ?_⟩
  · simp only [h.pos_eq, Nat.add_assoc]
  · simp only [hwrite] at hmem
    rcases List.mem_append.1 hmem with hold | hnew
    · exact h.inPlace write hold
    · exact ⟨p + total, n', by omega, by omega, List.mem_singleton.1 hnew⟩
  · simp only [hwrite]
    by_cases hold : x < p + total
    · exact (h.written x hlow hold).mono (List.subset_append_left _ _)
    · exact ⟨p + total, n', by simp, by omega, by omega, by omega, by omega⟩

/-- The loop of {lit}`Fd::read`. -/
theorem fdRead_spec (fuel : Nat) {p total : Nat} {r r' : FdRead} {result : Option Nat}
    (h : ReadInto file data p size total r) (htotal : total ≤ size)
    (hread : file.fdRead size data chunkSize fuel total r = (result, r')) :
    ∃ total', total' ≤ size ∧ ReadInto file data p size total' r' ∧
      ∀ n, result = some n → n = total' := by
  induction fuel generalizing total r with
  | zero =>
      cases hread
      exact ⟨total, htotal, h, fun n hn => (Option.some.inj hn).symm⟩
  | succ fuel ih =>
      rw [OpenFile.fdRead] at hread
      split at hread
      · have hcount : total + min chunkSize (size - total) ≤ size := by omega
        cases hos : file.osRead (ptrAdd data total) (min chunkSize (size - total)) r with
        | none =>
            rw [hos] at hread
            cases hread
            exact ⟨total, htotal, h, fun n hn => by cases hn⟩
        | some got =>
            obtain ⟨n, r₁⟩ := got
            obtain ⟨hle, hnext⟩ := h.osRead hcount hos
            rw [hos] at hread
            cases n with
            | zero =>
                cases hread
                exact ⟨total, htotal, hnext, fun n hn => (Option.some.inj hn).symm⟩
            | succ n => exact ih hnext (by omega) hread
      · cases hread
        exact ⟨total, htotal, h, fun n hn => (Option.some.inj hn).symm⟩

/-- A read writes bytes of the file at their places, and when it succeeds all that were asked for. -/
theorem readBytes_spec (file : OpenFile) (block p bytesize : Nat) (buffer : Addr) :
    (∀ write ∈ (file.readBytes block p bytesize buffer).2.writes,
      InPlace buffer p file.bytes (p + bytesize) write) ∧
    ((file.readBytes block p bytesize buffer).1 = .success →
      ReadInto file buffer p bytesize bytesize (file.readBytes block p bytesize buffer).2) := by
  obtain ⟨total, -, hinto, hresult⟩ := fdRead_spec bytesize
    (readInto_start file buffer p bytesize) (Nat.zero_le _)
    (rfl : file.fdRead bytesize buffer block bytesize 0 ⟨p, []⟩ = _)
  unfold OpenFile.readBytes
  split
  · rename_i r heq
    rw [heq] at hinto
    exact ⟨hinto.inPlace, fun hcontra => by cases hcontra⟩
  · rename_i result r heq
    rw [heq] at hinto hresult
    obtain rfl := hresult result rfl
    refine ⟨hinto.inPlace, fun hsuccess => ?_⟩
    by_cases hne : result = bytesize
    · rwa [hne] at hinto
    · simp only [ne_eq, hne, not_false_eq_true, if_true] at hsuccess
      cases hsuccess

end File

section Readable

variable {heap : List Request} {base : Addr} {batch : Batch}

/-- The tasks lie inside the range of the batch. -/
theorem Batch.Readable.bounds (h : batch.Readable heap base) {task : Task}
    (htask : task ∈ batch.tasks) :
    batch.start ≤ task.info.offset ∧ task.info.stop ≤ batch.stop := by
  apply h.contiguous.bounds (fun t ht => ?_) htask
  have hstop := h.stop_eq t ht
  omega

/-- The first {lit}`u` tasks are flagged, and nothing else was done to the tasks. -/
def flagged (u : Nat) (tasks : List Task) : List Task :=
  (tasks.take u).map (fun task => { task with finished := true }) ++ tasks.drop u

theorem flagged_zero (tasks : List Task) : flagged 0 tasks = tasks := by
  simp [flagged]

theorem drop_flagged {u : Nat} {tasks : List Task} (hu : u ≤ tasks.length) :
    (flagged u tasks).drop u = tasks.drop u := by
  rw [flagged, List.drop_append_of_le_length (by simp [hu]), List.drop_eq_nil_of_le (by simp),
    List.nil_append]

theorem set_flagged {u : Nat} {tasks : List Task} {task : Task} (hget : tasks[u]? = some task) :
    (flagged u tasks).set u { task with finished := true } = flagged (u + 1) tasks := by
  obtain ⟨hlt, hval⟩ := List.getElem?_eq_some_iff.1 hget
  have hlength : ((tasks.take u).map fun task => { task with finished := true }).length = u := by
    simp [Nat.min_eq_left hlt.le]
  rw [flagged, List.set_append_right _ _ (by omega), hlength, Nat.sub_self,
    List.drop_eq_getElem_cons hlt, List.set_cons_zero, flagged, List.take_add_one, hget]
  simp

/-! ## The invariant -/

/-- The byte {lit}`x` of the file was written to its place in the destination. -/
def Batch.WrittenAt (base : Addr) (batch : Batch) (content : Nat → UInt8)
    (log : List ReadEvent) (x : Nat) : Prop :=
  Written base batch.start content batch.stop (writesOf log) x

theorem Batch.WrittenAt.mono {content : Nat → UInt8} {log log' : List ReadEvent} {x : Nat}
    (h : batch.WrittenAt base content log x) (hsub : writesOf log ⊆ writesOf log') :
    batch.WrittenAt base content log' x :=
  Written.mono h hsub

/-- The tasks answered with success are the first ones, and their bytes were written. -/
def AnswersWritten (base : Addr) (content : Nat → UInt8) (batch : Batch)
    (log : List ReadEvent) : Prop :=
  ∃ k, successes log = List.range k ∧
    ∀ i < k, ∃ task, batch.tasks[i]? = some task ∧
      ∀ x, task.info.offset ≤ x → x < task.info.stop → batch.WrittenAt base content log x

/-- An event that answers no task with success leaves the answers as they are. -/
theorem AnswersWritten.concat {content : Nat → UInt8} {log : List ReadEvent} {event : ReadEvent}
    (h : AnswersWritten base content batch log) (hother : ∀ i, event ≠ .finished i .success) :
    AnswersWritten base content batch (log ++ [event]) := by
  obtain ⟨k, hsuccesses, htasks⟩ := h
  refine ⟨k, ?_, fun i hi => ?_⟩
  · rw [successes_append, hsuccesses]
    cases event with
    | wrote write => exact List.append_nil _
    | finished i code =>
        have hcode : code ≠ .success := by
          rintro rfl
          exact hother i rfl
        rw [successes_finished_error i hcode, List.append_nil]
  · obtain ⟨task, hget, hwritten⟩ := htasks i hi
    refine ⟨task, hget, fun x hlow hhigh => (hwritten x hlow hhigh).mono ?_⟩
    rw [writesOf_append]
    exact List.subset_append_left _ _

/-- The destination of the batch is written with bytes of the file at their places only. -/
def WritesInPlace (base : Addr) (content : Nat → UInt8) (batch : Batch)
    (log : List ReadEvent) : Prop :=
  ∀ write ∈ writesOf log, InPlace base batch.start content batch.stop write

/-- What was written in place is in memory. -/
theorem AnswersWritten.truly (hb : batch.Readable heap base) {content : Nat → UInt8}
    {log : List ReadEvent} (h : AnswersWritten base content batch log)
    (hinPlace : WritesInPlace base content batch log) : AnswersTruly heap content batch log := by
  obtain ⟨k, hsuccesses, htasks⟩ := h
  refine ⟨k, hsuccesses, fun i hi => ?_⟩
  obtain ⟨task, hget, hwritten⟩ := htasks i hi
  have hmem := List.mem_of_getElem? hget
  obtain ⟨hlow, hhigh⟩ := hb.bounds hmem
  have hlt := hb.stop_lt
  refine ⟨task, hget, _, hb.destination task hmem, fun m x hx hx' => ?_⟩
  rw [ptrAdd_ptrAdd]
  have hplace : task.info.offset - batch.start + (x - task.info.offset) = x - batch.start := by
    omega
  rw [hplace]
  exact replay_written (by omega) hinPlace (by omega) (hwritten x hx hx')

/-- At every moment of a log that was written in place. -/
theorem everyMoment_truly (hb : batch.Readable heap base) {content : Nat → UInt8}
    {log : List ReadEvent} (h : EveryMoment (AnswersWritten base content batch) log)
    (hinPlace : WritesInPlace base content batch log) :
    EveryMoment (AnswersTruly heap content batch) log := by
  intro before hbefore
  refine (h before hbefore).truly hb fun write hwrite => hinPlace write ?_
  obtain ⟨after, rfl⟩ := hbefore
  rw [writesOf_append]
  exact List.mem_append_left _ hwrite

/--
The first {lit}`u` tasks were answered with success, nothing was answered otherwise, and the
bytes before {lit}`reach` were written to their places.
-/
structure ReadInv (base : Addr) (batch : Batch) (content : Nat → UInt8) (reach u : Nat)
    (s : BatchRead) : Prop where
  le_length : u ≤ batch.tasks.length
  tasks_eq : s.batch.tasks = flagged u batch.tasks
  finishes_eq : finishes s.log = (List.range u).map fun i => (i, .success)
  successes_eq : successes s.log = List.range u
  written : ∀ x, batch.start ≤ x → x < reach → batch.WrittenAt base content s.log x
  inPlace : WritesInPlace base content batch s.log
  moments : EveryMoment (AnswersWritten base content batch) s.log

theorem readInv_start (base : Addr) (batch : Batch) (content : Nat → UInt8) :
    ReadInv base batch content batch.start 0 ⟨batch, []⟩ := by
  refine ⟨Nat.zero_le _, (flagged_zero _).symm, rfl, rfl, fun x hlow hhigh => by omega,
    List.forall_mem_nil _, ?_⟩
  intro before hbefore
  rw [List.prefix_nil.1 hbefore]
  exact ⟨0, rfl, fun i hi => absurd hi (Nat.not_lt_zero i)⟩

variable {content : Nat → UInt8} {reach u : Nat} {s : BatchRead}

/-- Writes leave the answers as they are. -/
theorem everyMoment_writes (writes : List (Write 64 UInt8)) {log : List ReadEvent}
    (h : EveryMoment (AnswersWritten base content batch) log) :
    EveryMoment (AnswersWritten base content batch) (log ++ writes.map .wrote) := by
  induction writes generalizing log with
  | nil => simpa using h
  | cons write writes ih =>
      have hone : EveryMoment (AnswersWritten base content batch) (log ++ [.wrote write]) := by
        refine everyMoment_concat.2 ⟨h, (h log List.prefix_rfl).concat fun i hcontra => ?_⟩
        cases hcontra
      have hrest := ih hone
      rwa [List.append_assoc] at hrest

/-- Writes in place change nothing of the answers. -/
theorem ReadInv.write (h : ReadInv base batch content reach u s)
    {writes : List (Write 64 UInt8)}
    (hwrites : ∀ write ∈ writes, InPlace base batch.start content batch.stop write) :
    ReadInv base batch content reach u (s.write writes) := by
  refine ⟨h.le_length, h.tasks_eq, ?_, ?_, fun x hlow hhigh => ?_, fun write hwrite => ?_,
    everyMoment_writes writes h.moments⟩
  · simpa [BatchRead.write] using h.finishes_eq
  · simpa [BatchRead.write] using h.successes_eq
  · refine (h.written x hlow hhigh).mono ?_
    simp [BatchRead.write]
  · simp only [BatchRead.write, writesOf_append, writesOf_wrote] at hwrite
    rcases List.mem_append.1 hwrite with hold | hnew
    · exact h.inPlace write hold
    · exact hwrites write hnew

/-- The reach is extended over bytes that were written. -/
theorem ReadInv.extend (h : ReadInv base batch content reach u s) {reach' : Nat}
    (hwritten : ∀ x, reach ≤ x → x < reach' → batch.WrittenAt base content s.log x) :
    ReadInv base batch content reach' u s := by
  refine ⟨h.le_length, h.tasks_eq, h.finishes_eq, h.successes_eq, fun x hlow hhigh => ?_,
    h.inPlace, h.moments⟩
  by_cases hx : x < reach
  · exact h.written x hlow hx
  · exact hwritten x (by omega) hhigh

/-- A task whose bytes were written is answered. -/
theorem ReadInv.finish (hb : batch.Readable heap base)
    (h : ReadInv base batch content reach u s) {task : Task}
    (hget : batch.tasks[u]? = some task) (hreach : task.info.stop ≤ reach) :
    ReadInv base batch content reach (u + 1) (s.finish u task .success) := by
  have hmem := List.mem_of_getElem? hget
  obtain ⟨hlow, -⟩ := hb.bounds hmem
  have hsame : writesOf (s.log ++ [.finished u .success]) = writesOf s.log := by
    rw [writesOf_append, writesOf_finished, List.append_nil]
  have hsub : writesOf s.log ⊆ writesOf (s.log ++ [.finished u .success]) := by
    rw [hsame]
    exact List.Subset.refl _
  have hsuccesses : successes (s.log ++ [.finished u .success]) = List.range (u + 1) := by
    rw [List.range_succ, successes_append, h.successes_eq, successes_finished_success]
  rw [BatchRead.finish, if_neg (by simp [hb.unfinished task hmem])]
  refine ⟨?_, ?_, ?_, hsuccesses, fun x hx hx' => ?_, fun write hwrite => ?_, ?_⟩
  · exact (List.getElem?_eq_some_iff.1 hget).1
  · simp only [Batch.flag, h.tasks_eq]
    exact set_flagged hget
  · rw [List.range_succ, List.map_append, ← h.finishes_eq, finishes_append,
      finishes_finished, List.map_singleton]
  · exact (h.written x hx hx').mono hsub
  · simp only [hsame] at hwrite
    exact h.inPlace write hwrite
  · refine everyMoment_concat.2 ⟨h.moments, u + 1, hsuccesses, fun i hi => ?_⟩
    by_cases hlast : i = u
    · exact ⟨task, hlast ▸ hget, fun x hx hx' =>
        (h.written x (by omega) (by omega)).mono hsub⟩
    · obtain ⟨k, hk, htasks⟩ := h.moments s.log List.prefix_rfl
      rw [h.successes_eq] at hk
      have hku : k = u := by
        have hlen := congrArg List.length hk
        simpa using hlen.symm
      obtain ⟨other, hother, hwritten⟩ := htasks i (by omega)
      exact ⟨other, hother, fun x hx hx' => (hwritten x hx hx').mono hsub⟩

/-- A task that is not answered yet ends behind every one that is. -/
theorem Batch.Readable.stop_mono (hb : batch.Readable heap base) {i j : Nat}
    {task other : Task} (hi : batch.tasks[i]? = some task) (hj : batch.tasks[j]? = some other)
    (hij : i ≤ j) : task.info.stop ≤ other.info.stop := by
  have hle : ∀ t ∈ batch.tasks, t.info.offset ≤ t.info.stop := fun t ht => by
    have hstop := hb.stop_eq t ht
    omega
  obtain ⟨hlt, rfl⟩ := List.getElem?_eq_some_iff.1 hi
  have hchain := hb.contiguous
  rw [← List.take_append_drop i batch.tasks, contiguous_append] at hchain
  obtain ⟨middle, -, hrest⟩ := hchain
  rw [List.drop_eq_getElem_cons hlt] at hrest
  by_cases hsame : i = j
  · subst hsame
    rw [hi, Option.some.injEq] at hj
    rw [hj]
  · have hmem : other ∈ batch.tasks.drop (i + 1) := by
      apply List.mem_of_getElem? (i := j - (i + 1))
      rw [List.getElem?_drop, show i + 1 + (j - (i + 1)) = j by omega]
      exact hj
    have hbounds := (hrest.2.bounds (fun t ht => hle t (List.mem_of_mem_drop ht)) hmem).1
    exact hbounds.trans (hle other (List.mem_of_mem_drop hmem))

/-- The tasks that are answered when the bytes before {lit}`fileOffset` are reported. -/
def AnsweredTo (batch : Batch) (fileOffset u u' : Nat) : Prop :=
  ∀ i task, batch.tasks[i]? = some task → (i < u' ↔ i < u ∨ task.info.stop ≤ fileOffset)

/-- The loop of {lit}`finished_until` answers the tasks that end in time. -/
theorem ReadInv.finishTasks (hb : batch.Readable heap base)
    (h : ReadInv base batch content reach u s) {fileOffset : Nat} (hto : fileOffset ≤ reach) :
    ∃ u', ReadInv base batch content reach u'
        (finishTasks fileOffset .success (batch.tasks.drop u) u s) ∧
      (Streamer.finishTasks fileOffset .success (batch.tasks.drop u) u s).batch.unfinished =
        u' ∧
      AnsweredTo batch fileOffset u u' := by
  induction hrest : batch.tasks.drop u generalizing u s with
  | nil =>
      have hlength : batch.tasks.length ≤ u := List.drop_eq_nil_iff.1 hrest
      refine ⟨u, ⟨h.le_length, h.tasks_eq, h.finishes_eq, h.successes_eq, h.written,
        h.inPlace, h.moments⟩,
        rfl, fun i task hget => ?_⟩
      have hlt := (List.getElem?_eq_some_iff.1 hget).1
      simp only [show i < u by omega, true_or]
  | cons task rest ih =>
      have hget : batch.tasks[u]? = some task := by
        have hhead := congrArg List.head? hrest
        rwa [List.head?_drop] at hhead
      have hdrop : batch.tasks.drop (u + 1) = rest := by
        rw [← List.tail_drop, hrest, List.tail_cons]
      rw [Streamer.finishTasks]
      by_cases hstop : fileOffset < task.info.stop
      · rw [if_pos hstop]
        refine ⟨u, ⟨h.le_length, h.tasks_eq, h.finishes_eq, h.successes_eq, h.written,
          h.inPlace, h.moments⟩, rfl, fun i other hother => ?_⟩
        constructor
        · exact Or.inl
        · rintro (hlt | hle)
          · exact hlt
          · by_contra hge
            have hmono := hb.stop_mono hget hother (by omega)
            omega
      · rw [if_neg hstop]
        obtain ⟨u', hinv, hunfinished, hanswered⟩ :=
          ih (h.finish hb hget (by omega)) hdrop
        refine ⟨u', hinv, hunfinished, fun i other hother => ?_⟩
        rw [hanswered i other hother]
        constructor
        · rintro (hlt | hle)
          · by_cases hi : i = u
            · subst hi
              rw [hget, Option.some.injEq] at hother
              subst hother
              exact Or.inr (by omega)
            · exact Or.inl (by omega)
          · exact Or.inr hle
        · rintro (hlt | hle)
          · exact Or.inl (by omega)
          · exact Or.inr hle

/-- Answering up to a byte that was reached. -/
theorem ReadInv.finishedUntil (hb : batch.Readable heap base)
    (h : ReadInv base batch content reach u s) (hu : s.batch.unfinished = u) {fileOffset : Nat}
    (hto : fileOffset ≤ reach) :
    ∃ u', ReadInv base batch content reach u' (s.finishedUntil fileOffset .success) ∧
      (s.finishedUntil fileOffset .success).batch.unfinished = u' ∧
      AnsweredTo batch fileOffset u u' := by
  rw [BatchRead.finishedUntil, hu, h.tasks_eq, drop_flagged h.le_length]
  exact h.finishTasks hb hto

theorem finishTasks_range (fileOffset : Nat) (code : ResponseCode) (tasks : List Task) (i : Nat)
    (s : BatchRead) :
    (Streamer.finishTasks fileOffset code tasks i s).batch.start = s.batch.start ∧
      (Streamer.finishTasks fileOffset code tasks i s).batch.stop = s.batch.stop := by
  induction tasks generalizing i s with
  | nil => exact ⟨rfl, rfl⟩
  | cons task tasks ih =>
      rw [Streamer.finishTasks]
      split
      · exact ⟨rfl, rfl⟩
      · obtain ⟨hstart, hstop⟩ := ih (i + 1) (s.finish i task code)
        rw [hstart, hstop, BatchRead.finish]
        split
        · exact ⟨rfl, rfl⟩
        · exact ⟨rfl, rfl⟩

theorem finishTasks_log (fileOffset : Nat) (code : ResponseCode) (tasks : List Task) (i : Nat)
    (s : BatchRead) : s.log ⊆ (Streamer.finishTasks fileOffset code tasks i s).log := by
  induction tasks generalizing i s with
  | nil => exact List.Subset.refl _
  | cons task tasks ih =>
      rw [Streamer.finishTasks]
      split
      · exact List.Subset.refl _
      · refine List.Subset.trans ?_ (ih (i + 1) (s.finish i task code))
        rw [BatchRead.finish]
        split
        · exact List.Subset.refl _
        · exact List.subset_append_left _ _

/-! ## Failing what is left -/

theorem finishWhere_append (cond : TaskInfo → Bool) (code : ResponseCode) (xs ys : List Task)
    (i : Nat) (s : BatchRead) :
    finishWhere cond code (xs ++ ys) i s =
      finishWhere cond code ys (i + xs.length) (finishWhere cond code xs i s) := by
  induction xs generalizing i s with
  | nil => rfl
  | cons x xs ih =>
      rw [List.cons_append, finishWhere, finishWhere, ih, List.length_cons,
        show i + 1 + xs.length = i + (xs.length + 1) by omega]

/-- Finished tasks are left alone. -/
theorem finishWhere_of_finished (cond : TaskInfo → Bool) (code : ResponseCode) {xs : List Task}
    (hxs : ∀ task ∈ xs, task.finished = true) (i : Nat) (s : BatchRead) :
    finishWhere cond code xs i s = s := by
  induction xs generalizing i s with
  | nil => rfl
  | cons x xs ih =>
      rw [finishWhere, BatchRead.finish, if_pos (hxs x (by simp)), ite_self]
      exact ih (fun task htask => hxs task (by simp [htask])) _ s

/-- Unfinished tasks are all answered with the code. -/
theorem finishWhere_log {code : ResponseCode} {xs : List Task}
    (hxs : ∀ task ∈ xs, task.finished = false) (i : Nat) (s : BatchRead) :
    (finishWhere (fun _ => true) code xs i s).log =
      s.log ++ (List.range' i xs.length).map fun j => .finished j code := by
  induction xs generalizing i s with
  | nil => simp [finishWhere]
  | cons x xs ih =>
      rw [finishWhere, if_pos rfl, ih (fun task htask => hxs task (by simp [htask]))]
      simp [BatchRead.finish, hxs x (by simp), List.range'_succ]

/-- Errors do not change what was answered truly. -/
theorem everyMoment_errors {code : ResponseCode} (hcode : code ≠ .success) (is : List Nat)
    {log : List ReadEvent} (h : EveryMoment (AnswersWritten base content batch) log) :
    EveryMoment (AnswersWritten base content batch) (log ++ is.map fun i => .finished i code) := by
  induction is generalizing log with
  | nil => simpa using h
  | cons i is ih =>
      have hone : EveryMoment (AnswersWritten base content batch) (log ++ [.finished i code]) := by
        refine everyMoment_concat.2 ⟨h, (h log List.prefix_rfl).concat fun j hcontra => ?_⟩
        cases hcontra
        exact hcode rfl
      have hrest := ih hone
      rwa [List.append_assoc] at hrest

/-- An error fails the tasks that are left, and with success none may be left. -/
theorem ReadInv.handleError (hb : batch.Readable heap base)
    (h : ReadInv base batch content reach u s) {code : ResponseCode}
    (hcode : code = .success → u = batch.tasks.length) :
    finishes (s.handleError code).log = (List.range u).map (fun i => (i, .success)) ++
        (List.range' u (batch.tasks.length - u)).map (fun i => (i, code)) ∧
      EveryMoment (AnswersWritten base content batch) (s.handleError code).log ∧
      WritesInPlace base content batch (s.handleError code).log := by
  by_cases hsuccess : code = .success
  · rw [BatchRead.handleError, if_pos hsuccess, hcode hsuccess, h.finishes_eq, Nat.sub_self,
      hcode hsuccess]
    exact ⟨by simp, h.moments, h.inPlace⟩
  · have hlength : ((batch.tasks.take u).map fun task => { task with finished := true }).length =
        u := by
      simp [Nat.min_eq_left h.le_length]
    have hdone : ∀ task ∈ (batch.tasks.take u).map fun task => { task with finished := true },
        task.finished = true := by
      intro task htask
      obtain ⟨t, -, rfl⟩ := List.mem_map.1 htask
      rfl
    have hleft : ∀ task ∈ batch.tasks.drop u, task.finished = false := fun task htask =>
      hb.unfinished task (List.mem_of_mem_drop htask)
    have hlog : (s.handleError code).log = s.log ++
        (List.range' u (batch.tasks.length - u)).map fun j => .finished j code := by
      rw [BatchRead.handleError, if_neg hsuccess, h.tasks_eq, flagged, finishWhere_append,
        hlength, Nat.zero_add, finishWhere_of_finished _ code hdone, finishWhere_log hleft,
        List.length_drop]
    rw [hlog]
    refine ⟨?_, everyMoment_errors hsuccess _ h.moments, ?_⟩
    · rw [finishes_append, h.finishes_eq, List.append_cancel_left_eq]
      simp [finishes, List.filterMap_map]
    · have hnone : writesOf ((List.range' u (batch.tasks.length - u)).map fun j =>
          ReadEvent.finished j code) = [] := by
        simp [writesOf]
      unfold WritesInPlace
      rw [writesOf_append, hnone, List.append_nil]
      exact h.inPlace

end Readable

/-! ## Reading block after block -/

/--
The bytes before {lit}`fileOffset` were read, and the buffer points behind them.  As long as
nothing was thrown, the descriptor stands there as well.
-/
structure HostInv (base : Addr) (batch : Batch) (content : Nat → UInt8) (r : HostRead) :
    Prop where
  inv : ReadInv base batch content r.fileOffset r.s.batch.unfinished r.s
  start_le : batch.start ≤ r.fileOffset
  le_stop : r.fileOffset ≤ batch.stop
  buffer : r.buffer = ptrAdd base (r.fileOffset - batch.start)
  pos : r.thrown = none → r.pos = r.fileOffset
  thrown : ∀ code, r.thrown = some code → code ≠ .success

section Host

variable {file : OpenFile} {block : Nat} {stopped : Nat → Bool} {heap : List Request}
  {base : Addr} {batch : Batch} {r : HostRead}

/-- What a read writes is in place, and what it writes in full was written. -/
theorem HostInv.reads (h : HostInv base batch file.bytes r) (hnone : r.thrown = none)
    (block : Nat) {bytesize : Nat} (hto : r.fileOffset + bytesize ≤ batch.stop) :
    (∀ write ∈ (file.readBytes block r.pos bytesize r.buffer).2.writes,
      InPlace base batch.start file.bytes batch.stop write) ∧
    ((file.readBytes block r.pos bytesize r.buffer).1 = .success →
      (file.readBytes block r.pos bytesize r.buffer).2.pos = r.fileOffset + bytesize ∧
      ∀ x, r.fileOffset ≤ x → x < r.fileOffset + bytesize →
        Written base batch.start file.bytes batch.stop
          (file.readBytes block r.pos bytesize r.buffer).2.writes x) := by
  have hlow := h.start_le
  obtain ⟨hinPlace, hread⟩ := readBytes_spec file block r.pos bytesize r.buffer
  rw [h.pos hnone, h.buffer] at hinPlace hread ⊢
  refine ⟨fun write hwrite => (hinPlace write hwrite).rebase hlow hto, fun hsuccess => ?_⟩
  have hinto := hread hsuccess
  exact ⟨hinto.pos_eq, fun x hx hx' => (hinto.written x hx hx').rebase hlow hto⟩

/-- A read that succeeds reaches its last byte, and the tasks before it are answered. -/
theorem HostInv.readOne_success (hb : batch.Readable heap base)
    (h : HostInv base batch file.bytes r) (hnone : r.thrown = none) {bytesize : Nat}
    (hto : r.fileOffset + bytesize ≤ batch.stop)
    (hread : (file.readBytes block r.pos bytesize r.buffer).1 = .success) :
    ∃ s, r.readOne file block bytesize =
        { r with
          s
          pos := r.fileOffset + bytesize
          fileOffset := r.fileOffset + bytesize
          buffer := ptrAdd r.buffer bytesize } ∧
      HostInv base batch file.bytes (r.readOne file block bytesize) ∧
      AnsweredTo batch (r.fileOffset + bytesize) r.s.batch.unfinished s.batch.unfinished := by
  have hlow := h.start_le
  obtain ⟨hinPlace, hreads⟩ := h.reads hnone block hto
  obtain ⟨hpos, hwritten⟩ := hreads hread
  have hextended := (h.inv.write hinPlace).extend
    fun x hx (hx' : x < r.fileOffset + bytesize) => (hwritten x hx hx').mono (by simp [BatchRead.write])
  obtain ⟨u', hinv, hunfinished, hanswered⟩ := hextended.finishedUntil hb rfl (Nat.le_refl _)
  have heq : r.readOne file block bytesize =
      { r with
        s := (r.s.write (file.readBytes block r.pos bytesize r.buffer).2.writes).finishedUntil
          (r.fileOffset + bytesize) .success
        pos := r.fileOffset + bytesize
        fileOffset := r.fileOffset + bytesize
        buffer := ptrAdd r.buffer bytesize } := by
    rw [HostRead.readOne]
    cases hresult : file.readBytes block r.pos bytesize r.buffer with
    | mk code d =>
        rw [hresult] at hread hpos
        simp only at hread hpos
        subst hread
        simp only [hpos]
  refine ⟨_, heq, ?_, ?_⟩
  · rw [heq]
    refine ⟨?_, by simp only; omega, hto, ?_, fun _ => rfl, h.thrown⟩
    · simp only
      rw [hunfinished]
      exact hinv
    · simp only [h.buffer, ptrAdd_ptrAdd]
      rw [show r.fileOffset - batch.start + bytesize =
        r.fileOffset + bytesize - batch.start by omega]
  · rw [hunfinished]
    exact hanswered

/-- A read that fails leaves the function, with what it wrote before. -/
theorem readOne_error {bytesize : Nat}
    (hread : (file.readBytes block r.pos bytesize r.buffer).1 ≠ .success) :
    r.readOne file block bytesize =
      { r with
        s := r.s.write (file.readBytes block r.pos bytesize r.buffer).2.writes
        pos := (file.readBytes block r.pos bytesize r.buffer).2.pos
        thrown := some (file.readBytes block r.pos bytesize r.buffer).1 } := by
  unfold HostRead.readOne
  split
  · rename_i d hresult
    rw [hresult] at hread
    exact absurd rfl hread
  · rename_i code d hresult
    rw [hresult]

/-- A read that fails keeps what was read before. -/
theorem HostInv.readOne_error (h : HostInv base batch file.bytes r) (hnone : r.thrown = none)
    {bytesize : Nat} (hto : r.fileOffset + bytesize ≤ batch.stop)
    (hread : (file.readBytes block r.pos bytesize r.buffer).1 ≠ .success) :
    HostInv base batch file.bytes (r.readOne file block bytesize) := by
  have hwrite := h.inv.write (h.reads hnone block hto).1
  rw [Streamer.readOne_error hread]
  refine ⟨hwrite, h.start_le, h.le_stop, h.buffer, fun hcontra => ?_, fun code hcode => ?_⟩
  · cases hcontra
  · cases hcode
    exact hread

/-- A read reaches its last byte or throws. -/
theorem HostInv.readOne (hb : batch.Readable heap base) (h : HostInv base batch file.bytes r)
    (hnone : r.thrown = none) {bytesize : Nat} (hto : r.fileOffset + bytesize ≤ batch.stop) :
    HostInv base batch file.bytes (r.readOne file block bytesize) ∧
      (r.readOne file block bytesize).checks = r.checks ∧
      ((r.readOne file block bytesize).thrown = none →
        (r.readOne file block bytesize).fileOffset = r.fileOffset + bytesize) := by
  by_cases hread : (file.readBytes block r.pos bytesize r.buffer).1 = .success
  · obtain ⟨s, heq, hinv, -⟩ := h.readOne_success hb hnone hto hread
    refine ⟨hinv, ?_, fun _ => ?_⟩ <;> rw [heq]
  · refine ⟨h.readOne_error hnone hto hread, ?_, fun hcontra => ?_⟩
    · rw [Streamer.readOne_error hread]
    · rw [Streamer.readOne_error hread] at hcontra
      cases hcontra

/-- The loop reads all its blocks unless it throws or is stopped. -/
theorem HostInv.readBlocks (hb : batch.Readable heap base) (n : Nat)
    (h : HostInv base batch file.bytes r) (hthrown : r.thrown = none)
    (hto : r.fileOffset + n * block ≤ batch.stop) :
    HostInv base batch file.bytes (r.readBlocks file block stopped n) ∧
      ((r.readBlocks file block stopped n).thrown = none →
        (r.readBlocks file block stopped n).fileOffset = r.fileOffset + n * block ∨
          ∃ c < (r.readBlocks file block stopped n).checks, stopped c = true) := by
  induction n generalizing r with
  | zero => exact ⟨h, fun _ => Or.inl (by simp [HostRead.readBlocks])⟩
  | succ n ih =>
      rw [Nat.add_mul, Nat.one_mul] at hto
      rw [HostRead.readBlocks]
      split
      · rename_i hstopped
        exact ⟨⟨h.inv, h.start_le, h.le_stop, h.buffer, h.pos, h.thrown⟩,
          fun _ => Or.inr ⟨r.checks, Nat.lt_succ_self _, hstopped⟩⟩
      · have hchecked : HostInv base batch file.bytes { r with checks := r.checks + 1 } :=
          ⟨h.inv, h.start_le, h.le_stop, h.buffer, h.pos, h.thrown⟩
        obtain ⟨hread, -, hoffset⟩ :=
          @HostInv.readOne file block _ _ _ _ hb hchecked hthrown block (by simp only; omega)
        dsimp only
        split
        · rename_i hsome
          refine ⟨hread, fun hnone => ?_⟩
          rw [hnone] at hsome
          cases hsome
        · rename_i hsome
          rw [Option.not_isSome_iff_eq_none] at hsome
          have heq := hoffset hsome
          simp only at heq
          obtain ⟨hinv, hend⟩ := ih hread hsome (by omega)
          refine ⟨hinv, fun hnone => ?_⟩
          rcases hend hnone with hall | hstop
          · rw [heq] at hall
            exact Or.inl (by rw [hall, Nat.add_mul, Nat.one_mul]; omega)
          · exact Or.inr hstop

/-- The rest is read unless it throws or is stopped. -/
theorem HostInv.readRest (hb : batch.Readable heap base) (h : HostInv base batch file.bytes r)
    (hnone : r.thrown = none) :
    HostInv base batch file.bytes (r.readRest file block stopped batch.stop) ∧
      (r.readRest file block stopped batch.stop).checks = r.checks + 1 ∧
      ((r.readRest file block stopped batch.stop).thrown = none →
        (r.readRest file block stopped batch.stop).fileOffset = batch.stop ∨
          stopped r.checks = true) := by
  have hle := h.le_stop
  have hchecked : HostInv base batch file.bytes { r with checks := r.checks + 1 } :=
    ⟨h.inv, h.start_le, h.le_stop, h.buffer, h.pos, h.thrown⟩
  unfold HostRead.readRest
  split
  · obtain ⟨hread, hchecks, hoffset⟩ :=
      @HostInv.readOne file block _ _ _ _ hb hchecked hnone (batch.stop - r.fileOffset)
        (by simp only; omega)
    refine ⟨hread, hchecks, fun hnone => Or.inl ?_⟩
    have heq := hoffset hnone
    simp only at heq
    omega
  · rename_i hcond
    refine ⟨hchecked, rfl, fun _ => ?_⟩
    cases hstopped : stopped r.checks with
    | true => exact Or.inr rfl
    | false =>
        left
        simp only
        by_contra hne
        exact hcond ⟨by omega, hstopped⟩

/-- What is left when the reading ended: nothing, if no code is thrown. -/
theorem HostInv.conclude (hb : batch.Readable heap base) (h : HostInv base batch file.bytes r)
    (hmono : ∀ c, stopped c = true → stopped (c + 1) = true)
    (hall : r.fileOffset = batch.stop ∨ stopped r.checks = true) :
    ReadInv base batch file.bytes r.fileOffset (r.conclude stopped batch.stop).s.batch.unfinished
        (r.conclude stopped batch.stop).s ∧
      ((r.conclude stopped batch.stop).thrown.getD .success = .success →
        (r.conclude stopped batch.stop).s.batch.unfinished = batch.tasks.length) := by
  unfold HostRead.conclude
  cases hstopped : stopped r.checks with
  | true =>
      refine ⟨h.inv, fun hcode => ?_⟩
      simp [hmono _ hstopped] at hcode
  | false =>
      have hend : r.fileOffset = batch.stop := by
        rcases hall with heq | hstop
        · exact heq
        · rw [hstopped] at hstop
          cases hstop
      obtain ⟨u, hinv, hunfinished, hanswered⟩ := h.inv.finishedUntil hb rfl hend.ge
      simp only [Bool.false_eq_true, if_false, hunfinished]
      refine ⟨hinv, fun _ => ?_⟩
      by_contra hne
      have hlt : u < batch.tasks.length := by
        have hle := hinv.le_length
        omega
      have hget := List.getElem?_eq_getElem hlt
      have hbound := (hb.bounds (List.mem_of_getElem? hget)).2
      exact Nat.lt_irrefl u ((hanswered u _ hget).2 (Or.inr hbound))

/-- What {lit}`Batch::read` leaves to {lit}`Batch::handle_error`. -/
theorem read_leaves (hb : batch.Readable heap base) (file : OpenFile) (block : Nat)
    (hmono : ∀ c, stopped c = true → stopped (c + 1) = true) :
    (∃ reach, ReadInv base batch file.bytes reach
        (batch.read file block stopped heap).s.batch.unfinished
        (batch.read file block stopped heap).s) ∧
      ((batch.read file block stopped heap).thrown.getD .success = .success →
        (batch.read file block stopped heap).s.batch.unfinished = batch.tasks.length) := by
  have hstart := readInv_start base batch file.bytes
  rw [← hb.unfinished_eq] at hstart
  have hmono_le : ∀ c d, c ≤ d → stopped c = true → stopped d = true := by
    intro c d hcd hc
    induction d, hcd using Nat.le_induction with
    | base => exact hc
    | succ d _ ih => exact hmono d ih
  unfold Batch.read
  dsimp only
  split
  · rename_i hnil
    exact ⟨⟨_, hstart⟩, fun _ => by rw [hnil, List.length_nil]; exact hb.unfinished_eq⟩
  · rename_i task tasks hcons
    have hmem : task ∈ batch.tasks := by simp [hcons]
    have hfirst : task.info.offset = batch.start := by
      have hchain := hb.contiguous
      rw [hcons] at hchain
      exact hchain.1
    have hle := (hb.bounds hmem).2
    have hsize := hb.stop_eq task hmem
    have hdst := hb.destination task hmem
    rw [hfirst, Nat.sub_self, ptrAdd_zero] at hdst
    simp only [hdst]
    split
    · rename_i hseek
      refine ⟨⟨_, hstart⟩, fun hcode => ?_⟩
      rw [Option.getD_some] at hcode
      exact absurd hcode hseek
    · have hinit : HostInv base batch file.bytes
          ⟨⟨batch, []⟩, batch.start, batch.start, base, 0, none⟩ := by
        exact ⟨hstart, Nat.le_refl _, by simp only; omega, by simp, fun _ => rfl,
          fun code hcode => by cases hcode⟩
      have hblocks : batch.start + (batch.stop - batch.start) / block * block ≤ batch.stop := by
        have hdiv := Nat.div_mul_le_self (batch.stop - batch.start) block
        omega
      obtain ⟨hloop, hloopEnd⟩ :=
        @HostInv.readBlocks file block stopped _ _ _ _ hb _ hinit rfl hblocks
      split
      · rename_i hsome
        obtain ⟨code, hcode⟩ := Option.isSome_iff_exists.1 hsome
        refine ⟨⟨_, hloop.inv⟩, fun hsuccess => ?_⟩
        rw [hcode, Option.getD_some] at hsuccess
        exact absurd hsuccess (hloop.thrown code hcode)
      · rename_i hloopNone
        rw [Option.not_isSome_iff_eq_none] at hloopNone
        obtain ⟨hrest, hchecks, hrestEnd⟩ :=
          @HostInv.readRest file block stopped _ _ _ _ hb hloop hloopNone
        split
        · rename_i hsome
          obtain ⟨code, hcode⟩ := Option.isSome_iff_exists.1 hsome
          refine ⟨⟨_, hrest.inv⟩, fun hsuccess => ?_⟩
          rw [hcode, Option.getD_some] at hsuccess
          exact absurd hsuccess (hrest.thrown code hcode)
        · rename_i hrestNone
          rw [Option.not_isSome_iff_eq_none] at hrestNone
          have hall := hrestEnd hrestNone
          have hended := hrest.conclude hb hmono (by
            rcases hall with heq | hstop
            · exact Or.inl heq
            · exact Or.inr (hmono_le _ _ (by rw [hchecks]; omega) hstop))
          exact ⟨⟨_, hended.1⟩, hended.2⟩

/-- The bytes of a file, if there is one. -/
def contentOf (file : Option OpenFile) : Nat → UInt8 :=
  (file.map OpenFile.bytes).getD fun _ => 0

/-- A batch that cannot be read is failed as a whole. -/
theorem fail_answers (hb : batch.Readable heap base) (content : Nat → UInt8)
    {code : ResponseCode} (hcode : code ≠ .success) :
    EveryMoment (AnswersTruly heap content batch) (BatchRead.handleError ⟨batch, []⟩ code).log ∧
      AllAnswered batch.tasks.length (BatchRead.handleError ⟨batch, []⟩ code).log := by
  have hstart := readInv_start base batch content
  obtain ⟨hfinishes, hmoments, hinPlace⟩ :=
    hstart.handleError hb fun hsuccess => absurd hsuccess hcode
  exact ⟨everyMoment_truly hb hmoments hinPlace, 0, Nat.zero_le _, code, fun _ => hcode,
    hfinishes⟩

/--
For every file, block size and moment of the stop: at every moment the tasks answered with
success are the first ones, with all their bytes in memory, and at the end all tasks are
answered.
-/
theorem execute_answers (hb : batch.Readable heap base) (file : Option OpenFile) (block : Nat)
    (hmono : ∀ c, stopped c = true → stopped (c + 1) = true) :
    EveryMoment (AnswersTruly heap (contentOf file) batch)
        (batch.execute file block stopped heap).log ∧
      AllAnswered batch.tasks.length (batch.execute file block stopped heap).log := by
  unfold Batch.execute
  split
  · exact fail_answers hb _ (by decide)
  · split
    · exact fail_answers hb _ (by decide)
    · split
      · rename_i file _
        obtain ⟨⟨reach, hinv⟩, hcode⟩ := read_leaves hb file block hmono
        obtain ⟨hfinishes, hmoments, hinPlace⟩ := hinv.handleError hb hcode
        refine ⟨everyMoment_truly hb hmoments hinPlace, _, hinv.le_length, _,
          fun hlt hsuccess => ?_, hfinishes⟩
        have hall := hcode hsuccess
        omega
      · exact fail_answers hb _ (by decide)

end Host

end Streamer
end ModelStreamer
