import ModelStreamer.Streamer.AssignerSpec

/-!
# Dividing does not look at offsets

{lit}`Assigner::assign` decides by sizes and files only; an offset is carried into the slices
and never compared.  The division of transfers at the start of their files therefore tells
the division of the same transfers at any place, also where an offset and a size add up to
more than a {lit}`size_t` holds.

Main results:

- Theorem {lit}`assign_moveBy`: transfers that are moved are divided into the moved slices.
- Theorem {lit}`assign_anywhere`: the division of transfers at any place succeeds.
-/

namespace ModelStreamer
namespace Streamer

open Common Lib

/-! ## Moving -/

/-- The slice {lit}`n` bytes further into its file. -/
def FileReadTask.moveBy (task : FileReadTask) (n : Nat) : FileReadTask :=
  { task with offsetInFile := wordAdd 64 task.offsetInFile n }

/-- The transfer with its slices {lit}`n` bytes further into its file. -/
def ContiguousTransfer.moveBy (t : ContiguousTransfer) (n : Nat) : ContiguousTransfer :=
  { t with
    offset := wordAdd 64 t.offset n
    tasks := t.tasks.map fun task => task.moveBy n }

/-- Every transfer is moved, by a number of bytes of its own. -/
def moveTransfers (f : Nat → Nat) (ts : List ContiguousTransfer) : List ContiguousTransfer :=
  ts.mapIdx fun i t => t.moveBy (f i)

/-- The state with its transfers moved. -/
def AssignState.moveBy (s : AssignState) (f : Nat → Nat) : AssignState :=
  { s with transfers := moveTransfers f s.transfers }

/-- A slice of a moved transfer is the moved slice. -/
theorem ContiguousTransfer.moveBy_addTask (t : ContiguousTransfer) (n w c k : Nat) :
    (t.addTask (t.slice w c k)).moveBy n =
      (t.moveBy n).addTask ((t.moveBy n).slice w c k) := by
  simp [ContiguousTransfer.moveBy, ContiguousTransfer.addTask, ContiguousTransfer.slice,
    FileReadTask.moveBy, wordAdd_right_comm]

theorem moveTransfers_cons (f : Nat → Nat) (t : ContiguousTransfer)
    (ts : List ContiguousTransfer) :
    moveTransfers f (t :: ts) = t.moveBy (f 0) :: moveTransfers (fun i => f (i + 1)) ts := by
  simp [moveTransfers, List.mapIdx_cons]

theorem getElem?_moveTransfers (f : Nat → Nat) (ts : List ContiguousTransfer) (i : Nat) :
    (moveTransfers f ts)[i]? = ts[i]?.map fun t => t.moveBy (f i) := by
  simp [moveTransfers]

/-- A moved transfer comes from one at the same index. -/
theorem mem_moveTransfers {f : Nat → Nat} {ts : List ContiguousTransfer}
    {t : ContiguousTransfer} (h : t ∈ moveTransfers f ts) :
    ∃ i, ∃ t₀ : ContiguousTransfer, ts[i]? = some t₀ ∧ t = t₀.moveBy (f i) := by
  obtain ⟨i, hi⟩ := List.mem_iff_getElem?.1 h
  rw [getElem?_moveTransfers] at hi
  obtain ⟨t₀, ht₀, heq⟩ := Option.map_eq_some_iff.1 hi
  exact ⟨i, t₀, ht₀, heq.symm⟩

theorem map_core_moveTransfers (f : Nat → Nat) (ts : List ContiguousTransfer) :
    (moveTransfers f ts).map ContiguousTransfer.core =
      moveTransfers f (ts.map ContiguousTransfer.core) := by
  induction ts generalizing f with
  | nil => rfl
  | cons t ts ih =>
      have hhead : (t.moveBy (f 0)).core = t.core.moveBy (f 0) := rfl
      simp only [moveTransfers_cons, List.map_cons, ih, hhead]

/-- Giving a slice of a moved transfer. -/
theorem AssignState.moveBy_give (s : AssignState) (f : Nat → Nat) (i : Nat)
    (t : ContiguousTransfer) (bytes w c k : Nat) :
    (s.give i t bytes w c k).moveBy f =
      (s.moveBy f).give i (t.moveBy (f i)) bytes w c k := by
  simp [AssignState.give, AssignState.moveBy, moveTransfers, List.mapIdx_set,
    ContiguousTransfer.moveBy_addTask]

/-! ## The loops -/

/-- One workload takes the moved slices. -/
theorem assignSlot_moveBy (f : Nat → Nat) {w target fuel consumed assigned consumed' : Nat}
    {indices indices' : List Nat} {s r : AssignState}
    (hrun : assignSlot w target fuel indices consumed assigned s =
      .ok (indices', consumed', r)) :
    assignSlot w target fuel indices consumed assigned (s.moveBy f) =
      .ok (indices', consumed', r.moveBy f) := by
  induction fuel generalizing indices consumed assigned s with
  | zero => cases hrun
  | succ fuel ih =>
      cases indices with
      | nil =>
          cases hrun
          rfl
      | cons index rest =>
          rw [assignSlot] at hrun ⊢
          have hworkers : (s.moveBy f).workerBytes = s.workerBytes := rfl
          rw [hworkers]
          cases ht : s.transfers[index]? with
          | none => simp [ht] at hrun
          | some t =>
              cases hbytes : s.workerBytes[w]? with
              | none => simp [ht, hbytes] at hrun
              | some bytes =>
                  have hmoved : (s.moveBy f).transfers[index]? = some (t.moveBy (f index)) := by
                    simp [AssignState.moveBy, getElem?_moveTransfers, ht]
                  have hsize : (t.moveBy (f index)).size = t.size := rfl
                  simp only [ht, hbytes, hmoved, hsize, ← AssignState.moveBy_give] at hrun ⊢
                  split at hrun
                  · rename_i hfull
                    rw [if_pos hfull]
                    cases hrun
                    rfl
                  · rename_i hroom
                    rw [if_neg hroom]
                    split at hrun
                    · rename_i hlast
                      rw [if_pos hlast]
                      exact ih hrun
                    · rename_i hmore
                      rw [if_neg hmore]
                      exact ih hrun

/-- The slots of a group take the moved slices. -/
theorem assignSlots_moveBy (f : Nat → Nat) {share : WorkerShare} {group : Int}
    {first left slot consumed used used' : Nat} {indices : List Nat} {s r : AssignState}
    (hrun : assignSlots share first group left slot indices consumed used s =
      .ok (used', r)) :
    assignSlots share first group left slot indices consumed used (s.moveBy f) =
      .ok (used', r.moveBy f) := by
  induction left generalizing slot indices consumed used s with
  | zero =>
      cases hrun
      rfl
  | succ left ih =>
      cases indices with
      | nil =>
          cases hrun
          rfl
      | cons index rest =>
          rw [assignSlots] at hrun ⊢
          cases hslot : assignSlot (wordAdd 32 first slot) (share.target slot)
              ((index :: rest).length + 2) (index :: rest) consumed 0 s with
          | error e =>
              simp only [hslot, bind, Except.bind] at hrun
              cases hrun
          | ok taken =>
              obtain ⟨indices', consumed', s'⟩ := taken
              simp only [hslot, assignSlot_moveBy f hslot, bind, Except.bind] at hrun ⊢
              exact ih hrun

theorem assignGroup_moveBy (f : Nat → Nat) {block workers first bytes used : Nat}
    {group : Int} {indices : List Nat} {s r : AssignState}
    (hrun : assignGroup block indices workers first bytes group s = .ok (used, r)) :
    assignGroup block indices workers first bytes group (s.moveBy f) =
      .ok (used, r.moveBy f) := by
  unfold assignGroup at hrun ⊢
  split at hrun
  · rename_i hnil
    cases hrun
    rw [if_pos hnil]
  · rename_i hne
    rw [if_neg hne]
    exact assignSlots_moveBy f hrun

theorem assignAsyncGroups_moveBy (f : Nat → Nat) {block used used' : Nat}
    {groups : List (Int × GroupLoad)} {s r : AssignState}
    (hrun : assignAsyncGroups block groups used s = .ok (used', r)) :
    assignAsyncGroups block groups used (s.moveBy f) = .ok (used', r.moveBy f) := by
  induction groups generalizing used s with
  | nil =>
      cases hrun
      rfl
  | cons entry groups ih =>
      obtain ⟨group, load⟩ := entry
      rw [assignAsyncGroups] at hrun ⊢
      cases hgroup : assignGroup block load.indices 1 used load.bytes group s with
      | error e =>
          simp only [hgroup, bind, Except.bind] at hrun
          cases hrun
      | ok taken =>
          obtain ⟨n, s'⟩ := taken
          simp only [hgroup, assignGroup_moveBy f hgroup, bind, Except.bind] at hrun ⊢
          exact ih hrun

/-- The groups of the transfers do not depend on their places. -/
theorem groupTransfers_moveTransfers (groupByFile : List Int32) (f : Nat → Nat)
    (ts : List ContiguousTransfer) (i : Nat) (sync : GroupLoad)
    (async : OrderedMap Int GroupLoad) :
    groupTransfers groupByFile i (moveTransfers f ts) sync async =
      groupTransfers groupByFile i ts sync async := by
  induction ts generalizing f i sync async with
  | nil => rfl
  | cons t ts ih =>
      have hfile : (t.moveBy (f 0)).fileIndex = t.fileIndex := rfl
      have hsize : (t.moveBy (f 0)).size = t.size := rfl
      simp only [moveTransfers_cons, groupTransfers, hfile, hsize, ih]

/-! ## The division -/

/-- The closing verification looks at sizes only. -/
theorem verified_moveTransfers {f : Nat → Nat} {ts : List ContiguousTransfer}
    (h : ∀ t ∈ ts, sumSizes (t.tasks.map FileReadTask.size) = t.size) :
    ∀ t ∈ moveTransfers f ts, sumSizes (t.tasks.map FileReadTask.size) = t.size := by
  intro t ht
  obtain ⟨i, t₀, ht₀, rfl⟩ := mem_moveTransfers ht
  have hsizes : ((t₀.moveBy (f i)).tasks.map FileReadTask.size) =
      t₀.tasks.map FileReadTask.size := by
    simp [ContiguousTransfer.moveBy, Function.comp_def, FileReadTask.moveBy]
  rw [hsizes]
  exact h t₀ (List.mem_of_getElem? ht₀)

/-- A division that succeeds also succeeds on the moved transfers, with the moved slices. -/
theorem assign_moveBy (f : Nat → Nat) {block workers total : Nat} {groupByFile : List Int32}
    {ts : List ContiguousTransfer} {a : Assigner}
    (hrun : assign block workers groupByFile ts total = .ok a) :
    assign block workers groupByFile (moveTransfers f ts) total =
      .ok { a with transfers := moveTransfers f a.transfers } := by
  simp only [assign, groupTransfers_moveTransfers] at hrun ⊢
  generalize groupTransfers groupByFile 0 ts .empty .empty = groups at hrun ⊢
  obtain ⟨sync, async⟩ := groups
  simp only at hrun ⊢
  generalize toWord 32 (workers + toWord 32 async.entries.length + 1) = ceiling at hrun ⊢
  have hstart : AssignState.mk (moveTransfers f ts) (List.replicate ceiling 0)
      (List.replicate ceiling (-1)) =
    (AssignState.mk ts (List.replicate ceiling 0) (List.replicate ceiling (-1))).moveBy f := rfl
  rw [hstart]
  generalize AssignState.mk ts (List.replicate ceiling 0) (List.replicate ceiling (-1)) = s
    at hrun
  cases hsync : assignGroup block sync.indices workers 0 sync.bytes (-1) s with
  | error e =>
      simp only [hsync, bind, Except.bind] at hrun
      cases hrun
  | ok first =>
      obtain ⟨usedSync, r⟩ := first
      simp only [hsync, assignGroup_moveBy f hsync, bind, Except.bind] at hrun ⊢
      cases hasync : assignAsyncGroups block async.entries usedSync r with
      | error e =>
          simp only [hasync] at hrun
          cases hrun
      | ok second =>
          obtain ⟨used, r'⟩ := second
          simp only [hasync, assignAsyncGroups_moveBy f hasync] at hrun ⊢
          by_cases htotal : sumSizes (resize 0 (max used 1) r'.workerBytes) = total
          · have htotal' : sumSizes (resize 0 (max used 1) (r'.moveBy f).workerBytes) =
                total := htotal
            rw [assertThat_of htotal] at hrun
            rw [assertThat_of htotal']
            by_cases hverified : ∀ t ∈ r'.transfers,
                sumSizes (t.tasks.map FileReadTask.size) = t.size
            · have hverified' : ∀ t ∈ (r'.moveBy f).transfers,
                  sumSizes (t.tasks.map FileReadTask.size) = t.size :=
                verified_moveTransfers hverified
              simp only [assertThat_of hverified] at hrun
              simp only [assertThat_of hverified']
              cases hrun
              rfl
            · simp only [assertThat, if_neg hverified] at hrun
              cases hrun
          · simp only [assertThat, if_neg htotal] at hrun
            cases hrun

/-- The slices cover the transfer from its first byte on; places are counted in words. -/
structure Sliced (t : ContiguousTransfer) : Prop where
  first : ∃ first rest, t.tasks = first :: rest ∧ first.offsetInFile = t.offset
  sum_eq : (t.tasks.map FileReadTask.size).sum = t.size
  positive : 0 < t.size → ∀ task ∈ t.tasks, 0 < task.size

/-- The slices of a divided transfer still cover it when both are moved. -/
theorem Divided.sliced_moveBy {limit : Nat} {t : ContiguousTransfer} (h : Divided limit t)
    (n : Nat) : Sliced (t.moveBy n) := by
  have hchain := h.sliced.contiguous
  obtain ⟨first, rest, htasks⟩ := List.exists_cons_of_ne_nil h.tasks_ne_nil
  have hsizes : (t.moveBy n).tasks.map FileReadTask.size = t.tasks.map FileReadTask.size := by
    simp [ContiguousTransfer.moveBy, Function.comp_def, FileReadTask.moveBy]
  constructor
  · refine ⟨first.moveBy n, rest.map fun task => task.moveBy n, ?_, ?_⟩
    · simp [ContiguousTransfer.moveBy, htasks]
    · rw [htasks] at hchain
      simp only [FileReadTask.moveBy, ContiguousTransfer.moveBy, hchain.1]
  · rw [hsizes]
    have hsum := hchain.sum_sizes FileReadTask.size fun _ _ => rfl
    simp only [ContiguousTransfer.moveBy]
    omega
  · intro hpos task htask
    obtain ⟨task₀, htask₀, rfl⟩ := List.mem_map.1 htask
    exact h.sliced.positive hpos task₀ htask₀

/-- The transfer at the start of its file. -/
def ContiguousTransfer.atZero (t : ContiguousTransfer) : ContiguousTransfer :=
  { t with offset := 0 }

/-- The places the transfers are moved back to. -/
def placesOf (ts : List ContiguousTransfer) (i : Nat) : Nat :=
  (ts[i]?.map ContiguousTransfer.offset).getD 0

/-- Transfers without slices that were moved to the start of their files and back. -/
theorem moveTransfers_atZero {ts : List ContiguousTransfer} (hfresh : ∀ t ∈ ts, t.tasks = [])
    (hword : ∀ t ∈ ts, t.offset < 2 ^ 64) :
    moveTransfers (placesOf ts) (ts.map ContiguousTransfer.atZero) = ts := by
  apply List.ext_getElem?
  intro i
  rw [getElem?_moveTransfers, List.getElem?_map]
  cases ht : ts[i]? with
  | none => rfl
  | some t =>
      have hmem := List.mem_of_getElem? ht
      have hback : wordAdd 64 0 t.offset = t.offset := by
        rw [wordAdd_of_lt (by have := hword t hmem; omega), Nat.zero_add]
      simp only [Option.map_some, placesOf, ht, Option.getD_some, ContiguousTransfer.atZero,
        ContiguousTransfer.moveBy, hback, hfresh t hmem, List.map_nil, Option.some.injEq]
      rw [← hfresh t hmem]

/-- Transfers at any place are divided, into slices that cover them. -/
theorem assign_anywhere (block : Nat) {numWorkers : Nat} (groupByFile : List Int32)
    {transfers : List ContiguousTransfer} {totalBytes : Nat}
    (hworkers : numWorkers ≤ maxConcurrency) (hpos : 0 < numWorkers)
    (hfresh : ∀ t ∈ transfers, t.tasks = []) (hword : ∀ t ∈ transfers, t.offset < 2 ^ 64)
    (htotal : totalBytes = (transfers.map ContiguousTransfer.size).sum)
    (hlt : totalBytes < 2 ^ 64) :
    ∃ a, assign block numWorkers groupByFile transfers totalBytes = .ok a ∧
      a.transfers.map ContiguousTransfer.core = transfers.map ContiguousTransfer.core ∧
      ∀ t ∈ a.transfers, Sliced t := by
  have hsizes : ((transfers.map ContiguousTransfer.atZero).map ContiguousTransfer.size) =
      transfers.map ContiguousTransfer.size := by
    rw [List.map_map]
    rfl
  have hfits : ∀ t ∈ transfers.map ContiguousTransfer.atZero, t.offset + t.size < 2 ^ 64 := by
    intro t ht
    have hle : t.size ≤ ((transfers.map ContiguousTransfer.atZero).map
        ContiguousTransfer.size).sum :=
      List.le_sum_of_mem (List.mem_map_of_mem ht)
    rw [hsizes] at hle
    obtain ⟨t₀, -, rfl⟩ := List.mem_map.1 ht
    simp only [ContiguousTransfer.atZero] at hle ⊢
    omega
  have hfresh' : ∀ t ∈ transfers.map ContiguousTransfer.atZero, t.tasks = [] := by
    intro t ht
    obtain ⟨t₀, ht₀, rfl⟩ := List.mem_map.1 ht
    exact hfresh t₀ ht₀
  obtain ⟨a, ha, hcore, hdivided⟩ := assign_spec block groupByFile hworkers hpos hfresh' hfits
    (htotal.trans (congrArg List.sum hsizes).symm) hlt
  have hmoved := assign_moveBy (placesOf transfers) ha
  rw [moveTransfers_atZero hfresh hword] at hmoved
  refine ⟨_, hmoved, ?_, fun t ht => ?_⟩
  · simp only [map_core_moveTransfers, hcore]
    rw [← map_core_moveTransfers, moveTransfers_atZero hfresh hword]
  · obtain ⟨i, t₀, ht₀, rfl⟩ := mem_moveTransfers ht
    exact (hdivided t₀ (List.mem_of_getElem? ht₀)).sliced_moveBy _

end Streamer
end ModelStreamer
