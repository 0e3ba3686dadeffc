import ModelStreamer.Streamer.AssignerSpec

/-!
# What each workload of a group gets

The slices of a group, transfer after transfer, are the slices of its first workload, then
those of the second one, and so on.  Every workload gets exactly the bytes it aims for.

Main results:

- Theorem {lit}`assignSlot_slices`: one slot appends slices of one workload.
- Theorem {lit}`assignGroup_slices`: the workloads of a group, their bytes and their order.
-/

namespace ModelStreamer
namespace Streamer

open Common Lib

/-! ## Slices in their order -/

/-- The slices of the transfers listed, transfer after transfer. -/
def slicesAt (transfers : List ContiguousTransfer) (indices : List Nat) : List FileReadTask :=
  indices.flatMap fun i => (transfers[i]?.map ContiguousTransfer.tasks).getD []

/-- The slices of the transfer go to consecutive workloads from {lit}`a` on. -/
def ContiguousTransfer.RunsFrom (t : ContiguousTransfer) (a : Nat) : Prop :=
  t.tasks.map FileReadTask.workloadIndex = List.range' a t.tasks.length

theorem slicesAt_congr {transfers transfers' : List ContiguousTransfer} {indices : List Nat}
    (h : ∀ i ∈ indices, transfers[i]? = transfers'[i]?) :
    slicesAt transfers indices = slicesAt transfers' indices := by
  unfold slicesAt
  rw [List.flatMap_congr fun i hi => by rw [h i hi]]

theorem slicesAt_eq_nil {transfers : List ContiguousTransfer} {indices : List Nat}
    (h : ∀ i ∈ indices, ∀ t, transfers[i]? = some t → t.tasks = []) :
    slicesAt transfers indices = [] := by
  rw [slicesAt, List.flatMap_eq_nil_iff]
  intro i hi
  cases hget : transfers[i]? with
  | none => rfl
  | some t => exact h i hi t hget

/-- A slice of the transfer under the cursor comes after all slices before it. -/
theorem slicesAt_addTask {transfers : List ContiguousTransfer} {all rest : List Nat}
    {index : Nat} {t : ContiguousTransfer} (hsuffix : index :: rest <:+ all)
    (hnodup : all.Nodup) (ht : transfers[index]? = some t)
    (hfresh : ∀ i ∈ rest, ∀ u, transfers[i]? = some u → u.tasks = []) (task : FileReadTask) :
    slicesAt (transfers.set index (t.addTask task)) all = slicesAt transfers all ++ [task] := by
  obtain ⟨done, rfl⟩ := hsuffix
  have hdone : index ∉ done := fun hmem =>
    List.disjoint_of_nodup_append hnodup hmem (by simp)
  have hrest : index ∉ rest := (List.nodup_cons.1 hnodup.of_append_right).1
  have hother : ∀ i, i ≠ index →
      (transfers.set index (t.addTask task))[i]? = transfers[i]? := fun i hne => by
    rw [getElem?_set_of_some ht, if_neg hne]
  have hleft : slicesAt (transfers.set index (t.addTask task)) done = slicesAt transfers done :=
    slicesAt_congr fun i hi => hother i fun heq => hdone (heq ▸ hi)
  have hright : slicesAt (transfers.set index (t.addTask task)) rest = [] :=
    slicesAt_eq_nil fun i hi u hu => by
      rw [hother i fun heq => hrest (heq ▸ hi)] at hu
      exact hfresh i hi u hu
  have hright' : slicesAt transfers rest = [] := slicesAt_eq_nil hfresh
  have hself : (transfers.set index (t.addTask task))[index]? = some (t.addTask task) := by
    rw [getElem?_set_of_some ht, if_pos rfl]
  unfold slicesAt at hleft hright hright' ⊢
  simp only [List.flatMap_append, List.flatMap_cons, hleft, hright, hright', hself, ht,
    Option.map_some, Option.getD_some, List.append_nil, List.append_assoc]
  rfl

/-- A slice for the next workload continues the run. -/
theorem ContiguousTransfer.RunsFrom.addTask {t : ContiguousTransfer} {a : Nat}
    (h : t.RunsFrom a) {task : FileReadTask}
    (hnext : task.workloadIndex = a + t.tasks.length) : (t.addTask task).RunsFrom a := by
  unfold RunsFrom at h ⊢
  simp only [ContiguousTransfer.addTask, List.map_append, h, List.map_singleton,
    List.length_append, List.length_singleton, hnext, List.range'_concat, Nat.one_mul]

/-- A run may start anywhere while there is no slice. -/
theorem runsFrom_of_nil {t : ContiguousTransfer} (h : t.tasks = []) (a : Nat) :
    t.RunsFrom a := by
  simp [ContiguousTransfer.RunsFrom, h]

/-! ## One slot -/

section Slot

variable {limit w target : Nat} {before : List ContiguousTransfer} {all : List Nat}
  {log : List FileReadTask} {groups : List Int} {rest : List Nat} {consumed assigned : Nat}
  {s : AssignState}

/--
A slot for workload {lit}`w` that was given {lit}`assigned` bytes after the slices
{lit}`log` of the slots before it.
-/
structure SlotInv (limit w target : Nat) (before : List ContiguousTransfer) (all : List Nat)
    (log : List FileReadTask) (groups : List Int) (rest : List Nat) (consumed assigned : Nat)
    (s : AssignState) : Prop where
  group : GroupInv limit before all rest consumed s.transfers
  part : ∃ part, slicesAt s.transfers all = log ++ part ∧
    (∀ task ∈ part, task.workloadIndex = w) ∧ (part.map FileReadTask.size).sum = assigned
  assigned_le : assigned ≤ target
  groups_eq : s.groupByWorkload = groups
  done : ∀ i ∈ all, i ∉ rest → ∀ t, s.transfers[i]? = some t → ∃ a, t.RunsFrom a
  resume : ∀ index rest', rest = index :: rest' → ∀ t, s.transfers[index]? = some t →
    t.tasks = [] ∨ (0 < consumed ∧ ∃ a, t.RunsFrom a ∧
      (a + t.tasks.length = w ∧ assigned = 0 ∨
        a + t.tasks.length = w + 1 ∧ target ≤ assigned))

variable {index n bytes : Nat} {t : ContiguousTransfer}

/-- The transfer that takes a slice of the workload was last cut for the one before. -/
theorem SlotInv.runs (h : SlotInv limit w target before all log groups (index :: rest)
      consumed assigned s) (ht : s.transfers[index]? = some t)
    (hgo : ¬ (t.size > 0 ∧ assigned ≥ target)) :
    ∃ a, (t.addTask (t.slice w consumed n)).RunsFrom a ∧
      a + (t.addTask (t.slice w consumed n)).tasks.length = w + 1 := by
  have hlength : (t.addTask (t.slice w consumed n)).tasks.length = t.tasks.length + 1 := by
    simp [ContiguousTransfer.addTask]
  rcases h.resume index rest rfl t ht with hnil | ⟨hpos, a, hruns, ⟨hw, -⟩ | ⟨-, hfull⟩⟩
  · refine ⟨w, (runsFrom_of_nil hnil w).addTask ?_, ?_⟩
    · simp [ContiguousTransfer.slice, hnil]
    · rw [hlength, hnil]
      simp
  · exact ⟨a, hruns.addTask hw.symm, by omega⟩
  · have hcurrent := (h.group.current index rest rfl t ht).2
    exact absurd ⟨by omega, hfull⟩ hgo

/-- One more slice of the workload. -/
theorem SlotInv.part_give (h : SlotInv limit w target before all log groups (index :: rest)
      consumed assigned s) (hnodup : all.Nodup) (ht : s.transfers[index]? = some t) :
    ∃ part, slicesAt (s.give index t bytes w consumed n).transfers all = log ++ part ∧
      (∀ task ∈ part, task.workloadIndex = w) ∧
      (part.map FileReadTask.size).sum = assigned + n := by
  obtain ⟨part, hlog, hworkload, hsum⟩ := h.part
  refine ⟨part ++ [t.slice w consumed n], ?_, fun task htask => ?_, ?_⟩
  · rw [AssignState.give, slicesAt_addTask h.group.suffix hnodup ht h.group.fresh, hlog,
      List.append_assoc]
  · rcases List.mem_append.1 htask with hold | hnew
    · exact hworkload task hold
    · rw [List.mem_singleton.1 hnew]
      rfl
  · rw [List.map_append, List.sum_append, hsum]
    simp [ContiguousTransfer.slice]

/-- A slice that ends its transfer. -/
theorem SlotInv.give_last (h : SlotInv limit w target before all log groups (index :: rest)
      consumed assigned s) (hnodup : all.Nodup)
    (hfit : ∀ t ∈ before, t.offset + t.size < 2 ^ 64) (hw : w < limit)
    (ht : s.transfers[index]? = some t) (hgo : ¬ (t.size > 0 ∧ assigned ≥ target))
    (hn : n = min (t.size - consumed) (target - assigned)) (hlast : consumed + n = t.size) :
    SlotInv limit w target before all log groups rest 0 (assigned + n)
      (s.give index t bytes w consumed n) := by
  have hcurrent := h.group.current index rest rfl t ht
  have hle := h.assigned_le
  have hsliced := hcurrent.1.addTask (h.group.stop_lt hfit ht) (n := n) (by omega) (by omega) hw
  have hrest : index ∉ rest :=
    (List.nodup_cons.1 (hnodup.sublist h.group.suffix.sublist)).1
  have hother : ∀ i, i ≠ index →
      (s.give index t bytes w consumed n).transfers[i]? = s.transfers[i]? := fun i hne => by
    rw [AssignState.give, getElem?_set_of_some ht, if_neg hne]
  refine ⟨h.group.last_slice hnodup ht hsliced hlast, h.part_give hnodup ht, by omega,
    h.groups_eq, fun i hi hirest u hu => ?_, fun i rest' heq u hu => Or.inl ?_⟩
  · by_cases hindex : i = index
    · rw [hindex, AssignState.give, getElem?_set_of_some ht, if_pos rfl] at hu
      obtain rfl := Option.some.inj hu
      obtain ⟨a, hruns, -⟩ := h.runs (n := n) ht hgo
      exact ⟨a, hruns⟩
    · rw [hother i hindex] at hu
      exact h.done i hi (by simp [hindex, hirest]) u hu
  · have hmem : i ∈ rest := by simp [heq]
    rw [hother i fun hindex => hrest (hindex ▸ hmem)] at hu
    exact h.group.fresh i hmem u hu

/-- A slice that leaves bytes of its transfer fills the slot. -/
theorem SlotInv.give_partial (h : SlotInv limit w target before all log groups (index :: rest)
      consumed assigned s) (hnodup : all.Nodup)
    (hfit : ∀ t ∈ before, t.offset + t.size < 2 ^ 64) (hw : w < limit)
    (ht : s.transfers[index]? = some t) (hgo : ¬ (t.size > 0 ∧ assigned ≥ target))
    (hn : n = min (t.size - consumed) (target - assigned)) (hlt : consumed + n ≠ t.size) :
    SlotInv limit w target before all log groups (index :: rest) (consumed + n) (assigned + n)
      (s.give index t bytes w consumed n) := by
  have hcurrent := h.group.current index rest rfl t ht
  have hle := h.assigned_le
  have hconsumed := h.group.consumed_le ht
  have hsliced := hcurrent.1.addTask (h.group.stop_lt hfit ht) (n := n) (by omega) (by omega) hw
  refine ⟨h.group.partial_slice hnodup ht hsliced (by omega), h.part_give hnodup ht, by omega,
    h.groups_eq, fun i hi hirest u hu => ?_, fun i rest' heq u hu => Or.inr ⟨by omega, ?_⟩⟩
  · have hindex : i ≠ index := fun hindex => hirest (by simp [hindex])
    rw [AssignState.give, getElem?_set_of_some ht, if_neg hindex] at hu
    exact h.done i hi hirest u hu
  · obtain ⟨rfl, rfl⟩ := List.cons.inj heq
    rw [AssignState.give, getElem?_set_of_some ht, if_pos rfl] at hu
    obtain rfl := Option.some.inj hu
    obtain ⟨a, hruns, hlength⟩ := h.runs (n := n) ht hgo
    exact ⟨a, hruns, Or.inr ⟨hlength, by omega⟩⟩

/-- A slot stops when the group is used up, or when it is full at a transfer with bytes. -/
def SlotStopped (target : Nat) (rest : List Nat) (assigned : Nat) (s : AssignState) : Prop :=
  rest = [] ∨ (target ≤ assigned ∧ ∀ index rest', rest = index :: rest' →
    ∀ t, s.transfers[index]? = some t → 0 < t.size)

/-- A slot appends slices of one workload. -/
theorem assignSlot_slices (htarget : target < 2 ^ 64)
    (hfit : ∀ t ∈ before, t.offset + t.size < 2 ^ 64) (hnodup : all.Nodup) (hw : w < limit)
    (fuel : Nat) {rest' : List Nat} {consumed' : Nat} {s' : AssignState}
    (h : SlotInv limit w target before all log groups rest consumed assigned s)
    (hrun : assignSlot w target fuel rest consumed assigned s = .ok (rest', consumed', s')) :
    ∃ assigned', SlotInv limit w target before all log groups rest' consumed' assigned' s' ∧
      SlotStopped target rest' assigned' s' := by
  induction fuel generalizing rest consumed assigned s with
  | zero => cases hrun
  | succ fuel ih =>
      cases rest with
      | nil =>
          cases hrun
          exact ⟨assigned, h, Or.inl rfl⟩
      | cons index rest =>
          rw [assignSlot] at hrun
          split at hrun
          · rename_i t bytes ht hbytes
            split at hrun
            · rename_i hstop
              cases hrun
              refine ⟨assigned, h, Or.inr ⟨hstop.2, fun i r heq u hu => ?_⟩⟩
              obtain ⟨rfl, -⟩ := List.cons.inj heq
              obtain rfl := Option.some.inj (ht.symm.trans hu)
              exact hstop.1
            · rename_i hgo
              have hconsumed := h.group.consumed_le ht
              have hstop := h.group.stop_lt hfit ht
              simp only [wordSub_of_le hconsumed (show t.size < 2 ^ 64 by omega),
                wordSub_of_le h.assigned_le htarget] at hrun
              split at hrun
              · rename_i hlast
                exact ih (h.give_last hnodup hfit hw ht hgo rfl hlast) hrun
              · rename_i hlast
                exact ih (h.give_partial hnodup hfit hw ht hgo rfl hlast) hrun
          · cases hrun

/-! ## All slots -/

variable {share : WorkerShare} {first slot left : Nat} {group : Int}

/-- The bytes of a list of slices. -/
def sliceBytes (slices : List FileReadTask) : Nat :=
  (slices.map FileReadTask.size).sum

/-- The lists of slices are those of the workloads from {lit}`first` on, within their targets. -/
def WorkloadParts (share : WorkerShare) (first : Nat) (parts : List (List FileReadTask)) :
    Prop :=
  ∀ k part, parts[k]? = some part →
    (∀ task ∈ part, task.workloadIndex = first + k) ∧ sliceBytes part ≤ share.target k

theorem WorkloadParts.concat {parts : List (List FileReadTask)} {part : List FileReadTask}
    (h : WorkloadParts share first parts)
    (hworkload : ∀ task ∈ part, task.workloadIndex = first + parts.length)
    (hle : sliceBytes part ≤ share.target parts.length) :
    WorkloadParts share first (parts ++ [part]) := by
  intro k other hget
  by_cases hk : k < parts.length
  · rw [List.getElem?_append_left hk] at hget
    exact h k other hget
  · rw [List.getElem?_append_right (by omega), List.getElem?_singleton] at hget
    split at hget
    · rename_i hzero
      obtain rfl := Option.some.inj hget
      rw [show k = parts.length by omega]
      exact ⟨hworkload, hle⟩
    · cases hget

/--
A group after the first {lit}`slot` of its slots, with {lit}`left` to come and the groups of
the workloads as they were before in {lit}`groups`.
-/
structure SlotsInv (share : WorkerShare) (first : Nat) (group : Int)
    (before : List ContiguousTransfer) (all : List Nat) (groups : List Int) (slot left : Nat)
    (rest : List Nat) (consumed : Nat) (s : AssignState) : Prop where
  inv : GroupInv (first + slot) before all rest consumed s.transfers
  parts : ∃ parts, slicesAt s.transfers all = parts.flatten ∧ parts.length = slot ∧
    WorkloadParts share first parts
  groups_length : s.groupByWorkload.length = groups.length
  groups_eq : ∀ w, s.groupByWorkload[w]? =
    if first ≤ w ∧ w < first + slot ∧ w < groups.length then some group else groups[w]?
  done : ∀ i ∈ all, i ∉ rest → ∀ t, s.transfers[i]? = some t → ∃ a, t.RunsFrom a
  resume : 0 < left → ∀ index rest', rest = index :: rest' →
    ∀ t, s.transfers[index]? = some t →
      t.tasks = [] ∨ (0 < consumed ∧ ∃ a, t.RunsFrom a ∧ a + t.tasks.length = first + slot)
  stopped : 0 < slot → ∀ index rest', rest = index :: rest' →
    ∀ t, s.transfers[index]? = some t → 0 < t.size

/-- A slot of the group starts. -/
theorem SlotsInv.slotStart
    (h : SlotsInv share first group before all groups slot (left + 1) rest consumed s) :
    SlotInv (first + slot + 1) (first + slot) (share.target slot) before all
      (slicesAt s.transfers all) s.groupByWorkload rest consumed 0 s := by
  refine ⟨h.inv.mono (by omega), ⟨[], by simp, by simp, rfl⟩, Nat.zero_le _, rfl, h.done,
    fun index rest' heq t ht => ?_⟩
  rcases h.resume (Nat.succ_pos left) index rest' heq t ht with hnil | ⟨hpos, a, hruns, hlength⟩
  · exact Or.inl hnil
  · exact Or.inr ⟨hpos, a, hruns, Or.inl ⟨hlength, rfl⟩⟩

/-- A slot of the group ends; only the last one may aim for nothing. -/
theorem SlotsInv.slotEnd
    (h : SlotsInv share first group before all groups slot (left + 1) rest consumed s)
    {rest' : List Nat} {consumed' : Nat} {s' : AssignState}
    (hslot : SlotInv (first + slot + 1) (first + slot) (share.target slot) before all
      (slicesAt s.transfers all) s.groupByWorkload rest' consumed' assigned s')
    (hstopped : SlotStopped (share.target slot) rest' assigned s')
    (hpos : 0 < left → 0 < share.target slot) :
    SlotsInv share first group before all groups (slot + 1) left rest' consumed'
      { s' with groupByWorkload := s'.groupByWorkload.set (first + slot) group } := by
  obtain ⟨parts, hparts, hlength, hworkloads⟩ := h.parts
  obtain ⟨part, hpart, hworkload, hsum⟩ := hslot.part
  subst hlength
  refine ⟨hslot.group, ⟨parts ++ [part], ?_, by simp, ?_⟩, ?_, fun w => ?_, hslot.done,
    fun hleft index rest'' heq t ht => ?_, fun _ index rest'' heq t ht => ?_⟩
  · rw [hpart, hparts]
    simp
  · apply hworkloads.concat hworkload
    have hle := hslot.assigned_le
    rw [sliceBytes, hsum]
    exact hle
  · simp only [List.length_set, hslot.groups_eq]
    exact h.groups_length
  · simp only [hslot.groups_eq, List.getElem?_set, h.groups_length, h.groups_eq w]
    by_cases hw : first + parts.length = w
    · subst hw
      by_cases hlt : first + parts.length < groups.length
      · simp [hlt]
      · simp [hlt]
    · rw [if_neg hw]
      have hiff : (first ≤ w ∧ w < first + parts.length ∧ w < groups.length) ↔
          (first ≤ w ∧ w < first + (parts.length + 1) ∧ w < groups.length) := by omega
      simp only [hiff]
  · rcases hstopped with hnil | ⟨hfull, -⟩
    · rw [hnil] at heq
      cases heq
    · have htarget := hpos hleft
      rcases hslot.resume index rest'' heq t ht with hnil | ⟨hconsumed, a, hruns, hcases⟩
      · exact Or.inl hnil
      · refine Or.inr ⟨hconsumed, a, hruns, ?_⟩
        omega
  · rcases hstopped with hnil | ⟨-, hbytes⟩
    · rw [hnil] at heq
      cases heq
    · exact hbytes index rest'' heq t ht

/-- The slots of a group keep its invariant. -/
theorem assignSlots_slices (hfit : ∀ t ∈ before, t.offset + t.size < 2 ^ 64)
    (hnodup : all.Nodup) (htargets : ∀ k, share.target k < 2 ^ 64) (left : Nat) {used : Nat}
    {s' : AssignState}
    (h : SlotsInv share first group before all groups slot left rest consumed s)
    (hpos : ∀ k, k + 1 < slot + left → 0 < share.target k)
    (hword : first + slot + left < 2 ^ 32)
    (hrun : assignSlots share first group left slot rest consumed slot s = .ok (used, s')) :
    ∃ left' rest' consumed',
      SlotsInv share first group before all groups used left' rest' consumed' s' ∧
        slot ≤ used ∧ used ≤ slot + left ∧ (0 < left → rest ≠ [] → slot < used) := by
  induction left generalizing slot rest consumed s with
  | zero =>
      cases hrun
      exact ⟨0, rest, consumed, h, Nat.le_refl _, Nat.le_refl _,
        fun hlt => absurd hlt (Nat.lt_irrefl 0)⟩
  | succ left ih =>
      cases rest with
      | nil =>
          cases hrun
          exact ⟨left + 1, [], consumed, h, Nat.le_refl _, Nat.le_add_right _ _,
            fun _ hne => absurd rfl hne⟩
      | cons index rest =>
          rw [assignSlots, wordAdd_of_lt (show first + slot < 2 ^ 32 by omega)] at hrun
          cases hslot : assignSlot (first + slot) (share.target slot)
              ((index :: rest).length + 2) (index :: rest) consumed 0 s with
          | error e =>
              simp only [hslot, bind, Except.bind] at hrun
              cases hrun
          | ok result =>
              obtain ⟨rest₁, consumed₁, s₁⟩ := result
              simp only [hslot, bind, Except.bind] at hrun
              obtain ⟨assigned, hinv, hstopped⟩ := assignSlot_slices (htargets slot) hfit hnodup
                (Nat.lt_succ_self _) _ h.slotStart hslot
              obtain ⟨left', rest', consumed', hend, hlow, hhigh, -⟩ :=
                ih (h.slotEnd hinv hstopped fun hleft => hpos slot (by omega))
                  (fun k hk => hpos k (by omega)) (by omega) hrun
              exact ⟨left', rest', consumed', hend, by omega, by omega, fun _ _ => hlow⟩

end Slot

/-! ## The shares -/

section Share

variable {block bytes workers : Nat}

/-- The numbers of {lit}`bytes_per_worker_for`, without their machine words. -/
theorem bytesPerWorkerFor_eq (block : Nat) (hbytes : bytes < 2 ^ 64)
    (hworkers : workers ≤ maxConcurrency) :
    (bytesPerWorkerFor block bytes workers).workloads =
        max (min (bytes / block) workers) 1 ∧
      (bytesPerWorkerFor block bytes workers).workloads *
        (bytesPerWorkerFor block bytes workers).base ≤ bytes ∧
      (bytesPerWorkerFor block bytes workers).remainder =
        bytes - (bytesPerWorkerFor block bytes workers).workloads *
          (bytesPerWorkerFor block bytes workers).base := by
  have hworkloads : (bytesPerWorkerFor block bytes workers).workloads =
      max (min (bytes / block) workers) 1 := by
    apply toWord_of_lt
    unfold maxConcurrency at hworkers
    omega
  have hle : (bytesPerWorkerFor block bytes workers).workloads *
      (bytesPerWorkerFor block bytes workers).base ≤ bytes := by
    calc
      (bytesPerWorkerFor block bytes workers).workloads *
          (bytesPerWorkerFor block bytes workers).base
          = bytes / block / (bytesPerWorkerFor block bytes workers).workloads *
              (bytesPerWorkerFor block bytes workers).workloads * block := by
            simp only [bytesPerWorkerFor]
            ring
      _ ≤ bytes / block * block := Nat.mul_le_mul_right _ (Nat.div_mul_le_self _ _)
      _ ≤ bytes := Nat.div_mul_le_self _ _
  exact ⟨hworkloads, hle, wordSub_of_le hle hbytes⟩

/-- With more than one workload each of them gets a positive number of blocks. -/
theorem bytesPerWorkerFor_base (block : Nat) (hbytes : bytes < 2 ^ 64)
    (hworkers : workers ≤ maxConcurrency)
    (hmany : 1 < (bytesPerWorkerFor block bytes workers).workloads) :
    0 < (bytesPerWorkerFor block bytes workers).base ∧
      block ∣ (bytesPerWorkerFor block bytes workers).base := by
  obtain ⟨hworkloads, -, -⟩ := bytesPerWorkerFor_eq block hbytes hworkers
  refine ⟨?_, Dvd.intro_left _ rfl⟩
  have hle : (bytesPerWorkerFor block bytes workers).workloads ≤ bytes / block := by
    rw [hworkloads] at hmany ⊢
    generalize bytes / block = blocks at *
    omega
  have hblock : 0 < block := by
    rcases Nat.eq_zero_or_pos block with hzero | hpos
    · simp only [hzero, Nat.div_zero] at hle hmany
      omega
    · exact hpos
  exact Nat.mul_pos (Nat.div_pos hle (Nat.lt_of_succ_lt hmany)) hblock

/-- The remainder is less than a block for each workload. -/
theorem bytesPerWorkerFor_remainder (hbytes : bytes < 2 ^ 64)
    (hworkers : workers ≤ maxConcurrency) (hblock : 0 < block) :
    (bytesPerWorkerFor block bytes workers).remainder <
      (bytesPerWorkerFor block bytes workers).workloads * block := by
  obtain ⟨hworkloads, hle, hremainder⟩ := bytesPerWorkerFor_eq block hbytes hworkers
  rw [hremainder]
  generalize hn : (bytesPerWorkerFor block bytes workers).workloads = n at *
  have hbase : (bytesPerWorkerFor block bytes workers).base = bytes / block / n * block := by
    rw [← hn]
    rfl
  have hpos : 0 < n := by omega
  have hblocks := Nat.lt_div_mul_add (a := bytes / block) hpos
  have hbytes' := Nat.lt_div_mul_add (a := bytes) hblock
  have hmul : bytes / block * block + block ≤ (bytes / block / n * n + n) * block := by
    rw [← Nat.succ_mul]
    exact Nat.mul_le_mul_right _ hblocks
  rw [Nat.add_mul] at hmul
  have hsame : n * (bytesPerWorkerFor block bytes workers).base =
      bytes / block / n * n * block := by
    rw [hbase]
    ring
  omega

end Share

/-! ## One group -/

section Group

variable {share : WorkerShare} {first : Nat}

@[simp]
theorem sliceBytes_nil : sliceBytes [] = 0 :=
  rfl

@[simp]
theorem sliceBytes_append (xs ys : List FileReadTask) :
    sliceBytes (xs ++ ys) = sliceBytes xs + sliceBytes ys := by
  simp [sliceBytes]

theorem WorkloadParts.tail {part : List FileReadTask} {parts : List (List FileReadTask)}
    {slot : Nat}
    (h : ∀ k p, (part :: parts)[k]? = some p → sliceBytes p ≤ share.target (slot + k)) (k : Nat)
    (p : List FileReadTask) (hget : parts[k]? = some p) :
    sliceBytes p ≤ share.target (slot + 1 + k) := by
  rw [Nat.add_assoc, Nat.add_comm 1 k]
  exact h (k + 1) p hget

/-- Parts that do not exceed their targets have at most the bytes of these. -/
theorem sliceBytes_flatten_le (parts : List (List FileReadTask)) {slot left : Nat}
    (hlength : parts.length ≤ left)
    (hle : ∀ k p, parts[k]? = some p → sliceBytes p ≤ share.target (slot + k)) :
    sliceBytes parts.flatten ≤ share.targetsFrom slot left := by
  induction parts generalizing slot left with
  | nil => simp
  | cons part parts ih =>
      cases left with
      | zero => simp at hlength
      | succ left =>
          rw [List.flatten_cons, sliceBytes_append, WorkerShare.targetsFrom]
          have hpart := hle 0 part rfl
          have hrest := ih (Nat.le_of_succ_le_succ hlength) (WorkloadParts.tail hle)
          rw [Nat.add_zero] at hpart
          omega

/-- If they have all of these bytes, each part meets its target and nothing is left to aim for. -/
theorem sliceBytes_eq_of_flatten (parts : List (List FileReadTask)) {slot left : Nat}
    (hlength : parts.length ≤ left)
    (hle : ∀ k p, parts[k]? = some p → sliceBytes p ≤ share.target (slot + k))
    (hall : sliceBytes parts.flatten = share.targetsFrom slot left) :
    (∀ k p, parts[k]? = some p → sliceBytes p = share.target (slot + k)) ∧
      share.targetsFrom (slot + parts.length) (left - parts.length) = 0 := by
  induction parts generalizing slot left with
  | nil =>
      refine ⟨fun k p hget => by simp at hget, ?_⟩
      simpa using hall.symm
  | cons part parts ih =>
      cases left with
      | zero => simp at hlength
      | succ left =>
          have hlength' : parts.length ≤ left := Nat.le_of_succ_le_succ hlength
          rw [List.flatten_cons, sliceBytes_append, WorkerShare.targetsFrom] at hall
          have hpart := hle 0 part rfl
          rw [Nat.add_zero] at hpart
          have hrest := sliceBytes_flatten_le parts hlength' (WorkloadParts.tail hle)
          obtain ⟨heach, hnone⟩ := ih hlength' (WorkloadParts.tail hle) (by omega)
          refine ⟨fun k p hget => ?_, ?_⟩
          · cases k with
            | zero =>
                obtain rfl := Option.some.inj hget
                rw [Nat.add_zero]
                omega
            | succ k => rw [heach k p hget, Nat.add_assoc, Nat.add_comm 1 k]
          · rw [List.length_cons, Nat.add_sub_add_right,
              show slot + (parts.length + 1) = slot + 1 + parts.length by omega]
            exact hnone

/-- Slices that cover the first bytes of a transfer have as many bytes. -/
theorem SlicedTo.sliceBytes_eq {limit c : Nat} {t : ContiguousTransfer}
    (h : SlicedTo limit t c) : sliceBytes t.tasks = c := by
  have hsum := h.contiguous.sum_sizes FileReadTask.size fun _ _ => rfl
  rw [sliceBytes]
  omega

/-- The slices of divided transfers have the bytes of these. -/
theorem sliceBytes_slicesAt {limit : Nat} {transfers before : List ContiguousTransfer}
    (hcore : transfers.map ContiguousTransfer.core = before.map ContiguousTransfer.core)
    (indices : List Nat)
    (hdone : ∀ i ∈ indices, ∀ t, transfers[i]? = some t → Divided limit t) :
    sliceBytes (slicesAt transfers indices) = sizesAt before indices := by
  induction indices with
  | nil => rfl
  | cons i indices ih =>
      have hrest := ih fun j hj => hdone j (by simp [hj])
      rw [sizesAt_cons, ← hrest, ← sizeAt_congr hcore]
      change sliceBytes ((transfers[i]?.map ContiguousTransfer.tasks).getD [] ++
        slicesAt transfers indices) = _
      rw [sliceBytes_append]
      cases hget : transfers[i]? with
      | none => simp [sizeAt, hget]
      | some t =>
          rw [sizeAt_of_getElem? hget, ← (hdone i (by simp) t hget).sliced.sliceBytes_eq]
          rfl

/--
The workloads of a divided group, from {lit}`first` on: their slices follow each other in the
order of the transfers, and each of them has exactly the bytes it aims for.
-/
structure GroupSlices (share : WorkerShare) (first : Nat) (indices : List Nat)
    (transfers : List ContiguousTransfer) : Prop where
  parts : ∃ parts : List (List FileReadTask), slicesAt transfers indices = parts.flatten ∧
    parts.length = share.workloads ∧ ∀ k part, parts[k]? = some part →
      part ≠ [] ∧ (∀ task ∈ part, task.workloadIndex = first + k) ∧
        sliceBytes part = share.target k
  runs : ∀ i ∈ indices, ∀ t, transfers[i]? = some t → ∃ a, t.RunsFrom a

/-- The groups of the workloads, after those from {lit}`first` on were given to a group. -/
def GroupsSet (first n : Nat) (group : Int) (groups groups' : List Int) : Prop :=
  groups'.length = groups.length ∧ ∀ w, groups'[w]? =
    if first ≤ w ∧ w < first + n ∧ w < groups.length then some group else groups[w]?

/-- The division of a group that is not empty. -/
theorem assignGroup_slices {block : Nat} {group : Int} {workers limit used : Nat}
    {indices : List Nat} {s s' : AssignState}
    (hfit : ∀ t ∈ s.transfers, t.offset + t.size < 2 ^ 64) (hnodup : indices.Nodup)
    (hbound : ∀ i ∈ indices, i < s.transfers.length)
    (hfresh : ∀ i ∈ indices, ∀ t, s.transfers[i]? = some t → t.tasks = [])
    (hworkers : workers ≤ maxConcurrency) (hword : first + max workers 1 < 2 ^ 32)
    (hbytes : sizesAt s.transfers indices < 2 ^ 64) (hne : indices ≠ [])
    (hcore : s'.transfers.map ContiguousTransfer.core =
      s.transfers.map ContiguousTransfer.core)
    (hdone : ∀ i ∈ indices, ∀ t, s'.transfers[i]? = some t → Divided limit t)
    (hrun : assignGroup block indices workers first (sizesAt s.transfers indices) group s =
      .ok (used, s')) :
    used = (bytesPerWorkerFor block (sizesAt s.transfers indices) workers).workloads ∧
      GroupSlices (bytesPerWorkerFor block (sizesAt s.transfers indices) workers) first indices
        s'.transfers ∧
      GroupsSet first used group s.groupByWorkload s'.groupByWorkload ∧
      ∀ i, i ∉ indices → s'.transfers[i]? = s.transfers[i]? := by
  rw [assignGroup, if_neg hne] at hrun
  generalize hshare : bytesPerWorkerFor block (sizesAt s.transfers indices) workers = share at *
  have htargets := (bytesPerWorkerFor_spec block hbytes hworkers).2.2
  obtain ⟨hworkloads, hmul, hremainder⟩ :=
    bytesPerWorkerFor_eq block hbytes hworkers
  rw [hshare] at htargets hworkloads hmul hremainder
  have hpos : 0 < share.workloads := by omega
  have hself : share.base ≤ share.workloads * share.base := Nat.le_mul_of_pos_left _ hpos
  have hword' : first + share.workloads < 2 ^ 32 := by
    have hle : share.workloads ≤ max workers 1 := by omega
    omega
  have htarget : ∀ k, share.target k < 2 ^ 64 := by
    intro k
    rw [WorkerShare.target]
    split
    · exact Nat.mod_lt _ (Nat.two_pow_pos 64)
    · omega
  have hmany : ∀ k, 0 < k → 1 < share.workloads → 0 < share.target k := by
    intro k hk hlt
    rw [WorkerShare.target, if_neg (by omega)]
    rw [← hshare] at hlt ⊢
    exact (bytesPerWorkerFor_base block hbytes hworkers hlt).1
  have hfirst : 1 < share.workloads → 0 < share.target 0 := by
    intro hlt
    rw [WorkerShare.target, if_pos rfl, wordAdd_of_lt (by omega)]
    rw [← hshare] at hlt ⊢
    exact Nat.add_pos_left (bytesPerWorkerFor_base block hbytes hworkers hlt).1 _
  have hstart : SlotsInv share first group s.transfers indices s.groupByWorkload 0
      share.workloads indices 0 s := by
    refine ⟨⟨List.suffix_refl _, rfl, fun _ _ => rfl, ?_, ?_, ?_⟩, ⟨[], ?_, rfl, ?_⟩, rfl,
      fun w => ?_, fun i hi hnot => absurd hi hnot, ?_, fun hlt => absurd hlt (Nat.lt_irrefl 0)⟩
    · exact fun i hi hnot => absurd hi hnot
    · intro i rest heq t ht
      have htasks := hfresh i (by simp [heq]) t ht
      exact ⟨SlicedTo.of_tasks_eq_nil htasks, Or.inr rfl⟩
    · exact fun i hi t ht => hfresh i (List.mem_of_mem_tail hi) t ht
    · exact slicesAt_eq_nil hfresh
    · intro k part hget
      simp at hget
    · rw [if_neg (by omega)]
    · exact fun _ i rest heq t ht => Or.inl (hfresh i (by simp [heq]) t ht)
  have hpositive : ∀ k, k + 1 < 0 + share.workloads → 0 < share.target k := by
    intro k hk
    cases k with
    | zero => exact hfirst (by omega)
    | succ k => exact hmany (k + 1) (Nat.succ_pos k) (by omega)
  obtain ⟨left', rest', consumed', hinv, -, hle, hused⟩ :=
    assignSlots_slices hfit hnodup htarget share.workloads hstart hpositive (by omega) hrun
  have hused' := hused hpos hne
  -- a transfer that is left over would not be covered by its slices
  have hrest : rest' = [] := by
    cases hrest : rest' with
    | nil => rfl
    | cons index rest =>
        rw [hrest] at hinv
        obtain ⟨t, ht⟩ := hinv.inv.exists_current hbound
        have hsize := hinv.stopped hused' index rest rfl t ht
        obtain ⟨hsliced, hcases⟩ := hinv.inv.current index rest rfl t ht
        have hdivided := hdone index (hinv.inv.suffix.subset (by simp)) t ht
        have heq := hsliced.sliceBytes_eq.symm.trans hdivided.sliced.sliceBytes_eq
        omega
  obtain ⟨parts, hparts, hlength, hworkload⟩ := hinv.parts
  have htotal : sliceBytes parts.flatten = share.targetsFrom 0 share.workloads := by
    rw [← hparts, htargets, sliceBytes_slicesAt hcore indices hdone]
  obtain ⟨heach, hnone⟩ := @sliceBytes_eq_of_flatten share parts 0 _ (by omega)
    (fun k p hget => by simpa using (hworkload k p hget).2) htotal
  have hall : used = share.workloads := by
    by_contra hne
    obtain ⟨m, hm⟩ : ∃ m, share.workloads - parts.length = m + 1 :=
      ⟨share.workloads - parts.length - 1, by omega⟩
    rw [hm, WorkerShare.targetsFrom] at hnone
    have htarget' := hmany (0 + parts.length) (by omega) (by omega)
    omega
  refine ⟨hall, ⟨⟨parts, hparts, hlength.trans hall, fun k part hget => ⟨fun hnil => ?_,
    (hworkload k part hget).1, by simpa using heach k part hget⟩⟩, fun i hi t ht => ?_⟩,
    ⟨hinv.groups_length, hinv.groups_eq⟩, hinv.inv.outside⟩
  · have hzero := heach k part hget
    rw [hnil, sliceBytes_nil, Nat.zero_add] at hzero
    by_cases hone : share.workloads = 1
    · -- the only workload has the slices of all transfers
      obtain ⟨i, indices', rfl⟩ := List.exists_cons_of_ne_nil hne
      obtain ⟨only, rfl⟩ := List.length_eq_one_iff.1 (hlength.trans (hall.trans hone))
      have hk : k = 0 := by
        have hlt := (List.getElem?_eq_some_iff.1 hget).1
        simpa using hlt
      subst hk
      obtain rfl := Option.some.inj hget
      have hlengths := congrArg List.length hcore
      simp only [List.length_map] at hlengths
      have hi : i < s'.transfers.length := hlengths ▸ hbound i (by simp)
      have hne := (hdone i (by simp) _ (List.getElem?_eq_getElem hi)).tasks_ne_nil
      rw [hnil, slicesAt, List.flatMap_cons, List.getElem?_eq_getElem hi] at hparts
      simp only [List.flatten_cons, List.flatten_nil, List.append_nil,
        List.append_eq_nil_iff] at hparts
      exact hne hparts.1
    · have hlt : 1 < share.workloads := by omega
      cases k with
      | zero => exact absurd hzero (hfirst hlt).ne
      | succ k => exact absurd hzero (hmany (k + 1) (Nat.succ_pos k) hlt).ne
  · exact hinv.done i hi (by simp [hrest]) t ht

end Group

end Streamer
end ModelStreamer
