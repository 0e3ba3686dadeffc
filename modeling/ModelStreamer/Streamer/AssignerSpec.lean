import Mathlib.Algebra.Order.BigOperators.Group.List
import Mathlib.Algebra.Order.Group.Nat
import Mathlib.Data.Int.Interval
import Mathlib.Tactic.Ring
import ModelStreamer.Lib.Counting
import ModelStreamer.Streamer.Assigner

/-!
# The division covers every transfer

The invariant of {lit}`Assigner::assign_group` and the contract of the constructor.  While a
group is divided, the transfers before the cursor are cut completely, the transfer under the
cursor is cut up to the bytes consumed, and everything else is as it was.

Main results:

- Theorem {lit}`assignSlot_spec`: one worker takes its target, or everything that is left.
- Theorem {lit}`assignGroup_spec`: the workers of a group take the whole group.
- Theorem {lit}`makeAssigner_spec`: the constructor succeeds on a request that fits, and
  every transfer ends up cut into slices that cover it.
-/

namespace ModelStreamer
namespace Streamer

open Common Lib

/-! ## Slices of one transfer -/

/-- The file offset after a slice. -/
def FileReadTask.stop (task : FileReadTask) : Nat :=
  task.offsetInFile + task.size

/-- The first {lit}`c` bytes of the transfer are cut into slices for known workloads. -/
structure SlicedTo (limit : Nat) (t : ContiguousTransfer) (c : Nat) : Prop where
  contiguous : Contiguous FileReadTask.offsetInFile FileReadTask.stop
    t.offset (t.offset + c) t.tasks
  destination : ∀ task ∈ t.tasks,
    task.destination = ptrAdd t.destination (task.offsetInFile - t.offset)
  positive : 0 < t.size → ∀ task ∈ t.tasks, 0 < task.size
  workload : ∀ task ∈ t.tasks, task.workloadIndex < limit

/-- The whole transfer is cut, into one slice at least. -/
structure Divided (limit : Nat) (t : ContiguousTransfer) : Prop where
  sliced : SlicedTo limit t t.size
  tasks_ne_nil : t.tasks ≠ []

theorem SlicedTo.mono {limit limit' : Nat} {t : ContiguousTransfer} {c : Nat}
    (h : SlicedTo limit t c) (hle : limit ≤ limit') : SlicedTo limit' t c :=
  { h with workload := fun task htask => lt_of_lt_of_le (h.workload task htask) hle }

theorem Divided.mono {limit limit' : Nat} {t : ContiguousTransfer}
    (h : Divided limit t) (hle : limit ≤ limit') : Divided limit' t :=
  ⟨h.sliced.mono hle, h.tasks_ne_nil⟩

/-- A transfer without slices is cut up to its first byte. -/
theorem SlicedTo.of_tasks_eq_nil {limit : Nat} {t : ContiguousTransfer} (h : t.tasks = []) :
    SlicedTo limit t 0 := by
  constructor <;> simp [h]

/-- The next slice starts where the slices before it stopped. -/
theorem SlicedTo.addTask {limit c n w : Nat} {t : ContiguousTransfer}
    (h : SlicedTo limit t c) (hfit : t.offset + t.size < 2 ^ 64) (hn : c + n ≤ t.size)
    (hpos : 0 < t.size → 0 < n) (hw : w < limit) :
    SlicedTo limit (t.addTask (t.slice w c n)) (c + n) := by
  have hoffset : (t.slice w c n).offsetInFile = t.offset + c :=
    wordAdd_of_lt (by omega)
  constructor
  · have hchain := h.contiguous.concat hoffset
    have hstop : (t.slice w c n).stop = t.offset + (c + n) := by
      rw [FileReadTask.stop, hoffset, Nat.add_assoc]
      rfl
    rw [hstop] at hchain
    exact hchain
  · intro task htask
    rcases List.mem_append.1 htask with hold | hnew
    · exact h.destination task hold
    · obtain rfl := List.mem_singleton.1 hnew
      have hrelative : (t.slice w c n).offsetInFile - t.offset = c := by omega
      exact congrArg (ptrAdd t.destination) hrelative.symm
  · intro hsize task htask
    rcases List.mem_append.1 htask with hold | hnew
    · exact h.positive hsize task hold
    · obtain rfl := List.mem_singleton.1 hnew
      exact hpos hsize
  · intro task htask
    rcases List.mem_append.1 htask with hold | hnew
    · exact h.workload task hold
    · obtain rfl := List.mem_singleton.1 hnew
      exact hw

/-! ## The invariant of a group -/

/-- A transfer without its slices: what the division never changes. -/
def ContiguousTransfer.core (t : ContiguousTransfer) : ContiguousTransfer :=
  { t with tasks := [] }

@[simp]
theorem core_addTask (t : ContiguousTransfer) (task : FileReadTask) :
    (t.addTask task).core = t.core :=
  rfl

/-- The size of a transfer, zero outside the list. -/
def sizeAt (transfers : List ContiguousTransfer) (i : Nat) : Nat :=
  (transfers[i]?.map ContiguousTransfer.size).getD 0

/-- The bytes of the transfers listed. -/
def sizesAt (transfers : List ContiguousTransfer) (indices : List Nat) : Nat :=
  (indices.map (sizeAt transfers)).sum

@[simp]
theorem sizesAt_nil (transfers : List ContiguousTransfer) : sizesAt transfers [] = 0 :=
  rfl

@[simp]
theorem sizesAt_cons (transfers : List ContiguousTransfer) (i : Nat) (is : List Nat) :
    sizesAt transfers (i :: is) = sizeAt transfers i + sizesAt transfers is := by
  simp [sizesAt]

theorem sizeAt_of_getElem? {transfers : List ContiguousTransfer} {i : Nat}
    {t : ContiguousTransfer} (h : transfers[i]? = some t) : sizeAt transfers i = t.size := by
  simp [sizeAt, h]

/--
The transfers while the group {lit}`all` is divided: {lit}`rest` is what is left of it, with
{lit}`consumed` bytes of its first transfer already cut.
-/
structure GroupInv (limit : Nat) (before : List ContiguousTransfer) (all rest : List Nat)
    (consumed : Nat) (transfers : List ContiguousTransfer) : Prop where
  suffix : rest <:+ all
  core_eq : transfers.map ContiguousTransfer.core = before.map ContiguousTransfer.core
  outside : ∀ i, i ∉ all → transfers[i]? = before[i]?
  done : ∀ i ∈ all, i ∉ rest → ∀ t, transfers[i]? = some t → Divided limit t
  current : ∀ i rest', rest = i :: rest' → ∀ t, transfers[i]? = some t →
    SlicedTo limit t consumed ∧ (consumed < t.size ∨ consumed = 0)
  fresh : ∀ i ∈ rest.tail, ∀ t, transfers[i]? = some t → t.tasks = []

/-- The division changes no size. -/
theorem sizeAt_congr {transfers before : List ContiguousTransfer}
    (h : transfers.map ContiguousTransfer.core = before.map ContiguousTransfer.core) (i : Nat) :
    sizeAt transfers i = sizeAt before i := by
  have hget : (transfers.map ContiguousTransfer.core)[i]?.map ContiguousTransfer.size =
      (before.map ContiguousTransfer.core)[i]?.map ContiguousTransfer.size := by
    rw [h]
  simp only [List.getElem?_map, Option.map_map] at hget
  exact congrArg (fun o => o.getD 0) hget

/-- A transfer of the division agrees with the transfer it was before, slices aside. -/
theorem exists_before {transfers before : List ContiguousTransfer}
    (h : transfers.map ContiguousTransfer.core = before.map ContiguousTransfer.core)
    {t : ContiguousTransfer} (ht : t ∈ transfers) : ∃ t₀ ∈ before, t.core = t₀.core := by
  have hmem : t.core ∈ before.map ContiguousTransfer.core := by
    rw [← h]
    exact List.mem_map_of_mem ht
  obtain ⟨t₀, ht₀, hcore⟩ := List.mem_map.1 hmem
  exact ⟨t₀, ht₀, hcore.symm⟩

/-- Transfers that agree slices aside cover the same bytes and ranges. -/
theorem eq_of_core_eq {t t₀ : ContiguousTransfer} (h : t.core = t₀.core) :
    t.offset = t₀.offset ∧ t.size = t₀.size ∧ t.rangeSizes = t₀.rangeSizes := by
  simp only [ContiguousTransfer.core, ContiguousTransfer.mk.injEq] at h
  exact ⟨h.2.1, h.2.2.1, h.2.2.2.2.2.1⟩

/-- Writing a transfer that differs only in its slices keeps the rest of the data. -/
theorem map_core_set {transfers : List ContiguousTransfer} {i : Nat}
    {t t' : ContiguousTransfer} (ht : transfers[i]? = some t) (hcore : t'.core = t.core) :
    (transfers.set i t').map ContiguousTransfer.core =
      transfers.map ContiguousTransfer.core := by
  refine List.ext_getElem? fun j => ?_
  rw [List.getElem?_map, List.getElem?_map, getElem?_set_of_some ht]
  by_cases hj : j = i
  · simp [hj, ht, hcore]
  · simp [hj]

section Slot

variable {limit : Nat} {before : List ContiguousTransfer} {all : List Nat}

/-- A slice of the transfer under the cursor leaves the other transfers as they are. -/
theorem GroupInv.outside_set {index consumed : Nat} {rest : List Nat}
    {transfers : List ContiguousTransfer} {t t' : ContiguousTransfer}
    (h : GroupInv limit before all (index :: rest) consumed transfers)
    (ht : transfers[index]? = some t) (i : Nat) (hi : i ∉ all) :
    (transfers.set index t')[i]? = before[i]? := by
  have hmem : index ∈ all := h.suffix.subset (by simp)
  have hne : i ≠ index := fun heq => hi (heq ▸ hmem)
  rw [getElem?_set_of_some ht, if_neg hne]
  exact h.outside i hi

/-- A slice that leaves bytes of its transfer keeps the cursor on that transfer. -/
theorem GroupInv.partial_slice {index consumed n w : Nat} {rest : List Nat}
    {transfers : List ContiguousTransfer} {t : ContiguousTransfer}
    (h : GroupInv limit before all (index :: rest) consumed transfers) (hnodup : all.Nodup)
    (ht : transfers[index]? = some t)
    (hsliced : SlicedTo limit (t.addTask (t.slice w consumed n)) (consumed + n))
    (hlt : consumed + n < t.size) :
    GroupInv limit before all (index :: rest) (consumed + n)
      (transfers.set index (t.addTask (t.slice w consumed n))) := by
  have hrest : (index :: rest).Nodup := hnodup.sublist h.suffix.sublist
  refine ⟨h.suffix, ?_, h.outside_set ht, ?_, ?_, ?_⟩
  · rw [map_core_set ht (core_addTask _ _)]
    exact h.core_eq
  · intro i hi hirest u hu
    have hne : i ≠ index := fun heq => hirest (by simp [heq])
    rw [getElem?_set_of_some ht, if_neg hne] at hu
    exact h.done i hi hirest u hu
  · intro i rest' heq u hu
    obtain ⟨rfl, rfl⟩ := List.cons.inj heq
    rw [getElem?_set_of_some ht, if_pos rfl] at hu
    obtain rfl := Option.some.inj hu
    exact ⟨hsliced, Or.inl hlt⟩
  · intro i hi u hu
    have hne : i ≠ index := fun heq => (List.nodup_cons.1 hrest).1 (heq ▸ hi)
    rw [getElem?_set_of_some ht, if_neg hne] at hu
    exact h.fresh i hi u hu

/-- A slice that ends its transfer moves the cursor to the next one. -/
theorem GroupInv.last_slice {index consumed n w : Nat} {rest : List Nat}
    {transfers : List ContiguousTransfer} {t : ContiguousTransfer}
    (h : GroupInv limit before all (index :: rest) consumed transfers) (hnodup : all.Nodup)
    (ht : transfers[index]? = some t)
    (hsliced : SlicedTo limit (t.addTask (t.slice w consumed n)) (consumed + n))
    (heq : consumed + n = t.size) :
    GroupInv limit before all rest 0
      (transfers.set index (t.addTask (t.slice w consumed n))) := by
  have hrest : (index :: rest).Nodup := hnodup.sublist h.suffix.sublist
  have hnotin : index ∉ rest := (List.nodup_cons.1 hrest).1
  have hfresh : ∀ i ∈ rest, ∀ u,
      (transfers.set index (t.addTask (t.slice w consumed n)))[i]? = some u →
        u.tasks = [] := by
    intro i hi u hu
    have hne : i ≠ index := fun h' => hnotin (h' ▸ hi)
    rw [getElem?_set_of_some ht, if_neg hne] at hu
    exact h.fresh i hi u hu
  refine ⟨(List.suffix_cons index rest).trans h.suffix, ?_, h.outside_set ht, ?_, ?_, ?_⟩
  · rw [map_core_set ht (core_addTask _ _)]
    exact h.core_eq
  · intro i hi hirest u hu
    rw [getElem?_set_of_some ht] at hu
    by_cases hindex : i = index
    · rw [if_pos hindex] at hu
      obtain rfl := Option.some.inj hu
      refine ⟨?_, by simp [ContiguousTransfer.addTask]⟩
      rw [heq] at hsliced
      exact hsliced
    · rw [if_neg hindex] at hu
      exact h.done i hi (by simp [hindex, hirest]) u hu
  · intro i rest' hcons u hu
    have hu' := hfresh i (by simp [hcons]) u hu
    exact ⟨SlicedTo.of_tasks_eq_nil hu', Or.inr rfl⟩
  · intro i hi u hu
    exact hfresh i (List.mem_of_mem_tail hi) u hu

/-- Adding to one entry of a list of sizes adds to their sum. -/
theorem sum_set_add {xs : List Nat} {i x : Nat} (h : xs[i]? = some x) (n : Nat) :
    (xs.set i (x + n)).sum = xs.sum + n := by
  have hsum := sum_map_set h (x + n) id
  simp only [List.map_id, id] at hsum
  omega

/-- What one slot leaves behind after it was given {lit}`given` more bytes. -/
structure SlotPost (limit : Nat) (before : List ContiguousTransfer) (all : List Nat)
    (left target assigned : Nat) (s : AssignState) (given : Nat)
    (rest : List Nat) (consumed : Nat) (s' : AssignState) : Prop where
  inv : GroupInv limit before all rest consumed s'.transfers
  left_eq : left = given + (sizesAt before rest - consumed)
  given_le : assigned + given ≤ target
  stopped : rest = [] ∨ (assigned + given = target ∧ 0 < sizesAt before rest - consumed)
  sum_eq : s'.workerBytes.sum = s.workerBytes.sum + given
  length_eq : s'.workerBytes.length = s.workerBytes.length
  drop_eq : s'.workerBytes.drop limit = s.workerBytes.drop limit

/-- The cursor of a group never passes the end of the transfer it is on. -/
theorem GroupInv.consumed_le {index consumed : Nat} {rest : List Nat}
    {transfers : List ContiguousTransfer} {t : ContiguousTransfer}
    (h : GroupInv limit before all (index :: rest) consumed transfers)
    (ht : transfers[index]? = some t) : consumed ≤ t.size := by
  rcases (h.current index rest rfl t ht).2 with hlt | hzero <;> omega

/-- The bytes left in a group, counted from the transfer under the cursor. -/
theorem GroupInv.left_eq {index consumed : Nat} {rest : List Nat}
    {transfers : List ContiguousTransfer} {t : ContiguousTransfer}
    (h : GroupInv limit before all (index :: rest) consumed transfers)
    (ht : transfers[index]? = some t) :
    sizesAt before (index :: rest) - consumed = (t.size - consumed) + sizesAt before rest := by
  have hsize : sizeAt before index = t.size := by
    rw [← sizeAt_congr h.core_eq, sizeAt_of_getElem? ht]
  have hle := h.consumed_le ht
  rw [sizesAt_cons, hsize]
  omega

/-- The transfers of a group keep the end points they had. -/
theorem GroupInv.stop_lt {index consumed : Nat} {rest : List Nat}
    {transfers : List ContiguousTransfer} {t : ContiguousTransfer}
    (h : GroupInv limit before all rest consumed transfers)
    (hfit : ∀ t ∈ before, t.offset + t.size < 2 ^ 64) (ht : transfers[index]? = some t) :
    t.offset + t.size < 2 ^ 64 := by
  obtain ⟨t₀, ht₀, hcore⟩ := exists_before h.core_eq (List.mem_of_getElem? ht)
  obtain ⟨hoffset, hsize, -⟩ := eq_of_core_eq hcore
  have h₀ := hfit t₀ ht₀
  omega

/-- A group still holds the transfer its cursor is on. -/
theorem GroupInv.exists_current {index consumed : Nat} {rest : List Nat}
    {transfers : List ContiguousTransfer}
    (h : GroupInv limit before all (index :: rest) consumed transfers)
    (hbound : ∀ i ∈ all, i < before.length) : ∃ t, transfers[index]? = some t := by
  have hlength := congrArg List.length h.core_eq
  simp only [List.length_map] at hlength
  have hindex : index < transfers.length := by
    rw [hlength]
    exact hbound index (h.suffix.subset (by simp))
  exact ⟨_, List.getElem?_eq_getElem hindex⟩

/-- A slot that is first given {lit}`n` bytes and then {lit}`given` more. -/
theorem SlotPost.after {left target assigned n given consumed w index bytes c : Nat}
    {s s' : AssignState} {rest : List Nat} {t : ContiguousTransfer}
    (h : SlotPost limit before all left target (assigned + n)
      (s.give index t bytes w c n) given rest consumed s')
    (hbytes : s.workerBytes[w]? = some bytes) (hsum : s.workerBytes.sum + n < 2 ^ 64)
    (hw : w < limit) :
    SlotPost limit before all (n + left) target assigned s (n + given) rest consumed s' := by
  have hle : bytes ≤ s.workerBytes.sum :=
    List.le_sum_of_mem (List.mem_of_getElem? hbytes)
  have hword : wordAdd 64 bytes n = bytes + n := wordAdd_of_lt (by omega)
  refine ⟨h.inv, ?_, ?_, ?_, ?_, ?_, ?_⟩
  · have hleft := h.left_eq
    omega
  · have hgiven := h.given_le
    omega
  · rcases h.stopped with hnil | ⟨heq, hpos⟩
    · exact Or.inl hnil
    · exact Or.inr ⟨by omega, hpos⟩
  · rw [h.sum_eq, AssignState.give]
    simp only [hword, sum_set_add hbytes]
    omega
  · rw [h.length_eq, AssignState.give]
    simp
  · rw [h.drop_eq, AssignState.give]
    exact List.drop_set_of_lt hw

/--
One slot takes slices until it has its target or the group is used up.  The turns are
bounded: every turn but one moves the cursor, and a slot that has its target stops.
-/
theorem assignSlot_spec {w target : Nat} (htarget : target < 2 ^ 64)
    (hfit : ∀ t ∈ before, t.offset + t.size < 2 ^ 64) (hnodup : all.Nodup)
    (hbound : ∀ i ∈ all, i < before.length) (hw : w < limit)
    (fuel : Nat) {rest : List Nat} {consumed assigned : Nat} {s : AssignState}
    (hinv : GroupInv limit before all rest consumed s.transfers)
    (hassigned : assigned ≤ target)
    (hfuel : rest.length + (if assigned < target then 2 else 1) ≤ fuel)
    (hlength : w < s.workerBytes.length)
    (hsum : s.workerBytes.sum + (sizesAt before rest - consumed) < 2 ^ 64) :
    ∃ given rest' consumed' s',
      assignSlot w target fuel rest consumed assigned s = .ok (rest', consumed', s') ∧
      SlotPost limit before all (sizesAt before rest - consumed) target assigned s given
        rest' consumed' s' := by
  induction fuel generalizing rest consumed assigned s with
  | zero => split at hfuel <;> omega
  | succ fuel ih =>
      cases rest with
      | nil =>
          refine ⟨0, [], consumed, s, rfl, hinv, by simp, by omega, Or.inl rfl, ?_, rfl, rfl⟩
          simp
      | cons index rest =>
          obtain ⟨t, ht⟩ := hinv.exists_current hbound
          obtain ⟨bytes, hbytes⟩ : ∃ b, s.workerBytes[w]? = some b :=
            ⟨_, List.getElem?_eq_getElem hlength⟩
          have hconsumed := hinv.consumed_le ht
          have hcurrent := hinv.current index rest rfl t ht
          have hleft := hinv.left_eq ht
          have htfit := hinv.stop_lt hfit ht
          simp only [assignSlot, ht, hbytes]
          by_cases hstop : t.size > 0 ∧ assigned ≥ target
          · rw [if_pos hstop]
            refine ⟨0, _, _, s, rfl, hinv, by omega, by omega, Or.inr ⟨by omega, ?_⟩,
              rfl, rfl, rfl⟩
            rcases hcurrent.2 with hlt | hzero <;> omega
          · rw [if_neg hstop, wordSub_of_le hconsumed (by omega),
              wordSub_of_le hassigned htarget]
            generalize hn : min (t.size - consumed) (target - assigned) = n
            have hpos : 0 < t.size → 0 < n := by
              rcases hcurrent.2 with hlt | hzero <;> omega
            have hsliced := hcurrent.1.addTask htfit (n := n) (by omega) hpos hw
            have hgivesum : s.workerBytes.sum + n < 2 ^ 64 := by omega
            have hlength' : w < (s.give index t bytes w consumed n).workerBytes.length := by
              simpa [AssignState.give] using hlength
            have hsum' : (s.give index t bytes w consumed n).workerBytes.sum =
                s.workerBytes.sum + n := by
              have hle : bytes ≤ s.workerBytes.sum :=
                List.le_sum_of_mem (List.mem_of_getElem? hbytes)
              have hword : wordAdd 64 bytes n = bytes + n := wordAdd_of_lt (by omega)
              simp only [AssignState.give, hword, sum_set_add hbytes]
            by_cases hlast : consumed + n = t.size
            · rw [if_pos hlast]
              have hinv' := hinv.last_slice hnodup ht hsliced hlast
              have hfuel' : rest.length + (if assigned + n < target then 2 else 1) ≤ fuel := by
                simp only [List.length_cons] at hfuel
                split at hfuel <;> split <;> omega
              have hsum'' : (s.give index t bytes w consumed n).workerBytes.sum +
                  (sizesAt before rest - 0) < 2 ^ 64 := by omega
              obtain ⟨given, rest', consumed', s', hrun, hpost⟩ :=
                ih hinv' (by omega) hfuel' hlength' hsum''
              refine ⟨n + given, rest', consumed', s', hrun, ?_⟩
              have hafter := hpost.after hbytes hgivesum hw
              have heq : n + (sizesAt before rest - 0) =
                  sizesAt before (index :: rest) - consumed := by omega
              rwa [heq] at hafter
            · rw [if_neg hlast]
              have hinv' := hinv.partial_slice hnodup ht hsliced (by omega)
              have hfuel' : (index :: rest).length +
                  (if assigned + n < target then 2 else 1) ≤ fuel := by
                simp only [List.length_cons] at hfuel ⊢
                split at hfuel <;> split <;> omega
              have hsum'' : (s.give index t bytes w consumed n).workerBytes.sum +
                  (sizesAt before (index :: rest) - (consumed + n)) < 2 ^ 64 := by omega
              obtain ⟨given, rest', consumed', s', hrun, hpost⟩ :=
                ih hinv' (by omega) hfuel' hlength' hsum''
              refine ⟨n + given, rest', consumed', s', hrun, ?_⟩
              have hafter := hpost.after hbytes hgivesum hw
              have heq : n + (sizesAt before (index :: rest) - (consumed + n)) =
                  sizesAt before (index :: rest) - consumed := by omega
              rwa [heq] at hafter

/-! ## All slots of a group -/

/-- More workloads are known later on. -/
theorem GroupInv.mono {limit' consumed : Nat} {rest : List Nat}
    {transfers : List ContiguousTransfer}
    (h : GroupInv limit before all rest consumed transfers) (hle : limit ≤ limit') :
    GroupInv limit' before all rest consumed transfers := by
  refine ⟨h.suffix, h.core_eq, h.outside, ?_, ?_, h.fresh⟩
  · intro i hi hirest t ht
    exact (h.done i hi hirest t ht).mono hle
  · intro i rest' heq t ht
    obtain ⟨hsliced, hcases⟩ := h.current i rest' heq t ht
    exact ⟨hsliced.mono hle, hcases⟩

/-- The bytes that the slots from {lit}`slot` on aim for. -/
def WorkerShare.targetsFrom (share : WorkerShare) (slot : Nat) : Nat → Nat
  | 0 => 0
  | left + 1 => share.target slot + share.targetsFrom (slot + 1) left

/-- The slots after the first aim for the base each. -/
theorem targetsFrom_of_pos (share : WorkerShare) {slot : Nat} (hslot : 0 < slot)
    (left : Nat) : share.targetsFrom slot left = left * share.base := by
  induction left generalizing slot with
  | zero => simp [WorkerShare.targetsFrom]
  | succ left ih =>
      have hne : slot ≠ 0 := by omega
      simp only [WorkerShare.targetsFrom, WorkerShare.target, if_neg hne, ih (Nat.succ_pos _)]
      rw [Nat.succ_mul, Nat.add_comm]

/-- The share of a group: at least one workload, and targets that add up to the bytes. -/
theorem bytesPerWorkerFor_spec (block : Nat) {groupBytes workers : Nat}
    (hbytes : groupBytes < 2 ^ 64) (hworkers : workers ≤ maxConcurrency) :
    let share := bytesPerWorkerFor block groupBytes workers
    0 < share.workloads ∧ share.workloads ≤ max workers 1 ∧
      share.targetsFrom 0 share.workloads = groupBytes := by
  intro share
  have hsmall : max (min (groupBytes / block) workers) 1 < 2 ^ 32 := by
    unfold maxConcurrency at hworkers
    omega
  have hworkloads : share.workloads = max (min (groupBytes / block) workers) 1 :=
    toWord_of_lt hsmall
  have hpos : 0 < share.workloads := by omega
  have hbase : share.base = groupBytes / block / share.workloads * block := rfl
  have hle : share.workloads * share.base ≤ groupBytes := by
    calc
      share.workloads * share.base
          = groupBytes / block / share.workloads * share.workloads * block := by
            rw [hbase]
            ring
      _ ≤ groupBytes / block * block :=
            Nat.mul_le_mul_right _ (Nat.div_mul_le_self _ _)
      _ ≤ groupBytes := Nat.div_mul_le_self _ _
  have hremainder : share.remainder = groupBytes - share.workloads * share.base :=
    wordSub_of_le hle hbytes
  refine ⟨hpos, by omega, ?_⟩
  obtain ⟨n, hn⟩ : ∃ n, share.workloads = n + 1 := ⟨share.workloads - 1, by omega⟩
  have hmul : share.workloads * share.base = n * share.base + share.base := by
    rw [hn, Nat.succ_mul]
  have hfirst : wordAdd 64 share.base share.remainder = share.base + share.remainder :=
    wordAdd_of_lt (by omega)
  rw [hn, WorkerShare.targetsFrom, targetsFrom_of_pos share Nat.one_pos, WorkerShare.target,
    if_pos rfl, hfirst]
  omega

/-- Entries that are all zero are zero further on. -/
theorem sum_drop_eq_zero_of_le {xs : List Nat} {m n : Nat} (h : (xs.drop m).sum = 0)
    (hle : m ≤ n) : (xs.drop n).sum = 0 := by
  have hsplit := List.sum_take_add_sum_drop (xs.drop m) (n - m)
  rw [List.drop_drop, Nat.add_sub_cancel' hle] at hsplit
  omega

/-- What the slots of a group leave behind. -/
structure SlotsPost (before : List ContiguousTransfer) (all : List Nat)
    (firstWorkload given : Nat) (s : AssignState) (used : Nat) (s' : AssignState) : Prop where
  inv : ∃ consumed, GroupInv (firstWorkload + used) before all [] consumed s'.transfers
  sum_eq : s'.workerBytes.sum = s.workerBytes.sum + given
  length_eq : s'.workerBytes.length = s.workerBytes.length
  unused : (s'.workerBytes.drop (firstWorkload + used)).sum = 0

/-- The slots of a group together take the whole group. -/
theorem assignSlots_spec {share : WorkerShare} {firstWorkload : Nat} (group : Int)
    (hfit : ∀ t ∈ before, t.offset + t.size < 2 ^ 64) (hnodup : all.Nodup)
    (hbound : ∀ i ∈ all, i < before.length)
    (left : Nat) {slot consumed : Nat} {rest : List Nat} {s : AssignState}
    (hinv : GroupInv (firstWorkload + slot) before all rest consumed s.transfers)
    (hleft : sizesAt before rest - consumed = share.targetsFrom slot left)
    (hend : left = 0 → rest = [])
    (hlength : firstWorkload + slot + left ≤ s.workerBytes.length)
    (hword : s.workerBytes.length < 2 ^ 32)
    (hsum : s.workerBytes.sum + (sizesAt before rest - consumed) < 2 ^ 64)
    (hunused : (s.workerBytes.drop (firstWorkload + slot)).sum = 0) :
    ∃ used s',
      assignSlots share firstWorkload group left slot rest consumed slot s = .ok (used, s') ∧
      used ≤ slot + left ∧
      SlotsPost before all firstWorkload (sizesAt before rest - consumed) s used s' := by
  induction left generalizing slot consumed rest s with
  | zero =>
      obtain rfl := hend rfl
      exact ⟨slot, s, rfl, le_refl _, ⟨consumed, hinv⟩, by simp, rfl, hunused⟩
  | succ left ih =>
      cases rest with
      | nil => exact ⟨slot, s, rfl, by omega, ⟨consumed, hinv⟩, by simp, rfl, hunused⟩
      | cons index rest =>
          have hworkload : wordAdd 32 firstWorkload slot = firstWorkload + slot :=
            wordAdd_of_lt (by omega)
          rw [WorkerShare.targetsFrom] at hleft
          have hinv' : GroupInv (firstWorkload + slot + 1) before all (index :: rest)
              consumed s.transfers := hinv.mono (by omega)
          have htarget : share.target slot < 2 ^ 64 := by omega
          obtain ⟨given, rest', consumed', s₁, hrun, hpost⟩ :=
            assignSlot_spec htarget hfit hnodup hbound (Nat.lt_succ_self _)
              ((index :: rest).length + 2) hinv' (Nat.zero_le _)
              (by split <;> omega) (by omega) hsum
          have hleft' : sizesAt before rest' - consumed' = share.targetsFrom (slot + 1) left := by
            have hsplit := hpost.left_eq
            have hgiven := hpost.given_le
            rcases hpost.stopped with hnil | ⟨hfull, -⟩
            · simp only [hnil, sizesAt_nil, Nat.zero_sub] at hsplit ⊢
              omega
            · omega
          have hend' : left = 0 → rest' = [] := by
            intro hzero
            rcases hpost.stopped with hnil | ⟨-, hpos⟩
            · exact hnil
            · rw [hleft', hzero, WorkerShare.targetsFrom] at hpos
              omega
          have hsplit := hpost.left_eq
          have hsum₁ := hpost.sum_eq
          have hlength₁ := hpost.length_eq
          have hinv₁ : GroupInv (firstWorkload + (slot + 1)) before all rest' consumed'
              s₁.transfers := hpost.inv
          have hunused₁ : (s₁.workerBytes.drop (firstWorkload + (slot + 1))).sum = 0 := by
            rw [← Nat.add_assoc, hpost.drop_eq]
            exact sum_drop_eq_zero_of_le hunused (Nat.le_succ _)
          obtain ⟨used, s', hrest, hused, hdone⟩ :=
            ih (s := { s₁ with
                groupByWorkload := s₁.groupByWorkload.set (firstWorkload + slot) group })
              hinv₁ hleft' hend' (by simp only; omega) (by simp only; omega)
              (by simp only; omega) hunused₁
          refine ⟨used, s', ?_, by omega, hdone.inv, ?_, ?_, hdone.unused⟩
          · simp only [assignSlots, hworkload]
            rw [hrun]
            exact hrest
          · rw [hdone.sum_eq]
            simp only
            omega
          · rw [hdone.length_eq]
            exact hlength₁

/-- What dividing one group promises. -/
structure GroupDone (limit : Nat) (before : List ContiguousTransfer) (indices : List Nat)
    (transfers : List ContiguousTransfer) : Prop where
  core_eq : transfers.map ContiguousTransfer.core = before.map ContiguousTransfer.core
  outside : ∀ i, i ∉ indices → transfers[i]? = before[i]?
  done : ∀ i ∈ indices, ∀ t, transfers[i]? = some t → Divided limit t

/-- Dividing a group of transfers that have no slices yet cuts all of them. -/
theorem assignGroup_spec (block firstWorkload : Nat) (group : Int) {workers : Nat}
    {indices : List Nat} {s : AssignState}
    (hfit : ∀ t ∈ s.transfers, t.offset + t.size < 2 ^ 64) (hnodup : indices.Nodup)
    (hbound : ∀ i ∈ indices, i < s.transfers.length)
    (hfresh : ∀ i ∈ indices, ∀ t, s.transfers[i]? = some t → t.tasks = [])
    (hworkers : workers ≤ maxConcurrency)
    (hlength : firstWorkload + max workers 1 ≤ s.workerBytes.length)
    (hword : s.workerBytes.length < 2 ^ 32)
    (hsum : s.workerBytes.sum + sizesAt s.transfers indices < 2 ^ 64)
    (hunused : (s.workerBytes.drop firstWorkload).sum = 0) :
    ∃ used s',
      assignGroup block indices workers firstWorkload (sizesAt s.transfers indices) group s =
        .ok (used, s') ∧
      used ≤ max workers 1 ∧
      GroupDone (firstWorkload + used) s.transfers indices s'.transfers ∧
      s'.workerBytes.sum = s.workerBytes.sum + sizesAt s.transfers indices ∧
      s'.workerBytes.length = s.workerBytes.length ∧
      (s'.workerBytes.drop (firstWorkload + used)).sum = 0 := by
  by_cases hnil : indices = []
  · subst hnil
    refine ⟨0, s, by simp [assignGroup], Nat.zero_le _, ⟨rfl, fun _ _ => rfl, by simp⟩, ?_, rfl,
      hunused⟩
    simp
  · have hbytes : sizesAt s.transfers indices < 2 ^ 64 := by omega
    obtain ⟨hpos, hle, htargets⟩ := bytesPerWorkerFor_spec block hbytes hworkers
    have hinv : GroupInv (firstWorkload + 0) s.transfers indices indices 0 s.transfers := by
      refine ⟨List.suffix_refl _, rfl, fun _ _ => rfl, ?_, ?_, ?_⟩
      · intro i hi hnot
        exact absurd hi hnot
      · intro i rest heq t ht
        have htasks := hfresh i (by simp [heq]) t ht
        exact ⟨SlicedTo.of_tasks_eq_nil htasks, Or.inr rfl⟩
      · intro i hi t ht
        exact hfresh i (List.mem_of_mem_tail hi) t ht
    obtain ⟨used, s', hrun, hused, hpost⟩ :=
      assignSlots_spec group hfit hnodup hbound _ hinv htargets.symm
        (by omega) (by omega) hword (by simpa using hsum) hunused
    obtain ⟨consumed, hinv'⟩ := hpost.inv
    refine ⟨used, s', ?_, by omega, ⟨hinv'.core_eq, hinv'.outside, ?_⟩, hpost.sum_eq,
      hpost.length_eq, hpost.unused⟩
    · simp only [assignGroup, if_neg hnil]
      exact hrun
    · intro i hi t ht
      exact hinv'.done i hi (by simp) t ht

end Slot

/-! ## Grouping by pool -/

/-- Listing the same transfers in another order counts the same bytes. -/
theorem sizesAt_perm (transfers : List ContiguousTransfer) {is js : List Nat}
    (h : is.Perm js) : sizesAt transfers is = sizesAt transfers js :=
  (h.map _).sum_eq

@[simp]
theorem sizesAt_append (transfers : List ContiguousTransfer) (is js : List Nat) :
    sizesAt transfers (is ++ js) = sizesAt transfers is + sizesAt transfers js := by
  simp [sizesAt]

/-- All transfers together. -/
theorem sizesAt_range (transfers : List ContiguousTransfer) :
    sizesAt transfers (List.range transfers.length) =
      (transfers.map ContiguousTransfer.size).sum := by
  have hmap : (List.range transfers.length).map (sizeAt transfers) =
      transfers.map ContiguousTransfer.size := by
    refine List.ext_getElem (by simp) fun i hi _ => ?_
    simp only [List.length_map, List.length_range] at hi
    simp [sizeAt, hi]
  rw [sizesAt, hmap]

/-- A load counts the bytes of its transfers, as a {lit}`size_t`. -/
def GroupLoad.Counts (transfers : List ContiguousTransfer) (load : GroupLoad) : Prop :=
  load.bytes = toWord 64 (sizesAt transfers load.indices)

theorem GroupLoad.Counts.add {transfers : List ContiguousTransfer} {load : GroupLoad}
    (h : load.Counts transfers) {i size : Nat} (hsize : sizeAt transfers i = size) :
    (load.add i size).Counts transfers := by
  unfold GroupLoad.Counts at h ⊢
  simp only [GroupLoad.add, sizesAt_append, sizesAt_cons, sizesAt_nil, hsize, h, wordAdd,
    toWord, Nat.mod_add_mod, Nat.add_zero]

/-- The groups list every transfer walked so far once and count their bytes. -/
structure Grouped (transfers : List ContiguousTransfer) (n : Nat)
    (sync : GroupLoad) (async : OrderedMap Int GroupLoad) : Prop where
  perm : (sync.indices ++ async.entries.flatMap fun e => e.2.indices).Perm (List.range n)
  sync_counts : sync.Counts transfers
  async_counts : ∀ e ∈ async.entries, e.2.Counts transfers
  async_keys : ∀ e ∈ async.entries, 0 ≤ e.1 ∧ e.1 < 2 ^ 31

/-- A group id is an {lit}`int`. -/
theorem groupOfFile_lt (groupByFile : List Int32) (fileIndex : Nat) :
    groupOfFile groupByFile fileIndex < 2 ^ 31 := by
  unfold groupOfFile
  split
  · rename_i group _
    have hlt := group.toInt_lt
    omega
  · decide

/-- One more transfer goes to exactly one group. -/
theorem groupTransfers_spec (groupByFile : List Int32) {transfers : List ContiguousTransfer}
    (ts : List ContiguousTransfer) {pre : List ContiguousTransfer} {sync : GroupLoad}
    {async : OrderedMap Int GroupLoad} (hsplit : transfers = pre ++ ts)
    (h : Grouped transfers pre.length sync async) :
    Grouped transfers transfers.length
      (groupTransfers groupByFile pre.length ts sync async).1
      (groupTransfers groupByFile pre.length ts sync async).2 := by
  induction ts generalizing pre sync async with
  | nil =>
      subst hsplit
      simpa [groupTransfers] using h
  | cons t ts ih =>
      have hsize : sizeAt transfers pre.length = t.size := by
        simp [sizeAt, hsplit]
      have hsplit' : transfers = (pre ++ [t]) ++ ts := by simp [hsplit]
      have hlength : pre.length + 1 = (pre ++ [t]).length := by simp
      simp only [groupTransfers]
      by_cases hsync : groupOfFile groupByFile t.fileIndex < 0
      · rw [if_pos hsync, hlength]
        refine ih hsplit' ⟨?_, h.sync_counts.add hsize, h.async_counts, h.async_keys⟩
        rw [← hlength, List.range_succ]
        simp only [GroupLoad.add, List.append_assoc]
        refine List.Perm.trans ?_ (h.perm.append_right _)
        rw [List.append_assoc]
        exact List.perm_append_comm.append_left _
      · rw [if_neg hsync, hlength]
        refine ih hsplit' ⟨?_, h.sync_counts, ?_, ?_⟩
        · rw [← hlength, List.range_succ]
          have hasync := OrderedMap.flatMap_update_perm (m := async)
            (k := groupOfFile groupByFile t.fileIndex) (d := GroupLoad.empty)
            (f := fun load => load.add pre.length t.size) (g := GroupLoad.indices)
            (x := pre.length) (by simp [GroupLoad.add, GroupLoad.empty])
            (fun v => by simp [GroupLoad.add])
          refine (hasync.append_left sync.indices).trans ?_
          refine List.perm_middle.trans ?_
          refine List.Perm.trans (h.perm.cons _) ?_
          exact (List.perm_append_singleton _ _).symm
        · refine OrderedMap.forall_update h.async_counts ?_ ?_
          · refine GroupLoad.Counts.add ?_ hsize
            simp [GroupLoad.Counts, GroupLoad.empty, toWord]
          · intro v hv
            exact GroupLoad.Counts.add hv hsize
        · have hkey := groupOfFile_lt groupByFile t.fileIndex
          refine OrderedMap.forall_update h.async_keys ⟨by simp only; omega, hkey⟩ ?_
          intro v _
          exact ⟨by simp only; omega, hkey⟩

/-- Distinct group ids are nonnegative {lit}`int` values, so there are few of them. -/
theorem Grouped.length_async_le {transfers : List ContiguousTransfer} {n : Nat}
    {sync : GroupLoad} {async : OrderedMap Int GroupLoad}
    (h : Grouped transfers n sync async) : async.entries.length ≤ 2 ^ 31 := by
  have hsubset : (async.entries.map Prod.fst).toFinset ⊆ Finset.Ico (0 : Int) (2 ^ 31) := by
    intro k hk
    obtain ⟨e, he, rfl⟩ := List.mem_map.1 (List.mem_toFinset.1 hk)
    exact Finset.mem_Ico.2 (h.async_keys e he)
  have hcard := Finset.card_le_card hsubset
  rw [List.toFinset_card_of_nodup async.nodup_keys, List.length_map, Int.card_Ico] at hcard
  exact hcard

/-! ## All groups -/

/-- The groups divided so far are cut completely; the pending ones are untouched. -/
structure AssignInv (before : List ContiguousTransfer) (pending : List Nat) (limit : Nat)
    (transfers : List ContiguousTransfer) : Prop where
  core_eq : transfers.map ContiguousTransfer.core = before.map ContiguousTransfer.core
  fresh : ∀ i ∈ pending, ∀ t, transfers[i]? = some t → t.tasks = []
  done : ∀ i, i ∉ pending → ∀ t, transfers[i]? = some t → Divided limit t

/-- Dividing one more group takes it off the pending ones. -/
theorem AssignInv.group {before transfers transfers' : List ContiguousTransfer}
    {indices pending : List Nat} {limit limit' : Nat}
    (h : AssignInv before (indices ++ pending) limit transfers)
    (hdone : GroupDone limit' transfers indices transfers') (hle : limit ≤ limit')
    (hnodup : (indices ++ pending).Nodup) : AssignInv before pending limit' transfers' := by
  refine ⟨hdone.core_eq.trans h.core_eq, ?_, ?_⟩
  · intro i hi t ht
    have hnot : i ∉ indices := fun hmem => List.disjoint_of_nodup_append hnodup hmem hi
    rw [hdone.outside i hnot] at ht
    exact h.fresh i (by simp [hi]) t ht
  · intro i hi t ht
    by_cases hmem : i ∈ indices
    · exact hdone.done i hmem t ht
    · rw [hdone.outside i hmem] at ht
      exact (h.done i (by simp [hi, hmem]) t ht).mono hle

/-- The division changes no byte count of a list of transfers. -/
theorem sizesAt_congr {transfers before : List ContiguousTransfer}
    (h : transfers.map ContiguousTransfer.core = before.map ContiguousTransfer.core)
    (is : List Nat) : sizesAt transfers is = sizesAt before is := by
  unfold sizesAt
  rw [List.map_congr_left fun i _ => sizeAt_congr h i]

/-- The state between two groups, with room for the workloads still to come. -/
structure AssignReady (before : List ContiguousTransfer) (pending : List Nat)
    (used room : Nat) (s : AssignState) : Prop where
  inv : AssignInv before pending used s.transfers
  nodup : pending.Nodup
  bound : ∀ i ∈ pending, i < before.length
  room_le : used + room ≤ s.workerBytes.length
  length_lt : s.workerBytes.length < 2 ^ 32
  sum_lt : s.workerBytes.sum + sizesAt before pending < 2 ^ 64
  unused : (s.workerBytes.drop used).sum = 0

/-- Dividing one group moves the state on to the groups after it. -/
theorem assignGroup_ready {before : List ContiguousTransfer} (block : Nat) (group : Int)
    {workers used room : Nat} {load : GroupLoad} {pending : List Nat} {s : AssignState}
    (hfit : ∀ t ∈ before, t.offset + t.size < 2 ^ 64)
    (h : AssignReady before (load.indices ++ pending) used (max workers 1 + room) s)
    (hload : load.Counts before) (hworkers : workers ≤ maxConcurrency) :
    ∃ taken s', assignGroup block load.indices workers used load.bytes group s =
        .ok (taken, s') ∧
      AssignReady before pending (used + taken) room s' ∧
      s'.workerBytes.sum = s.workerBytes.sum + sizesAt before load.indices ∧
      s'.workerBytes.length = s.workerBytes.length := by
  have hsizes := sizesAt_congr h.inv.core_eq load.indices
  have hsum := h.sum_lt
  have hroom := h.room_le
  rw [sizesAt_append] at hsum
  have hbytes : load.bytes = sizesAt s.transfers load.indices := by
    rw [hload, hsizes]
    exact toWord_of_lt (by omega)
  have hlengths : s.transfers.length = before.length := by
    simpa using congrArg List.length h.inv.core_eq
  have hfit' : ∀ t ∈ s.transfers, t.offset + t.size < 2 ^ 64 := by
    intro t ht
    obtain ⟨t₀, ht₀, hcore⟩ := exists_before h.inv.core_eq ht
    obtain ⟨hoffset, hsize, -⟩ := eq_of_core_eq hcore
    have h₀ := hfit t₀ ht₀
    omega
  rw [hbytes]
  obtain ⟨taken, s', hrun, htaken, hdone, hsum', hlength', hunused⟩ :=
    assignGroup_spec block used group hfit'
      (h.nodup.sublist (List.sublist_append_left _ _))
      (fun i hi => hlengths ▸ h.bound i (by simp [hi]))
      (fun i hi => h.inv.fresh i (by simp [hi])) hworkers (by omega) h.length_lt (by omega)
      h.unused
  refine ⟨taken, s', hrun, ?_, by omega, hlength'⟩
  refine ⟨h.inv.group hdone (by omega) h.nodup, ?_, ?_, by omega, ?_, by omega, hunused⟩
  · exact h.nodup.sublist (List.sublist_append_right _ _)
  · exact fun i hi => h.bound i (by simp [hi])
  · have hlt := h.length_lt
    omega

/-- The async groups are divided one after the other, one workload each. -/
theorem assignAsyncGroups_spec {before : List ContiguousTransfer} (block : Nat)
    (hfit : ∀ t ∈ before, t.offset + t.size < 2 ^ 64) (groups : List (Int × GroupLoad))
    {used : Nat} {s : AssignState}
    (h : AssignReady before (groups.flatMap fun e => e.2.indices) used groups.length s)
    (hloads : ∀ e ∈ groups, e.2.Counts before) :
    ∃ used' s', assignAsyncGroups block groups used s = .ok (used', s') ∧
      AssignInv before [] used' s'.transfers ∧
      (s'.workerBytes.drop used').sum = 0 ∧
      s'.workerBytes.sum = s.workerBytes.sum +
        sizesAt before (groups.flatMap fun e => e.2.indices) := by
  induction groups generalizing used s with
  | nil =>
      exact ⟨used, s, rfl, h.inv, h.unused, by simp⟩
  | cons entry groups ih =>
      obtain ⟨group, load⟩ := entry
      have hready : AssignReady before
          (load.indices ++ groups.flatMap fun e => e.2.indices) used
          (max 1 1 + groups.length) s := by
        simpa [Nat.add_comm] using h
      obtain ⟨taken, s₁, hrun, hready₁, hsum₁, -⟩ :=
        assignGroup_ready block group hfit hready (hloads (group, load) (by simp))
          (by decide)
      obtain ⟨used', s', hrest, hinv, hle, hsum⟩ :=
        ih hready₁ (fun e he => hloads e (by simp [he]))
      have hword : wordAdd 32 used taken = used + taken := by
        have hroom := hready₁.room_le
        have hlt := hready₁.length_lt
        exact wordAdd_of_lt (by omega)
      refine ⟨used', s', ?_, hinv, hle, ?_⟩
      · simp only [assignAsyncGroups]
        rw [hrun]
        simp only [bind, Except.bind, hword]
        exact hrest
      · rw [hsum, hsum₁, List.flatMap_cons, sizesAt_append, Nat.add_assoc]

/-- Cutting a list of sizes after its last nonzero entry keeps the sum. -/
theorem sum_resize {xs : List Nat} {n m : Nat} (h : (xs.drop n).sum = 0) (hle : n ≤ m) :
    (resize 0 m xs).sum = xs.sum := by
  have hsplit := List.sum_take_add_sum_drop xs m
  have hzero := sum_drop_eq_zero_of_le h hle
  have hpadding : (List.replicate (m - xs.length) 0).sum = 0 := by simp
  simp only [resize, List.sum_append]
  omega

/-- A transfer that is cut completely passes the closing verification. -/
theorem Divided.sumSizes_eq {limit : Nat} {t : ContiguousTransfer} (h : Divided limit t)
    (hfit : t.offset + t.size < 2 ^ 64) :
    sumSizes (t.tasks.map FileReadTask.size) = t.size := by
  have hsum := h.sliced.contiguous.sum_sizes FileReadTask.size fun _ _ => rfl
  rw [sumSizes, toWord_of_lt (by omega)]
  omega

/-! ## The constructor -/

/-- What the constructor of {lit}`Assigner` promises about its transfers. -/
structure AssignedFor (request : List FileRanges) (a : Assigner) : Prop where
  expand_eq : a.transfers.flatMap ContiguousTransfer.expand = placedFiles 0 request
  divided : ∀ t ∈ a.transfers, Divided a.numWorkloads t
  size_eq : ∀ t ∈ a.transfers, t.size = t.rangeSizes.sum
  sizes_ne_nil : ∀ t ∈ a.transfers, t.rangeSizes ≠ []
  stop_lt : ∀ t ∈ a.transfers, t.offset + t.size < 2 ^ 63

/-- The state before the first group. -/
theorem assignReady_start {transfers : List ContiguousTransfer} {numWorkers : Nat}
    {sync : GroupLoad} {async : OrderedMap Int GroupLoad}
    (hgrouped : Grouped transfers transfers.length sync async)
    (hworkers : numWorkers ≤ maxConcurrency) (hfresh : ∀ t ∈ transfers, t.tasks = [])
    (hlt : (transfers.map ContiguousTransfer.size).sum < 2 ^ 64) :
    AssignReady transfers (sync.indices ++ async.entries.flatMap fun e => e.2.indices) 0
      (max numWorkers 1 + async.entries.length)
      { transfers
        workerBytes := List.replicate (numWorkers + async.entries.length + 1) 0
        groupByWorkload := List.replicate (numWorkers + async.entries.length + 1) (-1) } := by
  have hasync := hgrouped.length_async_le
  have hsizes := sizesAt_perm transfers hgrouped.perm
  rw [sizesAt_range] at hsizes
  refine ⟨⟨rfl, ?_, ?_⟩, ?_, ?_, ?_, ?_, ?_, by simp⟩
  · intro i _ t ht
    exact hfresh t (List.mem_of_getElem? ht)
  · intro i hi t ht
    obtain ⟨hlen, -⟩ := List.getElem?_eq_some_iff.1 ht
    exact absurd (hgrouped.perm.mem_iff.2 (List.mem_range.2 hlen)) hi
  · exact hgrouped.perm.nodup_iff.2 List.nodup_range
  · exact fun i hi => List.mem_range.1 (hgrouped.perm.mem_iff.1 hi)
  · simp only [List.length_replicate]
    omega
  · unfold maxConcurrency at hworkers
    simp only [List.length_replicate]
    omega
  · have hzero : (List.replicate (numWorkers + async.entries.length + 1) 0).sum = 0 := by
      simp
    simp only
    omega

/-- Dividing transfers without slices succeeds, passes the verification and cuts all of them. -/
theorem assign_spec (block : Nat) {numWorkers : Nat} (groupByFile : List Int32)
    {transfers : List ContiguousTransfer} {totalBytes : Nat}
    (hworkers : numWorkers ≤ maxConcurrency) (hpos : 0 < numWorkers)
    (hfresh : ∀ t ∈ transfers, t.tasks = [])
    (hfit : ∀ t ∈ transfers, t.offset + t.size < 2 ^ 64)
    (htotal : totalBytes = (transfers.map ContiguousTransfer.size).sum)
    (hlt : totalBytes < 2 ^ 64) :
    ∃ a, assign block numWorkers groupByFile transfers totalBytes = .ok a ∧
      a.transfers.map ContiguousTransfer.core = transfers.map ContiguousTransfer.core ∧
      ∀ t ∈ a.transfers, Divided a.numWorkloads t := by
  have hstart : Grouped transfers 0 .empty .empty := by
    refine ⟨by simp [GroupLoad.empty], ?_, by simp, by simp⟩
    simp [GroupLoad.Counts, GroupLoad.empty, toWord]
  have hgrouped := groupTransfers_spec groupByFile transfers
    (List.nil_append transfers).symm hstart
  rw [List.length_nil] at hgrouped
  simp only [assign]
  generalize groupTransfers groupByFile 0 transfers .empty .empty = groups at hgrouped ⊢
  obtain ⟨sync, async⟩ := groups
  simp only at hgrouped ⊢
  have hasync := hgrouped.length_async_le
  have hnum : toWord 32 async.entries.length = async.entries.length :=
    toWord_of_lt (by omega)
  have hceiling : toWord 32 (numWorkers + async.entries.length + 1) =
      numWorkers + async.entries.length + 1 := by
    unfold maxConcurrency at hworkers
    exact toWord_of_lt (by omega)
  rw [hnum, hceiling]
  generalize hstate : AssignState.mk transfers
    (List.replicate (numWorkers + async.entries.length + 1) 0)
    (List.replicate (numWorkers + async.entries.length + 1) (-1)) = s
  have hready := assignReady_start hgrouped hworkers hfresh (htotal ▸ hlt)
  rw [hstate] at hready
  have hsum₀ : s.workerBytes.sum = 0 := by
    subst hstate
    simp
  obtain ⟨usedSync, s₁, hrun₁, hready₁, hsum₁, -⟩ :=
    assignGroup_ready block (-1) hfit hready hgrouped.sync_counts hworkers
  rw [Nat.zero_add] at hready₁
  obtain ⟨used, s₂, hrun₂, hinv₂, hunused₂, hsum₂⟩ :=
    assignAsyncGroups_spec block hfit async.entries hready₁ hgrouped.async_counts
  have hdivided : ∀ t ∈ s₂.transfers, Divided (max used 1) t := by
    intro t ht
    obtain ⟨i, hi⟩ := List.mem_iff_getElem?.1 ht
    exact (hinv₂.done i (by simp) t hi).mono (by omega)
  have hbytes : sumSizes (resize 0 (max used 1) s₂.workerBytes) = totalBytes := by
    have hsizes := sizesAt_perm transfers hgrouped.perm
    rw [sizesAt_range, sizesAt_append] at hsizes
    have hresize := sum_resize hunused₂ (le_max_left used 1)
    rw [sumSizes, hresize, toWord_of_lt (by omega)]
    omega
  have hverified : ∀ t ∈ s₂.transfers,
      sumSizes (t.tasks.map FileReadTask.size) = t.size := by
    intro t ht
    obtain ⟨t₀, ht₀, hcore⟩ := exists_before hinv₂.core_eq ht
    obtain ⟨hoffset, hsize, -⟩ := eq_of_core_eq hcore
    have h₀ := hfit t₀ ht₀
    exact (hdivided t ht).sumSizes_eq (by omega)
  rw [hrun₁]
  simp only [bind, Except.bind]
  rw [hrun₂]
  simp only [assertThat_of hbytes, assertThat_of hverified]
  exact ⟨_, rfl, hinv₂.core_eq, hdivided⟩

/-- Transfers that agree slices aside stand for the same ranges. -/
theorem flatMap_expand_congr {xs ys : List ContiguousTransfer}
    (h : xs.map ContiguousTransfer.core = ys.map ContiguousTransfer.core) :
    xs.flatMap ContiguousTransfer.expand = ys.flatMap ContiguousTransfer.expand := by
  have hcore : ∀ ts : List ContiguousTransfer,
      ts.flatMap ContiguousTransfer.expand =
        (ts.map ContiguousTransfer.core).flatMap ContiguousTransfer.expand := by
    intro ts
    rw [List.flatMap_map]
    rfl
  rw [hcore xs, hcore ys, h]

theorem Config.numWorkers_le (config : Config) (b : Bool) :
    config.numWorkers b ≤ maxConcurrency := by
  unfold Config.numWorkers
  split
  · exact config.s3Concurrency_le
  · exact config.concurrency_le

theorem Config.numWorkers_pos (config : Config) (b : Bool) : 0 < config.numWorkers b := by
  unfold Config.numWorkers
  split
  · exact config.s3Concurrency_pos
  · exact config.concurrency_pos

/-- The constructor succeeds on a request that fits and cuts every transfer completely. -/
theorem makeAssigner_spec {request : List FileRanges} (config : Config)
    (groupByFile : List Int32) (h : RequestFits request) :
    ∃ a, makeAssigner request config groupByFile = .ok a ∧ AssignedFor request a := by
  obtain ⟨c, hc, hcoalesced⟩ := coalesce_spec h
  have hexpand := hcoalesced.expand_eq
  unfold makeAssigner
  by_cases hempty : request = []
  · subst hempty
    exact ⟨_, rfl, by simp [placedFiles], by simp, by simp, by simp, by simp⟩
  · rw [if_neg hempty]
    simp only [hc, bind, Except.bind]
    by_cases hnil : c.transfers = []
    · refine ⟨_, if_pos hnil, ?_, by simp, by simp, by simp, by simp⟩
      rw [← hexpand, hnil]
    · rw [if_neg hnil]
      obtain ⟨a, ha, hcore, hdivided⟩ :=
        assign_spec (config.blockBytesize (checkObjectStorage request)) groupByFile
          (config.numWorkers_le (checkObjectStorage request))
          (config.numWorkers_pos (checkObjectStorage request))
          (fun t ht => (hcoalesced.wellFormed t ht).tasks_eq)
          (fun t ht => (hcoalesced.wellFormed t ht).stop_lt.trans (by decide))
          hcoalesced.total_eq hcoalesced.total_lt
      refine ⟨a, ha, ?_, hdivided, ?_, ?_, ?_⟩
      · rw [flatMap_expand_congr hcore, hexpand]
      all_goals
        intro t ht
        obtain ⟨t₀, ht₀, heq⟩ := exists_before hcore ht
        obtain ⟨hoffset, hsize, hsizes⟩ := eq_of_core_eq heq
        have hwf := hcoalesced.wellFormed t₀ ht₀
      · rw [hsize, hsizes]
        exact hwf.size_eq
      · rw [hsizes]
        exact hwf.sizes_ne_nil
      · rw [hoffset, hsize]
        exact hwf.stop_lt

end Streamer
end ModelStreamer
