import ModelStreamer.Distributed.PartitionCover
import ModelStreamer.Lib.Balance

/-!
# Shares are balanced

The {lit}`chunks` and the {lit}`files` policy give every item to the rank that has the fewest
bytes at its turn.

Main results:

- Theorem {lit}`greedy_partition_balanced`: the ranks differ by no more than the largest item.
-/

namespace ModelStreamer
namespace Distributed

open Lib

/-! ## The greedy loop -/

section Distribute

variable {α : Type*} {size : α → Nat} {largest : Nat}

/-- The emptiest partition has no more than any other. -/
theorem emptiest_least {partitionSizes : List Nat} {least : Nat}
    (h : partitionSizes[emptiest partitionSizes]? = some least) :
    ∀ other ∈ partitionSizes, least ≤ other := by
  obtain ⟨hlt, hget⟩ := List.getElem?_eq_some_iff.1 h
  have hall := List.findIdx_getElem (w := hlt)
  simp only [List.all_eq_true, decide_eq_true_eq] at hall
  rw [← hget]
  exact hall

/-- The sums of partitions of which one was given an item. -/
theorem map_sum_modify (partitions : List (List α)) (index : Nat) (item : α) :
    (partitions.modify index (· ++ [item])).map (fun part => (part.map size).sum) =
      (partitions.map fun part => (part.map size).sum).modify index (· + size item) := by
  apply List.ext_getElem?
  intro i
  simp only [List.getElem?_map, List.getElem?_modify]
  ext part
  by_cases hi : index = i <;> simp [hi]

/-- The sizes that the loop keeps are those of the partitions, and they are balanced. -/
structure GreedyInv (size : α → Nat) (largest : Nat) (state : List (List α) × List Nat) :
    Prop where
  sizes_eq : state.2 = state.1.map fun part => (part.map size).sum
  balanced : Balanced largest state.2

theorem GreedyInv.distributeOne {state : List (List α) × List Nat}
    (h : GreedyInv size largest state) {item : α} (hitem : size item ≤ largest) :
    GreedyInv size largest (distributeOne size state item) where
  sizes_eq := by
    simp only [Distributed.distributeOne, map_sum_modify, ← h.sizes_eq]
  balanced := h.balanced.modify (Nat.zero_le _) hitem fun _ hget => emptiest_least hget

/-- The partitions that the loop makes are balanced. -/
theorem distribute_balanced {items : List α} (hitems : ∀ item ∈ items, size item ≤ largest)
    (n : Nat) :
    Balanced largest ((distribute size n items).map fun part => (part.map size).sum) := by
  have hfold : ∀ (items : List α) (state : List (List α) × List Nat),
      (∀ item ∈ items, size item ≤ largest) → GreedyInv size largest state →
      GreedyInv size largest (items.foldl (distributeOne size) state) := by
    intro items
    induction items with
    | nil => exact fun _ _ h => h
    | cons item items ih =>
        intro state hsizes h
        apply ih
        · exact fun other hother => hsizes other (List.mem_cons_of_mem _ hother)
        · exact h.distributeOne (hsizes item List.mem_cons_self)
  have hstart : GreedyInv size largest (List.replicate n [], List.replicate n 0) := by
    constructor
    · simp
    · exact balanced_replicate n (Nat.zero_le largest)
  have hend := hfold items _ hitems hstart
  have hbalanced := hend.balanced
  rw [hend.sizes_eq] at hbalanced
  exact hbalanced

end Distribute

/-! ## The policies -/

/-- The size of the largest chunk of a request. -/
def largestChunk (requests : List FileChunks) : Nat :=
  (requests.flatMap FileChunks.sizes).foldr max 0

/-- The size of the largest file of a request. -/
def largestFile (requests : List FileChunks) : Nat :=
  (requests.map FileChunks.totalSize).foldr max 0

/-- The loads of {lit}`n` ranks differ by no more than {lit}`largest`, and share {lit}`total`. -/
structure BalancedShares (n total largest : Nat) (shares : List Share) : Prop where
  length_eq : shares.length = n
  sum_eq : (shares.map getTotalSizeOfPartition).sum = total
  balanced : Balanced largest (shares.map getTotalSizeOfPartition)

/-- The largest load is close to the mean. -/
theorem BalancedShares.le_mean {n total largest : Nat} {shares : List Share}
    (h : BalancedShares n total largest shares) (hn : 0 < n) {share : Share}
    (hshare : share ∈ shares) : getTotalSizeOfPartition share ≤ total / n + largest := by
  have hmem : getTotalSizeOfPartition share ∈ shares.map getTotalSizeOfPartition :=
    List.mem_map_of_mem hshare
  have hmean := h.balanced.nsmul_le hmem
  rw [List.length_map, h.length_eq, h.sum_eq, nsmul_eq_mul, nsmul_eq_mul] at hmean
  have hdiv : getTotalSizeOfPartition share ≤ (total + n * largest) / n := by
    apply (Nat.le_div_iff_mul_le hn).2
    rw [Nat.mul_comm]
    exact hmean
  rwa [Nat.add_mul_div_left _ _ hn] at hdiv

/-- Shares for a request without files. -/
theorem balancedShares_replicate (n largest : Nat) :
    BalancedShares n 0 largest (List.replicate n []) := by
  have hloads : (List.replicate n ([] : Share)).map getTotalSizeOfPartition =
      List.replicate n 0 := by
    simp [getTotalSizeOfPartition]
  refine ⟨List.length_replicate, ?_, ?_⟩
  · rw [hloads]
    simp
  · rw [hloads]
    exact balanced_replicate n (Nat.zero_le largest)

/-- Reconstructing the files of a partition keeps its bytes. -/
theorem map_bytes_reconstruct (id : Int) (partitions : List (List WorkUnit)) :
    (reconstruct id partitions).map getTotalSizeOfPartition =
      partitions.map fun part => (part.map WorkUnit.size).sum := by
  induction partitions generalizing id with
  | nil => rfl
  | cons units partitions ih =>
      obtain ⟨hgroups, hperm, -⟩ := sortedGroups_spec units
      simp only [reconstruct, List.map_cons, List.cons.injEq]
      constructor
      · rw [getTotalSizeOfPartition_eq (wellMapped_numberEntries id),
          shareUnits_numberEntries hgroups]
        exact (hperm.map _).sum_eq
      · exact ih _

/-- Files that are taken whole keep their bytes. -/
theorem map_bytes_sourceMap (parts : List (List FileChunks)) :
    (parts.map fun files => files.map fun file => (file, file.sourceMap)).map
        getTotalSizeOfPartition =
      parts.map fun part => (part.map FileChunks.totalSize).sum := by
  rw [List.map_map]
  apply List.map_congr_left
  intro files _
  simp [getTotalSizeOfPartition, Function.comp_def]

/-- The bytes of all partitions are those of the items. -/
theorem sum_distribute {α : Type*} {size : α → Nat} {n : Nat} (hn : 0 < n) (items : List α) :
    ((distribute size n items).map fun part => (part.map size).sum).sum =
      (items.map size).sum := by
  rw [← ((distribute_spec hn items).2.map size).sum_eq, List.map_flatten, List.sum_flatten,
    List.map_map]
  rfl

/-- The units of a request have its sizes. -/
theorem map_size_units (requests : List FileChunks) :
    (requests.flatMap FileChunks.units).map WorkUnit.size =
      requests.flatMap FileChunks.sizes := by
  rw [List.map_flatMap]
  apply List.flatMap_congr
  intro file _
  rw [units_eq_map_unitAt, List.map_map]
  apply List.ext_getElem
  · simp
  · intro i hi hi'
    simp [FileChunks.unitAt, List.getD_eq_getElem?_getD, hi']

/-- The chunks policy balances the ranks up to the largest chunk. -/
theorem partitionByChunks_balanced {n : Nat} (hn : 0 < n) (requests : List FileChunks) :
    ∃ shares, partitionByChunks requests n = .ok shares ∧
      BalancedShares n (totalOf requests) (largestChunk requests) shares := by
  unfold partitionByChunks
  rw [if_neg (by omega)]
  by_cases hempty : requests = []
  · rw [if_pos hempty, hempty]
    exact ⟨_, rfl, balancedShares_replicate n _⟩
  · rw [if_neg hempty]
    generalize hsorted : (requests.flatMap FileChunks.units).mergeSort largerFirst = sorted
    have hperm : (sorted.map WorkUnit.size).Perm (requests.flatMap FileChunks.sizes) := by
      rw [← map_size_units, ← hsorted]
      exact (List.mergeSort_perm _ _).map _
    have hlargest : ∀ unit ∈ sorted, unit.size ≤ largestChunk requests := by
      intro unit hunit
      apply le_foldr_max
      exact hperm.mem_iff.1 (List.mem_map_of_mem hunit)
    refine ⟨_, rfl, ?_, ?_, ?_⟩
    · exact (reconstruct_spec 0 _).1.trans (distribute_spec hn sorted).1
    · rw [map_bytes_reconstruct, sum_distribute hn, hperm.sum_eq, totalOf_eq]
    · rw [map_bytes_reconstruct]
      exact distribute_balanced hlargest n

/-- The files policy balances the ranks up to the largest file. -/
theorem partitionByFiles_balanced {n : Nat} (hn : 0 < n) (requests : List FileChunks) :
    ∃ shares, partitionByFiles requests n = .ok shares ∧
      BalancedShares n (totalOf requests) (largestFile requests) shares := by
  unfold partitionByFiles
  rw [if_neg (by omega)]
  by_cases hempty : requests = []
  · rw [if_pos hempty, hempty]
    exact ⟨_, rfl, balancedShares_replicate n _⟩
  · rw [if_neg hempty]
    simp only
    generalize hsorted : requests.mergeSort (fun a b => b.totalSize ≤ a.totalSize) = sorted
    have hperm : (sorted.map FileChunks.totalSize).Perm (requests.map FileChunks.totalSize) := by
      rw [← hsorted]
      exact (List.mergeSort_perm _ _).map _
    have hlargest : ∀ file ∈ sorted, file.totalSize ≤ largestFile requests := by
      intro file hfile
      apply le_foldr_max
      exact hperm.mem_iff.1 (List.mem_map_of_mem hfile)
    refine ⟨_, rfl, ?_, ?_, ?_⟩
    · rw [List.length_map]
      exact (distribute_spec hn sorted).1
    · rw [map_bytes_sourceMap, sum_distribute hn, hperm.sum_eq]
      rfl
    · rw [map_bytes_sourceMap]
      exact distribute_balanced hlargest n

/--
The ranks get all bytes of a request.  Under the chunks policy two ranks differ by at most the
largest chunk, under the files policy by at most the largest file, and no rank is above the mean by
more than that.
-/
theorem greedy_partition_balanced {n : Nat} (hn : 1 ≤ n) (requests : List FileChunks) :
    (∃ shares, partitionByChunks requests n = .ok shares ∧ shares.length = n ∧
      (shares.map getTotalSizeOfPartition).sum = totalOf requests ∧
      (∀ a ∈ shares, ∀ b ∈ shares,
        getTotalSizeOfPartition a ≤ getTotalSizeOfPartition b + largestChunk requests) ∧
      ∀ a ∈ shares,
        getTotalSizeOfPartition a ≤ totalOf requests / n + largestChunk requests) ∧
    ∃ shares, partitionByFiles requests n = .ok shares ∧ shares.length = n ∧
      (shares.map getTotalSizeOfPartition).sum = totalOf requests ∧
      (∀ a ∈ shares, ∀ b ∈ shares,
        getTotalSizeOfPartition a ≤ getTotalSizeOfPartition b + largestFile requests) ∧
      ∀ a ∈ shares,
        getTotalSizeOfPartition a ≤ totalOf requests / n + largestFile requests := by
  constructor
  · obtain ⟨shares, hok, hbalanced⟩ := partitionByChunks_balanced hn requests
    refine ⟨shares, hok, hbalanced.length_eq, hbalanced.sum_eq, ?_,
      fun a ha => hbalanced.le_mean hn ha⟩
    intro a ha b hb
    exact hbalanced.balanced _ (List.mem_map_of_mem ha) _ (List.mem_map_of_mem hb)
  · obtain ⟨shares, hok, hbalanced⟩ := partitionByFiles_balanced hn requests
    refine ⟨shares, hok, hbalanced.length_eq, hbalanced.sum_eq, ?_,
      fun a ha => hbalanced.le_mean hn ha⟩
    intro a ha b hb
    exact hbalanced.balanced _ (List.mem_map_of_mem ha) _ (List.mem_map_of_mem hb)

/-- Three chunks of two files for two ranks. -/
theorem greedy_partition_balanced_threeChunks :
    ∃ shares, partitionByChunks [⟨0, "a", [0, 5], [5, 4], rfl⟩, ⟨1, "b", [0], [2], rfl⟩] 2 =
        .ok shares ∧
      shares.length = 2 ∧ (shares.map getTotalSizeOfPartition).sum = 11 ∧
      (∀ a ∈ shares, ∀ b ∈ shares,
        getTotalSizeOfPartition a ≤ getTotalSizeOfPartition b + 5) ∧
      ∀ a ∈ shares, getTotalSizeOfPartition a ≤ 5 + 5 :=
  (greedy_partition_balanced (by decide)
    [⟨0, "a", [0, 5], [5, 4], rfl⟩, ⟨1, "b", [0], [2], rfl⟩]).1

end Distributed
end ModelStreamer
