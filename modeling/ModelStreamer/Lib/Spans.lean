import Mathlib.Algebra.BigOperators.Group.List.Basic
import Mathlib.Algebra.Order.BigOperators.Group.List
import Mathlib.Algebra.Order.Ring.Nat
import Mathlib.Data.List.Basic
import Mathlib.Order.Bounds.Basic
import Mathlib.Tactic.Common

/-!
# Cutting a list of sizes

A list of sizes is cut into contiguous parts.  The walk from left to right that starts a new
part whenever the next size does not fit under a ceiling needs the fewest parts of all ways
to cut under that ceiling.

Main results:

- Theorem {lit}`walk_iff_cut`: the walk needs at most {lit}`n` parts exactly when some way to
  cut into at most {lit}`n` parts stays under the ceiling.
-/

namespace ModelStreamer
namespace Lib

/-! ## Parts -/

/-- A way to cut the list into at most {lit}`n` contiguous parts. -/
def CutInto {α : Type*} (n : Nat) (l : List α) (parts : List (List α)) : Prop :=
  parts.flatten = l ∧ parts.length ≤ n

/-- The sum of the largest part. -/
def largestSum (parts : List (List Nat)) : Nat :=
  (parts.map List.sum).foldr max 0

/-- The largest of some numbers is at most a bound exactly when all are. -/
theorem foldr_max_le_iff {xs : List Nat} {c : Nat} : xs.foldr max 0 ≤ c ↔ ∀ x ∈ xs, x ≤ c := by
  induction xs with
  | nil => simp
  | cons x xs ih => simp [ih]

theorem le_foldr_max {xs : List Nat} {x : Nat} (h : x ∈ xs) : x ≤ xs.foldr max 0 :=
  foldr_max_le_iff.1 (le_refl _) x h

/-- The largest sum is at most a bound exactly when all are. -/
theorem largestSum_le_iff {parts : List (List Nat)} {c : Nat} :
    largestSum parts ≤ c ↔ ∀ part ∈ parts, part.sum ≤ c := by
  unfold largestSum
  rw [foldr_max_le_iff]
  exact List.forall_mem_map

/-- The parts of a list between the cut positions, from {lit}`start` on. -/
def slices {α : Type*} (l : List α) : Nat → List Nat → List (List α)
  | _, [] => []
  | start, stop :: stops => (l.drop start).take (stop - start) :: slices l stop stops

@[simp]
theorem length_slices {α : Type*} (l : List α) (start : Nat) (stops : List Nat) :
    (slices l start stops).length = stops.length := by
  induction stops generalizing start with
  | nil => rfl
  | cons stop stops ih => simp [slices, ih]

/-- Slices between positions that do not go back are a way to cut the list. -/
theorem flatten_slices {α : Type*} {l : List α} {start : Nat} {stops : List Nat}
    (hchain : (start :: stops).IsChain (· ≤ ·))
    (hlast : (start :: stops).getLast? = some l.length) :
    (slices l start stops).flatten = l.drop start := by
  induction stops generalizing start with
  | nil =>
      simp only [List.getLast?_singleton, Option.some.injEq] at hlast
      simp [slices, hlast]
  | cons stop stops ih =>
      obtain ⟨hle, hrest⟩ := List.isChain_cons_cons.1 hchain
      rw [List.getLast?_cons_cons] at hlast
      rw [slices, List.flatten_cons, ih hrest hlast]
      have hdrop : l.drop stop = (l.drop start).drop (stop - start) := by
        rw [List.drop_drop]
        congr 1
        omega
      rw [hdrop, List.take_append_drop]

/-! ## The walk -/

/-- How many of the next sizes fit under the ceiling, with {lit}`used` of it taken. -/
def fitLength (c : Nat) : Nat → List Nat → Nat
  | _, [] => 0
  | used, size :: sizes => if used + size ≤ c then fitLength c (used + size) sizes + 1 else 0

/--
The number of parts that the walk from left to right needs, when it cuts whenever the next
size does not fit.  There is none when a size is above the ceiling by itself.
-/
def walkParts (c : Nat) : Nat → List Nat → Option Nat
  | _, [] => some 1
  | used, size :: sizes =>
      if used + size ≤ c then walkParts c (used + size) sizes
      else if size ≤ c then (walkParts c size sizes).map (· + 1)
      else none

/-- What fits is part of the list. -/
theorem fitLength_le (c used : Nat) (sizes : List Nat) :
    fitLength c used sizes ≤ sizes.length := by
  induction sizes generalizing used with
  | nil => exact Nat.le_refl 0
  | cons size sizes ih =>
      unfold fitLength
      split
      · exact Nat.succ_le_succ (ih _)
      · exact Nat.zero_le _

/-- What fits stays under the ceiling. -/
theorem sum_take_fitLength {c used : Nat} (sizes : List Nat) (hused : used ≤ c) :
    used + (sizes.take (fitLength c used sizes)).sum ≤ c := by
  induction sizes generalizing used with
  | nil => simpa [fitLength] using hused
  | cons size sizes ih =>
      unfold fitLength
      split
      · rename_i hfits
        rw [List.take_succ_cons, List.sum_cons, ← Nat.add_assoc]
        exact ih hfits
      · simpa using hused

/-- The size after what fits does not fit. -/
theorem sum_take_succ_fitLength {c used : Nat} (sizes : List Nat)
    (hlt : fitLength c used sizes < sizes.length) :
    c < used + (sizes.take (fitLength c used sizes + 1)).sum := by
  induction sizes generalizing used with
  | nil => simp [fitLength] at hlt
  | cons size sizes ih =>
      unfold fitLength at hlt ⊢
      split at hlt
      · rename_i hfits
        rw [if_pos hfits, List.take_succ_cons, List.sum_cons, ← Nat.add_assoc]
        exact ih (by simpa using hlt)
      · rename_i hover
        rw [if_neg hover]
        simpa using hover

/-- The walk goes on after what fits. -/
theorem walkParts_eq (c used : Nat) (sizes : List Nat) :
    walkParts c used sizes =
      if fitLength c used sizes = sizes.length then some 1
      else (walkParts c 0 (sizes.drop (fitLength c used sizes))).map (· + 1) := by
  induction sizes generalizing used with
  | nil => simp [walkParts, fitLength]
  | cons size sizes ih =>
      by_cases hfits : used + size ≤ c
      · simp only [walkParts, fitLength, if_pos hfits, List.length_cons, Nat.add_right_cancel_iff,
          List.drop_succ_cons]
        exact ih (used + size)
      · have hne : ¬ 0 = sizes.length + 1 := by omega
        simp only [walkParts, fitLength, if_neg hfits, List.length_cons, List.drop_zero,
          Nat.zero_add, if_neg hne]
        by_cases hsize : size ≤ c
        · rw [if_pos hsize, if_pos hsize]
        · rw [if_neg hsize, if_neg hsize]
          rfl

/-- The walk needs at least one part. -/
theorem walkParts_pos {c used m : Nat} {sizes : List Nat} (h : walkParts c used sizes = some m) :
    0 < m := by
  rw [walkParts_eq] at h
  split_ifs at h
  · cases h
    exact Nat.one_pos
  · obtain ⟨k, -, rfl⟩ := Option.map_eq_some_iff.1 h
    exact Nat.succ_pos k

/-! ## The walk needs the fewest parts -/

/--
Starting with less taken never needs more parts, and one part more makes up for anything that
was taken.
-/
theorem walkParts_mono {c : Nat} {sizes : List Nat} (hsizes : ∀ size ∈ sizes, size ≤ c)
    (u v : Nat) (hu : u ≤ c) (hv : v ≤ c) :
    ∃ i j, walkParts c u sizes = some i ∧ walkParts c v sizes = some j ∧ i ≤ j + 1 ∧
      (u ≤ v → i ≤ j) := by
  induction sizes generalizing u v with
  | nil => exact ⟨1, 1, rfl, rfl, by omega, fun _ => Nat.le_refl 1⟩
  | cons size sizes ih =>
      have hsize : size ≤ c := hsizes size List.mem_cons_self
      have ih := ih fun s hs => hsizes s (List.mem_cons_of_mem _ hs)
      by_cases hfu : u + size ≤ c
      · by_cases hfv : v + size ≤ c
        · obtain ⟨i, j, hi, hj, hone, hmono⟩ := ih (u + size) (v + size) hfu hfv
          refine ⟨i, j, ?_, ?_, hone, fun huv => hmono (by omega)⟩
          · simp [walkParts, hfu, hi]
          · simp [walkParts, hfv, hj]
        · obtain ⟨i, j, hi, hj, hone, -⟩ := ih (u + size) size hfu hsize
          refine ⟨i, j + 1, ?_, ?_, by omega, fun _ => hone⟩
          · simp [walkParts, hfu, hi]
          · simp [walkParts, hfv, hsize, hj]
      · by_cases hfv : v + size ≤ c
        · obtain ⟨i, j, hi, hj, -, hmono⟩ := ih size (v + size) hsize hfv
          have hle := hmono (Nat.le_add_left _ _)
          refine ⟨i + 1, j, ?_, ?_, by omega, fun huv => by omega⟩
          · simp [walkParts, hfu, hsize, hi]
          · simp [walkParts, hfv, hj]
        · obtain ⟨i, j, hi, hj, -, hmono⟩ := ih size size hsize hsize
          have hle := hmono (Nat.le_refl size)
          refine ⟨i + 1, j + 1, ?_, ?_, by omega, fun _ => by omega⟩
          · simp [walkParts, hfu, hsize, hi]
          · simp [walkParts, hfv, hsize, hj]

/-- Sizes that fit are walked over without a cut. -/
theorem walkParts_append {c used : Nat} {part rest : List Nat} (h : used + part.sum ≤ c) :
    walkParts c used (part ++ rest) = walkParts c (used + part.sum) rest := by
  induction part generalizing used with
  | nil => simp
  | cons size part ih =>
      rw [List.sum_cons] at h ⊢
      rw [List.cons_append, walkParts, if_pos (by omega), ih (by omega)]
      congr 1
      omega

/-- The walk needs no more parts than any way to cut under the ceiling. -/
theorem walkParts_le_of_cut {c : Nat} {part : List Nat} {parts : List (List Nat)}
    (h : ∀ p ∈ part :: parts, p.sum ≤ c) :
    ∃ m ≤ parts.length + 1, walkParts c 0 (part :: parts).flatten = some m := by
  induction parts generalizing part with
  | nil =>
      have hsum : part.sum ≤ c := h part List.mem_cons_self
      refine ⟨1, Nat.le_refl 1, ?_⟩
      have hwalk := @walkParts_append _ 0 _ [] (by simpa using hsum)
      simpa [walkParts] using hwalk
  | cons next parts ih =>
      have hsum : part.sum ≤ c := h part List.mem_cons_self
      obtain ⟨m, hm, hwalk⟩ := ih fun p hp => h p (List.mem_cons_of_mem _ hp)
      have hsizes : ∀ size ∈ (next :: parts).flatten, size ≤ c := by
        intro size hsize
        obtain ⟨p, hp, hmem⟩ := List.mem_flatten.1 hsize
        exact (List.single_le_sum (fun _ _ => Nat.zero_le _) size hmem).trans
          (h p (List.mem_cons_of_mem _ hp))
      obtain ⟨i, j, hi, hj, hone, -⟩ :=
        walkParts_mono hsizes part.sum 0 hsum (Nat.zero_le c)
      rw [hwalk] at hj
      cases hj
      refine ⟨i, by simp only [List.length_cons]; omega, ?_⟩
      rw [List.flatten_cons, walkParts_append (by simpa using hsum), Nat.zero_add]
      exact hi

/-- The walk is itself a way to cut under the ceiling. -/
theorem exists_cut_of_walkParts {c m : Nat} {sizes : List Nat}
    (h : walkParts c 0 sizes = some m) :
    ∃ parts, CutInto m sizes parts ∧ ∀ part ∈ parts, part.sum ≤ c := by
  induction m generalizing sizes with
  | zero => exact absurd (walkParts_pos h) (Nat.lt_irrefl 0)
  | succ m ih =>
      rw [walkParts_eq] at h
      have hfits : (sizes.take (fitLength c 0 sizes)).sum ≤ c := by
        simpa using sum_take_fitLength sizes (Nat.zero_le c)
      split_ifs at h with hall
      · refine ⟨[sizes], ⟨by simp, by simp⟩, fun part hpart => ?_⟩
        rw [List.mem_singleton.1 hpart]
        rwa [hall, List.take_length] at hfits
      · obtain ⟨k, hk, hsucc⟩ := Option.map_eq_some_iff.1 h
        cases hsucc
        obtain ⟨parts, ⟨hflat, hlen⟩, hsums⟩ := ih hk
        refine ⟨sizes.take (fitLength c 0 sizes) :: parts, ⟨?_, ?_⟩, fun part hpart => ?_⟩
        · rw [List.flatten_cons, hflat, List.take_append_drop]
        · simpa using hlen
        · rcases List.mem_cons.1 hpart with rfl | hrest
          · exact hfits
          · exact hsums part hrest

/-- The walk needs at most {lit}`n` parts exactly when some way to cut does. -/
theorem walk_iff_cut {c n : Nat} {sizes : List Nat} (hn : 0 < n) :
    (∃ m ≤ n, walkParts c 0 sizes = some m) ↔
      ∃ parts, CutInto n sizes parts ∧ largestSum parts ≤ c := by
  simp only [largestSum_le_iff]
  constructor
  · rintro ⟨m, hm, hwalk⟩
    obtain ⟨parts, ⟨hflat, hlen⟩, hsums⟩ := exists_cut_of_walkParts hwalk
    exact ⟨parts, ⟨hflat, hlen.trans hm⟩, hsums⟩
  · rintro ⟨parts, ⟨hflat, hlen⟩, hsums⟩
    subst hflat
    cases parts with
    | nil => exact ⟨1, hn, rfl⟩
    | cons part parts =>
        obtain ⟨m, hm, hwalk⟩ := walkParts_le_of_cut hsums
        exact ⟨m, hm.trans (by simpa using hlen), hwalk⟩

/-- No way to cut stays under a smaller ceiling than the largest size and the mean part. -/
theorem le_largestSum_of_cut {n : Nat} {sizes : List Nat} {parts : List (List Nat)}
    (h : CutInto n sizes parts) :
    (∀ size ∈ sizes, size ≤ largestSum parts) ∧ sizes.sum / n ≤ largestSum parts := by
  obtain ⟨hflat, hlen⟩ := h
  have hparts := largestSum_le_iff.1 (Nat.le_refl (largestSum parts))
  constructor
  · intro size hsize
    rw [← hflat] at hsize
    obtain ⟨part, hpart, hmem⟩ := List.mem_flatten.1 hsize
    exact (List.single_le_sum (fun _ _ => Nat.zero_le _) size hmem).trans (hparts part hpart)
  · have hsum : sizes.sum ≤ n * largestSum parts := by
      rw [← hflat, List.sum_flatten]
      have hcard : (parts.map List.sum).sum ≤ (parts.map List.sum).length * largestSum parts := by
        refine List.sum_le_card_nsmul _ _ fun s hs => ?_
        obtain ⟨part, hpart, rfl⟩ := List.mem_map.1 hs
        exact hparts part hpart
      rw [List.length_map] at hcard
      exact hcard.trans (Nat.mul_le_mul_right _ hlen)
    exact Nat.div_le_of_le_mul hsum

end Lib
end ModelStreamer
