import Mathlib.Algebra.Order.Ring.Nat
import Mathlib.Algebra.BigOperators.Group.List.Basic
import Mathlib.Tactic.Common

/-!
# Counting over a list while one entry changes

A step of a system of threads replaces one entry of a list.  What the entries contribute
together then changes by what that entry contributes.
-/

namespace ModelStreamer
namespace Lib

variable {α : Type*}

/-- Reading a list back after one entry that exists was replaced. -/
theorem getElem?_set_of_some {xs : List α} {i : Nat} {x : α}
    (hx : xs[i]? = some x) (y : α) (j : Nat) :
    (xs.set i y)[j]? = if j = i then some y else xs[j]? := by
  obtain ⟨hlt, -⟩ := List.getElem?_eq_some_iff.1 hx
  rw [List.getElem?_set, if_pos hlt]
  by_cases hij : i = j
  · simp [hij]
  · simp [hij, Ne.symm hij]

/-- An entry of a list with one more entry is an old one or the new one. -/
theorem getElem?_concat_cases {xs : List α} {new x : α} {i : Nat}
    (h : (xs ++ [new])[i]? = some x) : xs[i]? = some x ∨ (i = xs.length ∧ x = new) := by
  by_cases hi : i < xs.length
  · rw [List.getElem?_append_left hi] at h
    exact Or.inl h
  · rw [List.getElem?_append_right (by omega), List.getElem?_singleton] at h
    split at h
    · cases h
      exact Or.inr ⟨by omega, rfl⟩
    · cases h

/-- An entry keeps its place when one more entry is added. -/
theorem getElem?_concat_of_some {xs : List α} {x : α} {i : Nat} (h : xs[i]? = some x)
    (new : α) : (xs ++ [new])[i]? = some x := by
  rw [List.getElem?_append_left (List.getElem?_eq_some_iff.1 h).1]
  exact h

/-- Replacing one entry trades its contribution for the new one. -/
theorem sum_map_set {xs : List α} {i : Nat} {x : α} (hx : xs[i]? = some x) (y : α)
    (f : α → Nat) : ((xs.set i y).map f).sum + f x = (xs.map f).sum + f y := by
  induction xs generalizing i with
  | nil => simp at hx
  | cons z zs ih =>
      cases i with
      | zero =>
          simp only [List.getElem?_cons_zero, Option.some.injEq] at hx
          subst hx
          simp only [List.set_cons_zero, List.map_cons, List.sum_cons]
          omega
      | succ i =>
          simp only [List.getElem?_cons_succ] at hx
          have hrec := ih hx
          simp only [List.set_cons_succ, List.map_cons, List.sum_cons]
          omega

/-- Replacing one entry changes a count by what the two entries count. -/
theorem countP_set {xs : List α} {i : Nat} {x : α} (hx : xs[i]? = some x) (y : α)
    (P : α → Bool) :
    (xs.set i y).countP P + (if P x then 1 else 0) =
      xs.countP P + (if P y then 1 else 0) := by
  induction xs generalizing i with
  | nil => simp at hx
  | cons z zs ih =>
      cases i with
      | zero =>
          simp only [List.getElem?_cons_zero, Option.some.injEq] at hx
          subst hx
          simp only [List.set_cons_zero, List.countP_cons]
          omega
      | succ i =>
          simp only [List.getElem?_cons_succ] at hx
          have hrec := ih hx
          simp only [List.set_cons_succ, List.countP_cons]
          omega

/-- An entry contributes at most the whole. -/
theorem le_sum_map_of_getElem? {xs : List α} {i : Nat} {x : α} (hx : xs[i]? = some x)
    (f : α → Nat) : f x ≤ (xs.map f).sum := by
  induction xs generalizing i with
  | nil => simp at hx
  | cons z zs ih =>
      cases i with
      | zero =>
          simp only [List.getElem?_cons_zero, Option.some.injEq] at hx
          subst hx
          simp only [List.map_cons, List.sum_cons]
          omega
      | succ i =>
          simp only [List.getElem?_cons_succ] at hx
          have hrec := ih hx
          simp only [List.map_cons, List.sum_cons]
          omega

end Lib
end ModelStreamer
