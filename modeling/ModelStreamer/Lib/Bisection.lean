import Mathlib.Algebra.Order.Ring.Nat
import Mathlib.Data.List.Basic
import Mathlib.Order.Basic
import Mathlib.Tactic.Common

/-!
# Bisection

Two searches that halve an interval: the position after the last element of an ordered list
that is not above a value, and the least number of an interval at which a monotone test
succeeds.

Main results:

- Theorem {lit}`bisectRight_eq`: the position is the one that splits the list.
- Theorem {lit}`searchLeast_spec`: the number found passes the test and none below it does.
-/

namespace ModelStreamer
namespace Lib

/-! ## Ordered lists -/

section Bisect

variable {α : Type*} [LinearOrder α]

/-- The search of {lit}`bisect_right` in the positions from {lit}`lo` to {lit}`hi`. -/
def bisectRightIn (a : List α) (x : α) (lo hi : Nat) : Nat :=
  if lo < hi then
    let middle := (lo + hi) / 2
    match a[middle]? with
    | some y => if x < y then bisectRightIn a x lo middle else bisectRightIn a x (middle + 1) hi
    | none => bisectRightIn a x lo middle
  else
    lo
termination_by hi - lo

/-- {lit}`bisect_right`: after every element that is not above {lit}`x`. -/
def bisectRight (a : List α) (x : α) : Nat :=
  bisectRightIn a x 0 a.length

/-- The position splits the list into what is not above {lit}`x` and what is above it. -/
def SplitsAt (a : List α) (x : α) (i : Nat) : Prop :=
  ∀ j y, a[j]? = some y → (j < i ↔ y ≤ x)

/-- The search finds the position that splits the list, when it is in the interval. -/
theorem bisectRightIn_eq {a : List α} {x : α} {i : Nat} (h : SplitsAt a x i) (lo hi : Nat)
    (hlo : lo ≤ i) (hhi : i ≤ hi) (hlen : i ≤ a.length) : bisectRightIn a x lo hi = i := by
  induction lo, hi using bisectRightIn.induct a x with
  | case1 lo hi hlt middle y hy hxy ih =>
      have hmiddle : ¬ middle < i := fun hmi => absurd ((h middle y hy).1 hmi) (not_le.2 hxy)
      have hy : a[(lo + hi) / 2]? = some y := hy
      rw [bisectRightIn, if_pos hlt]
      simp only [hy, hxy, if_true]
      exact ih hlo (by omega)
  | case2 lo hi hlt middle y hy hxy ih =>
      have hmiddle : middle < i := (h middle y hy).2 (not_lt.1 hxy)
      have hy : a[(lo + hi) / 2]? = some y := hy
      rw [bisectRightIn, if_pos hlt]
      simp only [hy, hxy, if_false]
      exact ih (by omega) hhi
  | case3 lo hi hlt middle hnone ih =>
      have hmiddle : a.length ≤ middle := List.getElem?_eq_none_iff.1 hnone
      have hnone : a[(lo + hi) / 2]? = none := hnone
      rw [bisectRightIn, if_pos hlt]
      simp only [hnone]
      exact ih hlo (by omega)
  | case4 lo hi hge =>
      rw [bisectRightIn, if_neg hge]
      omega

/-- The position that splits the list. -/
theorem bisectRight_eq {a : List α} {x : α} {i : Nat} (h : SplitsAt a x i)
    (hlen : i ≤ a.length) : bisectRight a x = i :=
  bisectRightIn_eq h 0 a.length (Nat.zero_le i) hlen hlen

end Bisect

/-! ## Monotone tests -/

/-- Halve the interval: a number that passes is kept as the upper end. -/
def searchLeast (test : Nat → Bool) (low high : Nat) : Nat :=
  if low < high then
    let middle := (low + high) / 2
    if test middle then searchLeast test low middle else searchLeast test (middle + 1) high
  else
    low
termination_by high - low

/-- The least number of the interval that passes, for a test that stays passed there. -/
theorem searchLeast_spec {test : Nat → Bool} (low high : Nat)
    (hmono : ∀ m n, low ≤ m → m ≤ n → n ≤ high → test m = true → test n = true)
    (hle : low ≤ high) (hhigh : test high = true) :
    (low ≤ searchLeast test low high ∧ searchLeast test low high ≤ high) ∧
      test (searchLeast test low high) = true ∧
      ∀ m, low ≤ m → m < searchLeast test low high → test m = false := by
  induction low, high using searchLeast.induct test with
  | case1 low high hlt middle hpass ih =>
      have hmiddle : middle ≤ high := by omega
      obtain ⟨⟨hlow, hup⟩, hrest⟩ := ih
        (fun m n hm hmn hn => hmono m n hm hmn (Nat.le_trans hn hmiddle)) (by omega) hpass
      have heq : searchLeast test low high = searchLeast test low middle := by
        rw [searchLeast, if_pos hlt]
        exact if_pos hpass
      rw [heq]
      exact ⟨⟨hlow, Nat.le_trans hup hmiddle⟩, hrest⟩
  | case2 low high hlt middle hfail ih =>
      obtain ⟨⟨hlow, hup⟩, hpass, hbelow⟩ := ih
        (fun m n hm hmn hn => hmono m n (by omega) hmn hn) (by omega) hhigh
      have heq : searchLeast test low high = searchLeast test (middle + 1) high := by
        rw [searchLeast, if_pos hlt]
        exact if_neg hfail
      rw [heq]
      refine ⟨⟨by omega, hup⟩, hpass, fun m hm hlt' => ?_⟩
      rcases Nat.lt_or_ge middle m with habove | hdown
      · exact hbelow m habove hlt'
      · -- a number at or below the middle cannot pass, since the middle does not
        by_contra htrue
        exact hfail (hmono m middle hm hdown (by omega) (by simpa using htrue))
  | case3 low high hge =>
      have heq : low = high := by omega
      rw [searchLeast, if_neg hge]
      refine ⟨⟨Nat.le_refl low, hle⟩, by rw [heq]; exact hhigh, fun m hm hlt => ?_⟩
      omega

end Lib
end ModelStreamer
