import Mathlib.Algebra.BigOperators.Group.List.Basic
import Mathlib.Algebra.Order.BigOperators.Group.List
import Mathlib.Algebra.Order.Monoid.Defs
import Mathlib.Tactic.Common

/-!
# Balanced loads

Weights are put one at a time on the lightest of several loads.  The loads then never differ
by more than the largest weight, whatever the order of the weights and whichever of the
lightest loads is chosen.

Main results:

- Theorem {lit}`Balanced.modify`: a weight on the lightest load keeps the loads balanced.
- Theorem {lit}`Balanced.nsmul_le`: a balanced load is close to the mean.
-/

namespace ModelStreamer
namespace Lib

/-- What is in a list of which one element was changed. -/
theorem mem_of_mem_modify {α : Type*} {loads : List α} {i : Nat} {f : α → α} {a : α}
    (h : a ∈ loads.modify i f) : a ∈ loads ∨ ∃ load, loads[i]? = some load ∧ a = f load := by
  obtain ⟨j, hj⟩ := List.mem_iff_getElem?.1 h
  rw [List.getElem?_modify] at hj
  obtain ⟨load, hload, rfl⟩ := Option.map_eq_some_iff.1 hj
  by_cases hij : i = j
  · subst hij
    exact .inr ⟨load, hload, by simp⟩
  · rw [if_neg hij]
    exact .inl (List.mem_of_getElem? hload)

variable {α : Type*} [AddCommMonoid α] [PartialOrder α]

/-- No load is above another by more than the bound. -/
def Balanced (bound : α) (loads : List α) : Prop :=
  ∀ a ∈ loads, ∀ b ∈ loads, a ≤ b + bound

/-- Loads that are all zero. -/
theorem balanced_replicate (n : Nat) {bound : α} (hbound : 0 ≤ bound) :
    Balanced bound (List.replicate n 0) := by
  intro a ha b hb
  rw [List.eq_of_mem_replicate ha, List.eq_of_mem_replicate hb, zero_add]
  exact hbound

variable [IsOrderedAddMonoid α]

/-- A weight on the lightest load keeps the loads balanced. -/
theorem Balanced.modify {bound weight : α} {loads : List α} {i : Nat}
    (h : Balanced bound loads) (hweight : 0 ≤ weight) (hle : weight ≤ bound)
    (hleast : ∀ least, loads[i]? = some least → ∀ load ∈ loads, least ≤ load) :
    Balanced bound (loads.modify i (· + weight)) := by
  intro a ha b hb
  cases mem_of_mem_modify ha with
  | inl hold =>
      cases mem_of_mem_modify hb with
      | inl hold' => exact h a hold b hold'
      | inr hnew =>
          obtain ⟨least, hget, rfl⟩ := hnew
          have hbelow : a ≤ least + bound := h a hold least (List.mem_of_getElem? hget)
          rw [add_right_comm]
          exact le_add_of_le_of_nonneg hbelow hweight
  | inr hnew =>
      obtain ⟨least, hget, rfl⟩ := hnew
      have hsame : least + weight ≤ least + bound := add_le_add_right hle least
      apply hsame.trans
      apply add_le_add_left
      cases mem_of_mem_modify hb with
      | inl hold' => exact hleast least hget b hold'
      | inr hnew' =>
          obtain ⟨least', hget', rfl⟩ := hnew'
          cases hget.symm.trans hget'
          exact le_add_of_nonneg_right hweight

/-- A load is above the mean by no more than the bound. -/
theorem Balanced.nsmul_le {bound : α} {loads : List α} (h : Balanced bound loads) {a : α}
    (ha : a ∈ loads) : loads.length • a ≤ loads.sum + loads.length • bound := by
  have hall : ∀ others : List α, (∀ b ∈ others, a ≤ b + bound) →
      others.length • a ≤ others.sum + others.length • bound := by
    intro others hothers
    induction others with
    | nil => simp
    | cons b others ih =>
        have hhead := hothers b List.mem_cons_self
        have htail := ih fun other hother => hothers other (List.mem_cons_of_mem _ hother)
        rw [List.length_cons, List.sum_cons, succ_nsmul', succ_nsmul', add_add_add_comm]
        exact add_le_add hhead htail
  exact hall loads fun b hb => h a ha b hb

end Lib
end ModelStreamer
