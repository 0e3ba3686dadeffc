import Mathlib.Data.List.Perm.Subperm
import ModelStreamer.Lib.Run

/-!
# A queue that issues in order and is answered in any order

Items are staged, issued from the front, and answered in any order.  An item that was issued is
owed an answer until it is collected.  This is what the owner of an asynchronous engine sees of
it, whatever the engine is.

Main results:

- Theorem {lit}`IssueQueue.run_conserves`: every staged item is staged, owed or was collected.
- Theorem {lit}`IssueQueue.run_bound`: there are never more items than the depth.
-/

namespace ModelStreamer
namespace Lib

universe u

/-- The items that are staged, and those that an answer is owed for. -/
structure IssueQueue (α : Type u) where
  staged : List α := []
  owed : List α := []
deriving DecidableEq, Repr

/-- What the owner of a queue does, with what it gets as an answer. -/
inductive QueueOp (α : Type u) where
  | stage (item : α)
  | flush (count : Nat)
  | collect (answered : List α)
deriving DecidableEq, Repr

namespace QueueOp

variable {α : Type u}

/-- The item that an operation stages. -/
def entering : QueueOp α → List α
  | .stage item => [item]
  | _ => []

/-- The items that an operation collects. -/
def leaving : QueueOp α → List α
  | .collect answered => answered
  | _ => []

end QueueOp

namespace IssueQueue

variable {α : Type u} [DecidableEq α] {depth : Nat} {q q' r : IssueQueue α} {op : QueueOp α}
  {ops : List (QueueOp α)}

/-- One operation: an item is staged when there is room, the first of the staged items are issued,
or items that are owed are collected. -/
def step (depth : Nat) (q : IssueQueue α) : QueueOp α → Option (IssueQueue α)
  | .stage item =>
      if q.staged.length + q.owed.length < depth then
        some { q with staged := q.staged ++ [item] }
      else none
  | .flush count =>
      if count ≤ q.staged.length then
        some { staged := q.staged.drop count, owed := q.owed ++ q.staged.take count }
      else none
  | .collect answered =>
      if answered.Subperm q.owed then some { q with owed := q.owed.diff answered } else none

/-- Collected items are no longer owed. -/
theorem perm_diff {answered owed : List α} (h : answered.Subperm owed) :
    (answered ++ owed.diff answered).Perm owed :=
  List.subperm_append_diff_self_of_count_le fun x _ => h.count_le x

/-- An item was staged. -/
theorem step_stage {item : α} (h : q.step depth (.stage item) = some q') :
    q.staged.length + q.owed.length < depth ∧ q' = { q with staged := q.staged ++ [item] } := by
  unfold step at h
  dsimp only at h
  split at h
  case isTrue hroom => exact ⟨hroom, (Option.some.inj h).symm⟩
  case isFalse => cases h

/-- Items were issued. -/
theorem step_flush {count : Nat} (h : q.step depth (.flush count) = some q') :
    count ≤ q.staged.length ∧
      q' = { staged := q.staged.drop count, owed := q.owed ++ q.staged.take count } := by
  unfold step at h
  dsimp only at h
  split at h
  case isTrue hle => exact ⟨hle, (Option.some.inj h).symm⟩
  case isFalse => cases h

/-- Items were collected. -/
theorem step_collect {answered : List α} (h : q.step depth (.collect answered) = some q') :
    answered.Subperm q.owed ∧ q' = { q with owed := q.owed.diff answered } := by
  unfold step at h
  dsimp only at h
  split at h
  case isTrue hsub => exact ⟨hsub, (Option.some.inj h).symm⟩
  case isFalse => cases h

/-- One operation moves items and loses none. -/
theorem step_conserves (h : q.step depth op = some q') :
    (q'.staged ++ q'.owed ++ op.leaving).Perm (q.staged ++ q.owed ++ op.entering) := by
  rw [List.perm_iff_count]
  intro x
  cases op with
  | stage item =>
      rcases step_stage h with ⟨-, rfl⟩
      simp only [QueueOp.leaving, QueueOp.entering, List.count_append, List.count_nil]
      omega
  | flush count =>
      rcases step_flush h with ⟨-, rfl⟩
      have hsplit := congrArg (List.count x) (List.take_append_drop count q.staged)
      rw [List.count_append] at hsplit
      simp only [QueueOp.leaving, QueueOp.entering, List.count_append, List.count_nil]
      omega
  | collect answered =>
      rcases step_collect h with ⟨hsub, rfl⟩
      have hdiff := (perm_diff hsub).count_eq x
      rw [List.count_append] at hdiff
      simp only [QueueOp.leaving, QueueOp.entering, List.count_append, List.count_nil]
      omega

/-- Every item that was staged is staged, owed or was collected. -/
theorem run_conserves (h : run (step depth) q ops = some q') :
    (q'.staged ++ q'.owed ++ ops.flatMap QueueOp.leaving).Perm
      (q.staged ++ q.owed ++ ops.flatMap QueueOp.entering) := by
  induction ops generalizing q with
  | nil =>
      cases h
      exact List.Perm.refl _
  | cons op ops ih =>
      rcases run_cons.1 h with ⟨q₁, hstep, hrest⟩
      have hnow := step_conserves hstep
      have hlater := ih hrest
      rw [List.perm_iff_count] at hnow hlater ⊢
      intro x
      have hx := hnow x
      have hy := hlater x
      simp only [List.flatMap_cons, List.count_append] at hx hy ⊢
      omega

/-- There are never more items than the depth. -/
theorem run_bound (h : run (step depth) q ops = some q')
    (hbound : q.staged.length + q.owed.length ≤ depth) :
    q'.staged.length + q'.owed.length ≤ depth := by
  refine run_invariant (P := fun q => q.staged.length + q.owed.length ≤ depth) ?_ hbound h
  intro q op q' hle hstep
  have hlength := (step_conserves hstep).length_eq
  simp only [List.length_append] at hlength
  cases op with
  | stage item =>
      rcases step_stage hstep with ⟨hroom, rfl⟩
      change (q.staged ++ [item]).length + q.owed.length ≤ depth
      rw [List.length_append, List.length_singleton]
      omega
  | flush count => exact Nat.le_trans (Nat.le_of_eq hlength) hle
  | collect answered =>
      have hnone : (QueueOp.collect answered).entering = [] := rfl
      rw [hnone, List.length_nil] at hlength
      omega

end IssueQueue

end Lib
end ModelStreamer
