import Mathlib.Data.List.Basic
import Mathlib.Tactic.Common

/-!
# The window of a worker

A queue of items that wait to be submitted, and a bound on the work that may be in flight.  An
item that is taken reserves its cost, and the owner gives it back when the item finishes.

Main results:

- Theorem {lit}`tryTake_eq_some`: what is taken, and what it reserves.
-/

namespace ModelStreamer
namespace ObjectStorage

/--
{lit}`CapacityQueue`: the pending items with their costs, and the credit in use.  All costs are one,
so the credit is never more than the capacity, and its sums are words.
-/
structure CapacityQueue (α : Type*) where
  capacity : Nat
  inflight : Nat
  pending : List (α × Nat)
deriving DecidableEq, Repr

namespace CapacityQueue

variable {α : Type*}

/-- The constructor. -/
def make (capacity : Nat) : CapacityQueue α :=
  { capacity, inflight := 0, pending := [] }

/-- {lit}`enqueue`. -/
def enqueue (q : CapacityQueue α) (item : α) (cost : Nat) : CapacityQueue α :=
  { q with pending := q.pending ++ [(item, cost)] }

/-- {lit}`enqueue_front`. -/
def enqueueFront (q : CapacityQueue α) (item : α) (cost : Nat) : CapacityQueue α :=
  { q with pending := (item, cost) :: q.pending }

/-- {lit}`try_take`: an item that fits, or any item when nothing is in flight. -/
def tryTake (q : CapacityQueue α) : Option (α × CapacityQueue α) :=
  match q.pending with
  | [] => none
  | (item, cost) :: pending =>
      if q.inflight ≠ 0 ∧ q.capacity < q.inflight + cost then none
      else some (item, { q with inflight := q.inflight + cost, pending })

/-- {lit}`complete`, which stops at zero. -/
def complete (q : CapacityQueue α) (cost : Nat) : CapacityQueue α :=
  { q with inflight := if cost ≤ q.inflight then q.inflight - cost else 0 }

/-- {lit}`clear`. -/
def clear (q : CapacityQueue α) : CapacityQueue α :=
  { q with pending := [], inflight := 0 }

/-- {lit}`abort_pending`. -/
def abortPending (q : CapacityQueue α) : CapacityQueue α :=
  { q with pending := [] }

/-- {lit}`idle`. -/
def idle (q : CapacityQueue α) : Bool :=
  q.pending.isEmpty && q.inflight == 0

variable {q q' : CapacityQueue α} {item : α} {cost : Nat}

@[simp]
theorem complete_inflight : (q.complete cost).inflight = q.inflight - cost := by
  unfold complete
  dsimp only
  split
  · rfl
  · omega

@[simp]
theorem complete_pending : (q.complete cost).pending = q.pending :=
  rfl

@[simp]
theorem enqueue_pending : (q.enqueue item cost).pending = q.pending ++ [(item, cost)] :=
  rfl

@[simp]
theorem enqueue_inflight : (q.enqueue item cost).inflight = q.inflight :=
  rfl

/-- What is taken, and what it reserves. -/
theorem tryTake_eq_some (h : q.tryTake = some (item, q')) :
    ∃ cost, q.pending = (item, cost) :: q'.pending ∧ q'.inflight = q.inflight + cost ∧
      q'.capacity = q.capacity := by
  unfold tryTake at h
  split at h
  · cases h
  · rename_i head cost pending hpending
    split at h
    · cases h
    · cases h
      exact ⟨cost, hpending, rfl, rfl⟩

end CapacityQueue

end ObjectStorage
end ModelStreamer
