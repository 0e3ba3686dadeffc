import Mathlib.Data.List.Perm.Basic
import Mathlib.Data.Int.Order.Basic
import Mathlib.Tactic.Common

/-!
# Retries of object reads

A chunk has a deadline from its first attempt on.  An attempt that failed is made again after a
delay, if the delay ends before the deadline.

Main results:

- Theorem {lit}`schedule_perm`: a retry that is scheduled is added to the delayed ones.
- Theorem {lit}`popDue_eq_some`: a retry that is due leaves the delayed ones.
-/

namespace ModelStreamer
namespace ObjectStorage

/-- {lit}`ObjectStorageRetry::State`. -/
structure RetryState where
  deadline : Option Int := none
  retryCount : Nat := 0
deriving DecidableEq, Repr

/-- {lit}`ObjectStorageRetry`: the handles of the delayed retries, by the time they are due. -/
structure Retry where
  timeout : Int
  delayed : List (Int × Nat) := []
deriving DecidableEq, Repr

/-- {lit}`std::multimap::emplace`: behind the entries with the same key. -/
def emplaceDelayed (retryAt : Int) (handle : Nat) : List (Int × Nat) → List (Int × Nat)
  | [] => [(retryAt, handle)]
  | entry :: entries =>
      if entry.1 ≤ retryAt then entry :: emplaceDelayed retryAt handle entries
      else (retryAt, handle) :: entry :: entries

/-- The longest delay before a retry in milliseconds, by {lit}`retry_delay`. -/
def retryDelayUpper (retryCount : Nat) : Nat :=
  min 1000 (100 <<< min (if 0 < retryCount then retryCount - 1 else 0) 4)

namespace Retry

/-- {lit}`enabled`. -/
def enabled (r : Retry) : Bool :=
  0 < r.timeout

/-- {lit}`begin_attempt`: whether the attempt may start, and the deadline from then on. -/
def beginAttempt (r : Retry) (state : RetryState) (now : Int) : Bool × RetryState :=
  let state :=
    if state.deadline.isNone ∧ 0 < r.timeout then { state with deadline := some (now + r.timeout) }
    else state
  (state.retryCount = 0 || state.deadline.any fun deadline => now < deadline, state)

/-- {lit}`schedule`, with the delay that {lit}`retry_delay` draws. -/
def schedule (r : Retry) (state : RetryState) (handle : Nat) (now delay : Int) :
    Option (Retry × RetryState) :=
  match state.deadline with
  | none => none
  | some deadline =>
      if deadline ≤ now then none
      else if deadline ≤ now + delay then none
      else
        some ({ r with delayed := emplaceDelayed (now + delay) handle r.delayed },
          { state with retryCount := state.retryCount + 1 })

/-- {lit}`pop_due`. -/
def popDue (r : Retry) (now : Int) : Option (Nat × Retry) :=
  match r.delayed with
  | [] => none
  | (due, handle) :: delayed => if now < due then none else some (handle, { r with delayed })

/-- {lit}`clear`. -/
def clear (r : Retry) : Retry :=
  { r with delayed := [] }

/-- The handles of the delayed retries. -/
def handles (r : Retry) : List Nat :=
  r.delayed.map Prod.snd

end Retry

/-- An entry more. -/
theorem emplaceDelayed_perm (retryAt : Int) (handle : Nat) (entries : List (Int × Nat)) :
    (emplaceDelayed retryAt handle entries).Perm ((retryAt, handle) :: entries) := by
  induction entries with
  | nil => exact List.Perm.refl _
  | cons entry entries ih =>
      unfold emplaceDelayed
      split
      · exact (ih.cons entry).trans (List.Perm.swap _ _ _)
      · exact List.Perm.refl _

variable {r r' : Retry} {state state' : RetryState} {handle : Nat} {now delay : Int}

/-- A retry that is scheduled is added to the delayed ones. -/
theorem schedule_perm (h : r.schedule state handle now delay = some (r', state')) :
    r'.handles.Perm (handle :: r.handles) ∧ r'.timeout = r.timeout := by
  unfold Retry.schedule at h
  split at h
  · cases h
  · split at h
    · cases h
    · split at h
      · cases h
      · cases h
        exact ⟨(emplaceDelayed_perm _ handle r.delayed).map Prod.snd, rfl⟩

/-- A retry that is due leaves the delayed ones. -/
theorem popDue_eq_some (h : r.popDue now = some (handle, r')) :
    r.handles = handle :: r'.handles ∧ r'.timeout = r.timeout := by
  unfold Retry.popDue at h
  split at h
  · cases h
  · rename_i due head delayed hdelayed
    split at h
    · cases h
    · cases h
      unfold Retry.handles
      rw [hdelayed]
      exact ⟨rfl, rfl⟩

end ObjectStorage
end ModelStreamer
