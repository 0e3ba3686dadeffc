import Mathlib.Data.List.Basic
import Mathlib.Tactic.Common

/-!
# Condition variables

A thread that waits is in the queue of a condition variable until a notification wakes it, or
until it wakes for no reason, and goes on once it has the lock again.  A thread that changes
what others wait for notifies after it gave up the lock, so a notification can be due for a
while before it is delivered.

Main results:

- Theorem {lit}`Covers.signal`: one more thing to wake up for and one more notification.
- Theorem {lit}`Covers.resume`: a thread that was woken takes one thing and goes on.
- Theorem {lit}`LosesNone.covers`: delivering a notification loses no wake-up.
-/

namespace ModelStreamer
namespace Lib

/-- A condition variable and the notifications that are due on it. -/
structure CondVar (ι : Type*) where
  /-- The threads that sleep. -/
  waiting : List ι := []
  /-- The threads that were woken and have not got the lock yet. -/
  woken : List ι := []
  /-- The {lit}`notify_one` calls that are due. -/
  ones : Nat := 0
  /-- The {lit}`notify_all` calls that are due. -/
  alls : Nat := 0
deriving DecidableEq, Repr

namespace CondVar

variable {ι : Type*}

section Operations

variable [DecidableEq ι]

/-- A thread gives up the lock and sleeps. -/
def wait (cv : CondVar ι) (t : ι) : CondVar ι :=
  { cv with waiting := t :: cv.waiting }

/-- A woken thread gets the lock. -/
def resume (cv : CondVar ι) (t : ι) : CondVar ι :=
  { cv with woken := cv.woken.erase t }

/-- A {lit}`notify_one` becomes due. -/
def signal (cv : CondVar ι) : CondVar ι :=
  { cv with ones := cv.ones + 1 }

/-- A {lit}`notify_all` becomes due. -/
def broadcast (cv : CondVar ι) : CondVar ι :=
  { cv with alls := cv.alls + 1 }

/-- A thread wakes. -/
def wake (cv : CondVar ι) (t : ι) : CondVar ι :=
  { cv with waiting := cv.waiting.erase t, woken := t :: cv.woken }

/-- A {lit}`notify_one` wakes one of the threads that sleep, or nobody when none does. -/
def deliverOne (cv : CondVar ι) (t : Option ι) : Option (CondVar ι) :=
  if cv.ones = 0 then none
  else
    match t with
    | none => if cv.waiting = [] then some { cv with ones := cv.ones - 1 } else none
    | some t => if t ∈ cv.waiting then some { cv.wake t with ones := cv.ones - 1 } else none

/-- A {lit}`notify_all` wakes every thread that sleeps. -/
def deliverAll (cv : CondVar ι) : Option (CondVar ι) :=
  if cv.alls = 0 then none
  else some { cv with waiting := [], woken := cv.waiting ++ cv.woken, alls := cv.alls - 1 }

/-- A thread that sleeps wakes although nobody notified it. -/
def spurious (cv : CondVar ι) (t : ι) : Option (CondVar ι) :=
  if t ∈ cv.waiting then some (cv.wake t) else none

end Operations

/-- The wake-ups that are under way. -/
def wakeups (cv : CondVar ι) : Nat :=
  cv.woken.length + cv.ones

/-- While a thread sleeps, either a {lit}`notify_all` is due or the condition holds. -/
def Until (cv : CondVar ι) (P : Prop) : Prop :=
  cv.waiting ≠ [] → 0 < cv.alls ∨ P

/--
While a thread sleeps, either a {lit}`notify_all` is due or a wake-up is under way for each of
{lit}`n` things.
-/
def Covers (cv : CondVar ι) (n : Nat) : Prop :=
  cv.Until (n ≤ cv.wakeups)

/-- Whoever sleeps has slept before, and no wake-up got lost on the way. -/
def LosesNone (cv cv' : CondVar ι) : Prop :=
  cv'.waiting ≠ [] → cv.waiting ≠ [] ∧ cv.alls ≤ cv'.alls ∧ cv.wakeups ≤ cv'.wakeups

section Rules

variable {cv cv' : CondVar ι} {t : ι} {n m : Nat} {P Q : Prop}

/-! ## What the operations keep -/

theorem Until.imp (h : cv.Until P) (himp : P → Q) : cv.Until Q := by
  intro hwaiting
  exact (h hwaiting).imp_right himp

theorem LosesNone.until (hkeep : cv.LosesNone cv') (h : cv.Until P) : cv'.Until P := by
  intro hwaiting
  rcases hkeep hwaiting with ⟨hslept, halls, -⟩
  rcases h hslept with hall | hP
  · exact Or.inl (Nat.lt_of_lt_of_le hall halls)
  · exact Or.inr hP

theorem LosesNone.covers (hkeep : cv.LosesNone cv') (h : cv.Covers n) : cv'.Covers n := by
  intro hwaiting
  rcases hkeep hwaiting with ⟨hslept, halls, hwakeups⟩
  rcases h hslept with hall | hone
  · exact Or.inl (Nat.lt_of_lt_of_le hall halls)
  · exact Or.inr (Nat.le_trans hone hwakeups)

theorem Covers.mono (h : cv.Covers n) (hle : m ≤ n) : cv.Covers m :=
  h.imp (Nat.le_trans hle)

theorem until_broadcast : cv.broadcast.Until P :=
  fun _ => Or.inl (Nat.succ_pos _)

/-- One more thing to wake up for, and a notification for it. -/
theorem Covers.signal (h : cv.Covers n) : cv.signal.Covers (n + 1) := by
  intro hwaiting
  rcases h hwaiting with hall | hone
  · exact Or.inl hall
  · exact Or.inr (Nat.add_le_add_right hone 1)

/-- There is nothing to wake up for. -/
theorem covers_zero : cv.Covers 0 :=
  fun _ => Or.inr (Nat.zero_le _)

/-- After a {lit}`notify_all` nobody sleeps. -/
theorem losesNone_of_deliverAll (h : cv.deliverAll = some cv') : cv.LosesNone cv' := by
  simp only [deliverAll, Option.ite_none_left_eq_some, Option.some.injEq] at h
  rcases h with ⟨-, rfl⟩
  exact fun hwaiting => absurd rfl hwaiting

variable [DecidableEq ι]

/-- A woken thread takes one of the things it was woken for. -/
theorem Covers.resume (h : cv.Covers (n + 1)) : (cv.resume t).Covers n := by
  intro hwaiting
  rcases h hwaiting with hall | hone
  · exact Or.inl hall
  · right
    have hless : cv.woken.length - 1 ≤ (cv.woken.erase t).length := by
      rw [List.length_erase]
      split <;> omega
    change n + 1 ≤ cv.woken.length + cv.ones at hone
    change n ≤ (cv.woken.erase t).length + cv.ones
    omega

theorem waiting_ne_of_wake (h : (cv.wake t).waiting ≠ []) : cv.waiting ≠ [] := by
  intro hnone
  apply h
  change cv.waiting.erase t = []
  rw [hnone]
  rfl

/-- A delivered {lit}`notify_one` is a thread on its way, or nobody sleeps. -/
theorem losesNone_of_deliverOne {t : Option ι} (h : cv.deliverOne t = some cv') :
    cv.LosesNone cv' := by
  unfold deliverOne at h
  split at h
  · cases h
  · rename_i hdue
    cases t with
    | none =>
        simp only [Option.ite_none_right_eq_some, Option.some.injEq] at h
        rcases h with ⟨hnone, rfl⟩
        exact fun hwaiting => absurd hnone hwaiting
    | some t =>
        simp only [Option.ite_none_right_eq_some, Option.some.injEq] at h
        rcases h with ⟨-, rfl⟩
        intro hwaiting
        refine ⟨waiting_ne_of_wake (t := t) hwaiting, Nat.le_refl _, ?_⟩
        change cv.woken.length + cv.ones ≤ cv.woken.length + 1 + (cv.ones - 1)
        omega

theorem losesNone_of_spurious (h : cv.spurious t = some cv') : cv.LosesNone cv' := by
  simp only [spurious, Option.ite_none_right_eq_some, Option.some.injEq] at h
  rcases h with ⟨-, rfl⟩
  intro hwaiting
  refine ⟨waiting_ne_of_wake (t := t) hwaiting, Nat.le_refl _, ?_⟩
  change cv.woken.length + cv.ones ≤ cv.woken.length + 1 + cv.ones
  omega

end Rules

end CondVar
end Lib
end ModelStreamer
