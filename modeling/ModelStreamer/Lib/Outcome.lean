import Mathlib.Tactic.Common

/-!
# Outcomes of calls that may fail

A call ends with a result or fails with an error.  One predicate says what holds of the result
and what may be said of the error, and the rules below follow the structure of the call.

Main results:

- Theorem {lit}`Ends.bind`: one call after the other.
- Theorem {lit}`Ends.imp`: a weaker predicate of the result.
-/

namespace ModelStreamer
namespace Lib

universe u v

variable {α β : Type u} {ε : Type v}

/-- What holds of the result of a call, and of the error if it fails. -/
def Ends (P : α → Prop) (E : ε → Prop) : Except ε α → Prop
  | .ok a => P a
  | .error e => E e

variable {P Q : α → Prop} {R : β → Prop} {E F : ε → Prop} {call : Except ε α}
  {f : α → Except ε β}

/-- A weaker predicate of the result. -/
theorem Ends.imp (h : Ends P E call) (hPQ : ∀ a, P a → Q a) : Ends Q E call := by
  cases call with
  | ok a => exact hPQ a h
  | error e => exact h

/-- Weaker predicates of the result and of the error. -/
theorem Ends.mono (h : Ends P E call) (hPQ : ∀ a, P a → Q a) (hEF : ∀ e, E e → F e) :
    Ends Q F call := by
  cases call with
  | ok a => exact hPQ a h
  | error e => exact hEF e h

/-- One call after the other. -/
theorem Ends.bind (h : Ends P E call) (hf : ∀ a, P a → Ends R E (f a)) :
    Ends R E (call >>= f) := by
  cases call with
  | ok a => exact hf a h
  | error e => exact h

/-- A call that has failed. -/
theorem Ends.of_error {e : ε} (h : Ends P E call) (herror : call = .error e) : E e := by
  rw [herror] at h
  exact h

end Lib
end ModelStreamer
