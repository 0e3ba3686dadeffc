import Mathlib.Data.List.Basic
import Mathlib.Tactic.Common

/-!
# Scripts of a shared log

Several parties read one log of messages in its order.  What a party does next depends only on
the messages that it has read, so the whole log follows a script: a state that every message
moves on, and a condition on the message that may come next.

Main results:

- Theorem {lit}`Scripted.invariant`: what the allowed messages keep holds at every position.
- Theorem {lit}`Scripted.concat`: one more allowed message.
-/

namespace ModelStreamer
namespace Lib

variable {σ μ : Type*}

/-- The state of the script after the first {lit}`k` messages. -/
def scriptAt (add : σ → μ → σ) (start : σ) (log : List μ) (k : Nat) : σ :=
  (log.take k).foldl add start

/-- Every message of the log was allowed at its position. -/
def Scripted (add : σ → μ → σ) (allowed : σ → μ → Prop) (start : σ) (log : List μ) : Prop :=
  ∀ k msg, log[k]? = some msg → allowed (scriptAt add start log k) msg

variable {add : σ → μ → σ} {allowed : σ → μ → Prop} {start : σ} {log : List μ} {k : Nat}

@[simp]
theorem scriptAt_zero : scriptAt add start log 0 = start := by
  simp [scriptAt]

/-- The next message moves the script on. -/
theorem scriptAt_succ {msg : μ} (hmsg : log[k]? = some msg) :
    scriptAt add start log (k + 1) = add (scriptAt add start log k) msg := by
  unfold scriptAt
  rw [List.take_add_one, hmsg, Option.toList_some, List.foldl_append]
  rfl

/-- A message that is added later does not change the script before it. -/
theorem scriptAt_concat (msg : μ) (hk : k ≤ log.length) :
    scriptAt add start (log ++ [msg]) k = scriptAt add start log k := by
  unfold scriptAt
  rw [List.take_append_of_le_length hk]

/-- The script after a message that is added now. -/
theorem scriptAt_concat_last (msg : μ) :
    scriptAt add start (log ++ [msg]) (log.length + 1) =
      add (scriptAt add start log log.length) msg := by
  rw [scriptAt_succ List.getElem?_concat_length, scriptAt_concat msg (Nat.le_refl _)]

/-- One more allowed message. -/
theorem Scripted.concat (h : Scripted add allowed start log) {msg : μ}
    (hmsg : allowed (scriptAt add start log log.length) msg) :
    Scripted add allowed start (log ++ [msg]) := by
  intro k other hother
  rcases Nat.lt_or_ge k log.length with hlt | hge
  · rw [List.getElem?_append_left hlt] at hother
    rw [scriptAt_concat msg (Nat.le_of_lt hlt)]
    exact h k other hother
  · rw [List.getElem?_append_right hge] at hother
    rcases List.getElem?_eq_some_iff.1 hother with ⟨hk, hlast⟩
    rw [List.length_singleton] at hk
    have heq : k = log.length := by omega
    subst heq
    simp only [Nat.sub_self, List.getElem_cons_zero] at hlast
    rw [scriptAt_concat msg (Nat.le_refl _), ← hlast]
    exact hmsg

/-- What the allowed messages keep holds at every position. -/
theorem Scripted.invariant {P : σ → Prop} (h : Scripted add allowed start log) (hstart : P start)
    (hadd : ∀ s msg, P s → allowed s msg → P (add s msg)) (hk : k ≤ log.length) :
    P (scriptAt add start log k) := by
  induction k with
  | zero => simpa using hstart
  | succ k ih =>
      have hmsg : log[k]? = some log[k] := List.getElem?_eq_getElem hk
      rw [scriptAt_succ hmsg]
      exact hadd _ _ (ih (Nat.le_of_succ_le hk)) (h k _ hmsg)

/-- What every message only lets grow has grown at every later position. -/
theorem scriptAt_mono {R : σ → σ → Prop} (hrefl : ∀ s, R s s)
    (htrans : ∀ s s' s'', R s s' → R s' s'' → R s s'') (hadd : ∀ s msg, R s (add s msg))
    {j : Nat} (hjk : j ≤ k) : R (scriptAt add start log j) (scriptAt add start log k) := by
  induction k with
  | zero =>
      cases Nat.le_zero.1 hjk
      exact hrefl _
  | succ k ih =>
      rcases Nat.lt_or_eq_of_le hjk with hlt | rfl
      · refine htrans _ _ _ (ih (Nat.lt_succ_iff.1 hlt)) ?_
        cases hmsg : log[k]? with
        | some msg =>
            rw [scriptAt_succ hmsg]
            exact hadd _ msg
        | none =>
            have hle := List.getElem?_eq_none_iff.1 hmsg
            unfold scriptAt
            rw [List.take_of_length_le hle, List.take_of_length_le (Nat.le_succ_of_le hle)]
            exact hrefl _
      · exact hrefl _

end Lib
end ModelStreamer
