import Mathlib.Data.Finset.Card
import Mathlib.Data.Finset.Image
import Mathlib.Data.Nat.ModEq
import Mathlib.Tactic.Common

/-!
# Identifiers on a ring

A counter hands out the identifiers from one to {lit}`n` round and round.  Fewer than
{lit}`n` taken identifiers always leave a free one ahead of the counter.

Main results:

- Theorem {lit}`exists_firstFree`: from any counter there is a first identifier that is free.
-/

namespace ModelStreamer
namespace Lib

/-- The identifier {lit}`k` places ahead of the counter. -/
def ringAt (n counter k : Nat) : Nat :=
  (counter - 1 + k) % n + 1

variable {n counter k : Nat}

theorem ringAt_pos : 0 < ringAt n counter k :=
  Nat.succ_pos _

/-- A counter on the ring hands out itself first. -/
theorem ringAt_zero (hpos : 0 < counter) (hle : counter ≤ n) : ringAt n counter 0 = counter := by
  unfold ringAt
  rw [Nat.add_zero, Nat.mod_eq_of_lt (by omega)]
  omega

/-- The identifiers of one round are different. -/
theorem ringAt_injOn {i j : Nat} (hi : i < n) (hj : j < n)
    (h : ringAt n counter i = ringAt n counter j) : i = j := by
  have hmod : counter - 1 + i ≡ counter - 1 + j [MOD n] := Nat.succ.inj h
  have heq := Nat.ModEq.add_left_cancel' _ hmod
  rwa [Nat.ModEq, Nat.mod_eq_of_lt hi, Nat.mod_eq_of_lt hj] at heq

/-- One of the identifiers of a round is free. -/
theorem exists_ringAt_notMem {taken : List Nat} (h : taken.length < n) (counter : Nat) :
    ∃ k < n, ringAt n counter k ∉ taken := by
  by_contra hall
  push Not at hall
  have hsub : (Finset.range n).image (ringAt n counter) ⊆ taken.toFinset := by
    intro id hid
    obtain ⟨k, hk, rfl⟩ := Finset.mem_image.1 hid
    exact List.mem_toFinset.2 (hall k (Finset.mem_range.1 hk))
  have hcard : ((Finset.range n).image (ringAt n counter)).card = n := by
    rw [Finset.card_image_of_injOn, Finset.card_range]
    intro i hi j hj heq
    exact ringAt_injOn (Finset.mem_range.1 hi) (Finset.mem_range.1 hj) heq
  have hle := (Finset.card_le_card hsub).trans (List.toFinset_card_le taken)
  omega

/-- The identifier {lit}`k` places ahead is the first that is free. -/
def FirstFree (n counter : Nat) (taken : Nat → Prop) (k : Nat) : Prop :=
  ¬ taken (ringAt n counter k) ∧ ∀ i < k, taken (ringAt n counter i)

/-- From any counter there is a first free identifier. -/
theorem exists_firstFree {taken : List Nat} (h : taken.length < n) (counter : Nat) :
    ∃ k < n, FirstFree n counter (· ∈ taken) k := by
  obtain ⟨k, hk, hfree⟩ := exists_ringAt_notMem h counter
  induction k using Nat.strong_induction_on with
  | _ k ih =>
      by_cases hearlier : ∃ i < k, ringAt n counter i ∉ taken
      · obtain ⟨i, hi, hfree'⟩ := hearlier
        exact ih i hi (by omega) hfree'
      · push Not at hearlier
        exact ⟨k, hk, hfree, hearlier⟩

end Lib
end ModelStreamer
