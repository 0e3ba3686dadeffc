import Mathlib.Data.Nat.Basic
import Mathlib.Tactic.Common

/-!
# Rounding to blocks

A number rounded up to the next multiple of a block, written the way C code rounds.  The
block is positive everywhere.

Main results:

- Theorem {lit}`ceilTo_le_of_dvd`: rounding up gives the least multiple above a number.
- Theorem {lit}`ceilTo_add_of_dvd`: a multiple of the block moves out of the rounding.
- Theorem {lit}`ceilTo_sub_floor`: the blocks that an interval touches.
-/

namespace ModelStreamer
namespace Lib

/-- {lit}`((n + b - 1) / b) * b`: the number rounded up to a multiple of the block. -/
def ceilTo (b n : Nat) : Nat :=
  (n + b - 1) / b * b

section Block

variable {b : Nat}

/-- The rounded number is a multiple of the block. -/
theorem dvd_ceilTo (b n : Nat) : b ∣ ceilTo b n :=
  Nat.dvd_mul_left _ _

/-- Rounding up does not go down. -/
theorem le_ceilTo (hb : 0 < b) (n : Nat) : n ≤ ceilTo b n := by
  unfold ceilTo
  have hdiv := Nat.div_add_mod (n + b - 1) b
  have hmod := Nat.mod_lt (n + b - 1) hb
  rw [Nat.mul_comm]
  omega

/-- Rounding up adds less than a block. -/
theorem ceilTo_lt (hb : 0 < b) (n : Nat) : ceilTo b n < n + b := by
  unfold ceilTo
  have hle := Nat.div_mul_le_self (n + b - 1) b
  omega

/-- Rounding up gives the least multiple above a number. -/
theorem ceilTo_le_of_dvd (hb : 0 < b) {n q : Nat} (hle : n ≤ q) (hdvd : b ∣ q) :
    ceilTo b n ≤ q := by
  obtain ⟨k, rfl⟩ := hdvd
  have hlt := ceilTo_lt hb n
  obtain ⟨j, hj⟩ := dvd_ceilTo b n
  rw [hj] at hlt ⊢
  have hjk : b * j < b * (k + 1) := by
    rw [Nat.mul_add, Nat.mul_one]
    omega
  exact Nat.mul_le_mul_left b (Nat.lt_succ_iff.1 (Nat.lt_of_mul_lt_mul_left hjk))

/-- Rounding up is monotone. -/
theorem ceilTo_mono (hb : 0 < b) {m n : Nat} (hle : m ≤ n) : ceilTo b m ≤ ceilTo b n :=
  ceilTo_le_of_dvd hb (Nat.le_trans hle (le_ceilTo hb n)) (dvd_ceilTo b n)

/-- A larger block that the block divides rounds at least as far. -/
theorem ceilTo_le_ceilTo {a : Nat} (ha : 0 < a) (hb : 0 < b) (hdvd : a ∣ b) (n : Nat) :
    ceilTo a n ≤ ceilTo b n :=
  ceilTo_le_of_dvd ha (le_ceilTo hb n) (Nat.dvd_trans hdvd (dvd_ceilTo b n))

/-- A multiple of the block moves out of the rounding. -/
theorem ceilTo_add_of_dvd (hb : 0 < b) {k : Nat} (hdvd : b ∣ k) (n : Nat) :
    ceilTo b (k + n) = k + ceilTo b n := by
  refine Nat.le_antisymm ?_ ?_
  · refine ceilTo_le_of_dvd hb ?_ (Nat.dvd_add hdvd (dvd_ceilTo b n))
    exact Nat.add_le_add_left (le_ceilTo hb n) k
  · have hle := le_ceilTo hb (k + n)
    have hdiff : ceilTo b n ≤ ceilTo b (k + n) - k := by
      refine ceilTo_le_of_dvd hb (by omega) ?_
      exact Nat.dvd_sub (dvd_ceilTo b _) hdvd
    omega

/-- The blocks that {lit}`n` bytes touch, from the block below their start on. -/
theorem ceilTo_sub_floor (hb : 0 < b) (offset n : Nat) :
    ceilTo b (offset % b + n) = ceilTo b (offset + n) - (offset - offset % b) := by
  have hdvd : b ∣ offset - offset % b := Nat.dvd_sub_mod offset
  have hle := Nat.mod_le offset b
  have hsplit : offset + n = offset - offset % b + (offset % b + n) := by omega
  rw [hsplit, ceilTo_add_of_dvd hb hdvd]
  omega

end Block

end Lib
end ModelStreamer
