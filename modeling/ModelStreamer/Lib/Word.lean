import Mathlib.Algebra.Order.Ring.Nat
import Mathlib.Data.Nat.Basic
import Mathlib.Tactic.Common

/-!
# Machine words

Unsigned machine arithmetic is written on natural numbers with the reduction made
explicit.  A sum that stays below the modulus is the sum itself, which is the only fact
the proofs need about it.
-/

namespace ModelStreamer
namespace Lib

/-- A value stored into an unsigned word of {lit}`w` bits. -/
def toWord (w n : Nat) : Nat :=
  n % 2 ^ w

/-- Unsigned addition in a word of {lit}`w` bits. -/
def wordAdd (w a b : Nat) : Nat :=
  toWord w (a + b)

/-- Unsigned subtraction in a word of {lit}`w` bits. -/
def wordSub (w a b : Nat) : Nat :=
  toWord w (a + 2 ^ w - b)

/-- A value that fits is stored unchanged. -/
theorem toWord_of_lt {w n : Nat} (h : n < 2 ^ w) : toWord w n = n :=
  Nat.mod_eq_of_lt h

/-- A sum that fits is the plain sum. -/
theorem wordAdd_of_lt {w a b : Nat} (h : a + b < 2 ^ w) : wordAdd w a b = a + b :=
  toWord_of_lt h

/-- A difference that does not go below zero is the plain difference. -/
theorem wordSub_of_le {w a b : Nat} (hle : b ≤ a) (h : a < 2 ^ w) :
    wordSub w a b = a - b := by
  unfold wordSub toWord
  rw [Nat.sub_add_comm hle, Nat.add_mod_right]
  exact Nat.mod_eq_of_lt (by omega)

/-- Two additions in a word can be made in either order. -/
theorem wordAdd_right_comm (w a b c : Nat) :
    wordAdd w (wordAdd w a b) c = wordAdd w (wordAdd w a c) b := by
  simp only [wordAdd, toWord, Nat.mod_add_mod, Nat.add_right_comm]

end Lib
end ModelStreamer
