import Mathlib.Data.List.Basic
import Mathlib.Tactic.Common

/-!
# Flat buffers

A buffer gives every offset its content.  A slice is written as a list and read as one.

Main results:

- Theorem {lit}`readAt_writeAt`: what was written is read.
- Theorem {lit}`readAt_writeAt_apart`: a slice that shares no cell with it is unchanged.
- Theorem {lit}`readAt_writeAt_inside`: a part of what was written.
-/

namespace ModelStreamer
namespace Lib

variable {β : Type*}

/-- Write the cells of a list from an offset on. -/
def writeAt (buffer : Nat → β) (offset : Nat) (cells : List β) : Nat → β :=
  fun x => if offset ≤ x then (cells[x - offset]?).getD (buffer x) else buffer x

/-- The {lit}`n` cells from an offset on. -/
def readAt (buffer : Nat → β) (offset n : Nat) : List β :=
  (List.range n).map fun i => buffer (offset + i)

variable {buffer : Nat → β} {offset a n : Nat} {cells : List β}

@[simp]
theorem length_readAt : (readAt buffer offset n).length = n := by
  simp [readAt]

theorem getElem?_readAt {i : Nat} (hi : i < n) :
    (readAt buffer offset n)[i]? = some (buffer (offset + i)) := by
  unfold readAt
  rw [List.getElem?_map, List.getElem?_range hi]
  rfl

/-- A part of a slice. -/
theorem slice_readAt (h : a + n ≤ offset) :
    ((readAt buffer 0 offset).drop a).take n = readAt buffer a n := by
  apply List.ext_getElem?
  intro i
  rcases Nat.lt_or_ge i n with hi | hi
  · rw [List.getElem?_take_of_lt hi, List.getElem?_drop, getElem?_readAt (by omega),
      getElem?_readAt hi, Nat.zero_add]
  · rw [List.getElem?_eq_none (by simp; omega), List.getElem?_eq_none (by simp; omega)]

/-- A part of what was written. -/
theorem readAt_writeAt_inside (h : a + n ≤ cells.length) :
    readAt (writeAt buffer offset cells) (offset + a) n = (cells.drop a).take n := by
  apply List.ext_getElem?
  intro i
  rcases Nat.lt_or_ge i n with hi | hi
  · rw [List.getElem?_take_of_lt hi, List.getElem?_drop, getElem?_readAt hi]
    have hlt : a + i < cells.length := by omega
    unfold writeAt
    rw [if_pos (by omega), show offset + a + i - offset = a + i by omega,
      List.getElem?_eq_getElem hlt, Option.getD_some]
  · rw [List.getElem?_eq_none (by simp; omega), List.getElem?_eq_none (by simp; omega)]

/-- What was written is read. -/
theorem readAt_writeAt : readAt (writeAt buffer offset cells) offset cells.length = cells := by
  have hall : readAt (writeAt buffer offset cells) (offset + 0) cells.length =
      (cells.drop 0).take cells.length :=
    readAt_writeAt_inside (Nat.le_of_eq (Nat.zero_add cells.length))
  simpa using hall

/-- A slice that shares no cell with what was written is unchanged. -/
theorem readAt_writeAt_apart (h : a + n ≤ offset ∨ offset + cells.length ≤ a) :
    readAt (writeAt buffer offset cells) a n = readAt buffer a n := by
  apply List.map_congr_left
  intro i hi
  have hi := List.mem_range.1 hi
  unfold writeAt
  rcases h with h | h
  · rw [if_neg (by omega)]
  · rw [if_pos (by omega), List.getElem?_eq_none (by omega), Option.getD_none]

end Lib
end ModelStreamer
