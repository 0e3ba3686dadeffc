import Mathlib.Data.Int.ModEq
import Mathlib.Data.Nat.ModEq
import Mathlib.Order.Bounds.Basic
import Mathlib.Tactic.Common

/-!
# Laying out intervals one after another

Each item has a key and a size, and a rule says where an item with some key may start once the
items before it end.

Main results:

- Theorem {lit}`getElem?_layout`: where each item starts.
- Theorem {lit}`layout_disjoint`: no item starts before the items in front of it end.
- Theorem {lit}`isLeast_nextCongruent`: the first address that is congruent with the key.
-/

namespace ModelStreamer
namespace Lib

/-! ## Layouts -/

/-- The starts of the items, from a cursor on. -/
def layout (start : Nat → Nat → Nat) : Nat → List (Nat × Nat) → List Nat
  | _, [] => []
  | cursor, (key, size) :: items =>
      start key cursor :: layout start (start key cursor + size) items

/-- Where the last item ends. -/
def layoutEnd (start : Nat → Nat → Nat) : Nat → List (Nat × Nat) → Nat
  | cursor, [] => cursor
  | cursor, (key, size) :: items => layoutEnd start (start key cursor + size) items

section Layout

variable {start : Nat → Nat → Nat} {cursor : Nat} {items : List (Nat × Nat)}

@[simp]
theorem length_layout : (layout start cursor items).length = items.length := by
  induction items generalizing cursor with
  | nil => rfl
  | cons item items ih => simp [layout, ih]

/-- An item starts where its key lets it, after the items in front of it. -/
theorem getElem?_layout (i : Nat) :
    (layout start cursor items)[i]? =
      items[i]?.map fun item => start item.1 (layoutEnd start cursor (items.take i)) := by
  induction items generalizing cursor i with
  | nil => simp [layout]
  | cons item items ih =>
      cases i with
      | zero => rfl
      | succ i => exact ih i

/-- One more item moves the end. -/
theorem layoutEnd_take_succ {i : Nat} {item : Nat × Nat} (hitem : items[i]? = some item) :
    layoutEnd start cursor (items.take (i + 1)) =
      start item.1 (layoutEnd start cursor (items.take i)) + item.2 := by
  induction items generalizing cursor i with
  | nil => cases hitem
  | cons first items ih =>
      cases i with
      | zero =>
          cases hitem
          simp [layoutEnd]
      | succ i => exact ih hitem

/-- The end of the items in front of one, read off the layout. -/
def previousEnd (cursor : Nat) (items : List (Nat × Nat)) (starts : List Nat) : Nat → Nat
  | 0 => cursor
  | i + 1 => starts.getD i 0 + (items.getD i (0, 0)).2

theorem previousEnd_layout {i : Nat} (hi : i ≤ items.length) :
    previousEnd cursor items (layout start cursor items) i =
      layoutEnd start cursor (items.take i) := by
  cases i with
  | zero => simp [previousEnd, layoutEnd]
  | succ i =>
      have hitem : items[i]? = some items[i] := List.getElem?_eq_getElem hi
      rw [layoutEnd_take_succ hitem]
      simp [previousEnd, List.getD_eq_getElem?_getD, getElem?_layout, hitem]

variable (hstart : ∀ key cursor, cursor ≤ start key cursor)

include hstart in
/-- The items end no earlier than they may start. -/
theorem le_layoutEnd : cursor ≤ layoutEnd start cursor items := by
  induction items generalizing cursor with
  | nil => exact le_rfl
  | cons item items ih =>
      calc cursor ≤ start item.1 cursor := hstart item.1 cursor
        _ ≤ start item.1 cursor + item.2 := Nat.le_add_right _ _
        _ ≤ layoutEnd start cursor (item :: items) := ih

/-- The end of some items is where the others go on. -/
theorem layoutEnd_append (others : List (Nat × Nat)) :
    layoutEnd start cursor (items ++ others) =
      layoutEnd start (layoutEnd start cursor items) others := by
  induction items generalizing cursor with
  | nil => rfl
  | cons item items ih => exact ih

include hstart in
/-- More items do not end earlier. -/
theorem layoutEnd_take_mono {i j : Nat} (hij : i ≤ j) :
    layoutEnd start cursor (items.take i) ≤ layoutEnd start cursor (items.take j) := by
  have hsplit : items.take j = items.take i ++ (items.drop i).take (j - i) := by
    rw [← List.take_add, Nat.add_sub_cancel' hij]
  rw [hsplit, layoutEnd_append]
  exact le_layoutEnd hstart

include hstart in
/-- Every item lies between the cursor and the end. -/
theorem layout_inside {i a : Nat} {item : Nat × Nat}
    (ha : (layout start cursor items)[i]? = some a) (hitem : items[i]? = some item) :
    cursor ≤ a ∧ a + item.2 ≤ layoutEnd start cursor items := by
  rw [getElem?_layout, hitem] at ha
  cases ha
  constructor
  · exact (le_layoutEnd hstart).trans (hstart _ _)
  · rw [← layoutEnd_take_succ hitem]
    have hmono := @layoutEnd_take_mono start cursor items hstart (i + 1)
      (max (i + 1) items.length) (le_max_left _ _)
    rwa [List.take_of_length_le (le_max_right _ _)] at hmono

include hstart in
/-- No item starts before an item in front of it ends. -/
theorem layout_disjoint {i j a b : Nat} {item : Nat × Nat} (hij : i < j)
    (ha : (layout start cursor items)[i]? = some a) (hitem : items[i]? = some item)
    (hb : (layout start cursor items)[j]? = some b) : a + item.2 ≤ b := by
  rw [getElem?_layout] at ha hb
  rw [hitem] at ha
  cases ha
  obtain ⟨other, -, rfl⟩ := Option.map_eq_some_iff.1 hb
  calc start item.1 (layoutEnd start cursor (items.take i)) + item.2
      = layoutEnd start cursor (items.take (i + 1)) := (layoutEnd_take_succ hitem).symm
    _ ≤ layoutEnd start cursor (items.take j) := layoutEnd_take_mono hstart hij
    _ ≤ start other.1 (layoutEnd start cursor (items.take j)) := hstart _ _

end Layout

/-! ## Without gaps, and with congruent starts -/

/-- Start where the item before ends. -/
def nextTight (_ cursor : Nat) : Nat :=
  cursor

/-- The first address from the cursor on that is congruent with the key. -/
def nextCongruent (block key cursor : Nat) : Nat :=
  cursor + (((key : Int) - cursor) % block).toNat

theorem le_nextTight (key cursor : Nat) : cursor ≤ nextTight key cursor :=
  le_rfl

theorem le_nextCongruent (block key cursor : Nat) : cursor ≤ nextCongruent block key cursor :=
  Nat.le_add_right _ _

/-- Items without gaps take as many bytes as they have. -/
theorem layoutEnd_tight (cursor : Nat) (items : List (Nat × Nat)) :
    layoutEnd nextTight cursor items = cursor + (items.map Prod.snd).sum := by
  induction items generalizing cursor with
  | nil => rfl
  | cons item items ih =>
      rw [List.map_cons, List.sum_cons, ← Nat.add_assoc]
      exact ih _

/-- The address is congruent, and no earlier one from the cursor on is. -/
theorem isLeast_nextCongruent {block : Nat} (hblock : 0 < block) (key cursor : Nat) :
    IsLeast {a | cursor ≤ a ∧ a ≡ key [MOD block]} (nextCongruent block key cursor) := by
  have hpos : (0 : Int) < block := by exact_mod_cast hblock
  have hnonneg : 0 ≤ ((key : Int) - cursor) % block := Int.emod_nonneg _ hpos.ne'
  have hcast : ((nextCongruent block key cursor : Nat) : Int) =
      cursor + ((key : Int) - cursor) % block := by
    unfold nextCongruent
    rw [Nat.cast_add, Int.toNat_of_nonneg hnonneg]
  constructor
  · refine ⟨le_nextCongruent block key cursor, ?_⟩
    rw [← Int.natCast_modEq_iff, hcast]
    calc (cursor : Int) + ((key : Int) - cursor) % block
        ≡ cursor + (key - cursor) [ZMOD block] := (Int.mod_modEq _ _).add_left _
      _ = key := by omega
  · rintro a ⟨hle, hmod⟩
    rw [← Int.natCast_modEq_iff] at hmod
    have hshift : (a : Int) - cursor ≡ key - cursor [ZMOD block] := hmod.sub_right _
    have hrem : ((key : Int) - cursor) % block ≤ a - cursor := by
      rw [← hshift]
      have hdiv := Int.mul_ediv_add_emod ((a : Int) - cursor) block
      have hquot : 0 ≤ (block : Int) * (((a : Int) - cursor) / block) :=
        Int.mul_nonneg hpos.le (Int.ediv_nonneg (by omega) hpos.le)
      omega
    omega

/-- A congruent start needs no pad after an item that is adjacent to it. -/
theorem nextCongruent_adjacent {block : Nat} (hblock : 0 < block) (key size cursor : Nat) :
    nextCongruent block (key + size) (nextCongruent block key cursor + size) =
      nextCongruent block key cursor + size := by
  have hleast := isLeast_nextCongruent hblock key cursor
  apply (isLeast_nextCongruent hblock (key + size) _).unique
  exact ⟨⟨le_rfl, hleast.1.2.add_right size⟩, fun _ hb => hb.1⟩

end Lib
end ModelStreamer
