import Mathlib.Data.List.Basic
import ModelStreamer.Lib.Tiling

/-!
# Intervals that cover a span

A list of integer intervals covers a span exactly when each point of the span is in one of
them and nothing sticks out.  Intervals without a point may stand anywhere on the seams.
Sorted by their start, and by their length at the same start, such intervals follow each other
without a gap.

Main results:

- Theorem {lit}`covers_of_contiguous`: a contiguous list covers its span.
- Theorem {lit}`contiguous_of_covers`: a sorted list that covers a span is contiguous.
-/

namespace ModelStreamer
namespace Lib

variable {α : Type*} {start stop : α → Int}

/-- The point lies in the interval. -/
def Holds (start stop : α → Int) (p : Int) (x : α) : Bool :=
  start x ≤ p && p < stop x

theorem holds_iff {p : Int} {x : α} : Holds start stop p x = true ↔ start x ≤ p ∧ p < stop x := by
  simp [Holds]

/-- The intervals cover the span from {lit}`a` to {lit}`b`. -/
structure Covers (start stop : α → Int) (a b : Int) (xs : List α) : Prop where
  le : a ≤ b
  bounds : ∀ x ∈ xs, a ≤ start x ∧ start x ≤ stop x ∧ stop x ≤ b
  once : ∀ p, a ≤ p → p < b → xs.countP (Holds start stop p) = 1
  seam : ∀ x ∈ xs, start x = stop x → ∀ y ∈ xs, ¬ (start y < start x ∧ start x < stop y)

/-- Whether a list covers a span does not depend on its order. -/
theorem Covers.perm {a b : Int} {xs ys : List α} (h : Covers start stop a b xs)
    (hperm : xs.Perm ys) : Covers start stop a b ys :=
  { le := h.le
    bounds := fun x hx => h.bounds x (hperm.mem_iff.2 hx)
    once := fun p hap hpb => by rw [← hperm.countP_eq]; exact h.once p hap hpb
    seam := fun x hx hempty y hy =>
      h.seam x (hperm.mem_iff.2 hx) hempty y (hperm.mem_iff.2 hy) }

/-- Two elements that a test counts only once are the same. -/
theorem eq_of_countP_eq_one {test : α → Bool} {xs : List α} (h : xs.countP test = 1) {x y : α}
    (hx : x ∈ xs) (hy : y ∈ xs) (htx : test x = true) (hty : test y = true) : x = y := by
  rw [List.countP_eq_length_filter] at h
  obtain ⟨z, hz⟩ := List.length_eq_one_iff.1 h
  have hxz : x ∈ xs.filter test := List.mem_filter.2 ⟨hx, htx⟩
  have hyz : y ∈ xs.filter test := List.mem_filter.2 ⟨hy, hty⟩
  rw [hz, List.mem_singleton] at hxz hyz
  rw [hxz, hyz]

/-- Intervals that start at or after a point do not hold an earlier one. -/
theorem countP_holds_eq_zero {p : Int} {xs : List α} (h : ∀ x ∈ xs, p < start x) :
    xs.countP (Holds start stop p) = 0 := by
  rw [List.countP_eq_zero]
  intro x hx
  have hlt := h x hx
  rw [holds_iff]
  omega

/-- The intervals of a contiguous list start at or after its start. -/
theorem Contiguous.start_le {a b : Int} {xs : List α} (h : Contiguous start stop a b xs)
    (hle : ∀ x ∈ xs, start x ≤ stop x) :
    a ≤ b ∧ ∀ x ∈ xs, a ≤ start x ∧ stop x ≤ b := by
  induction xs generalizing a with
  | nil =>
      cases h
      exact ⟨Int.le_refl _, fun x hx => by cases hx⟩
  | cons x xs ih =>
      obtain ⟨hstart, hrest⟩ := h
      have hx := hle x List.mem_cons_self
      obtain ⟨hab, hbounds⟩ := ih hrest fun y hy => hle y (List.mem_cons_of_mem _ hy)
      refine ⟨by omega, fun y hy => ?_⟩
      rcases List.mem_cons.1 hy with rfl | hmem
      · omega
      · have hy := hbounds y hmem
        omega

/-- A contiguous list covers its span. -/
theorem covers_of_contiguous {a b : Int} {xs : List α} (h : Contiguous start stop a b xs)
    (hle : ∀ x ∈ xs, start x ≤ stop x) : Covers start stop a b xs := by
  induction xs generalizing a with
  | nil =>
      cases h
      exact
        { le := Int.le_refl _
          bounds := fun x hx => by cases hx
          once := fun p hap hpa => by omega
          seam := fun x hx => by cases hx }
  | cons x xs ih =>
      obtain ⟨hstart, hrest⟩ := h
      have hx := hle x List.mem_cons_self
      have hle' : ∀ y ∈ xs, start y ≤ stop y := fun y hy => hle y (List.mem_cons_of_mem _ hy)
      obtain ⟨hb, hbounds⟩ := hrest.start_le hle'
      have hcovers := ih hrest hle'
      refine ⟨by omega, ?_, ?_, ?_⟩
      · intro y hy
        rcases List.mem_cons.1 hy with rfl | hmem
        · omega
        · have hy := hbounds y hmem
          have hlen := hle' y hmem
          omega
      · intro p hap hpb
        rw [List.countP_cons]
        by_cases hp : p < stop x
        · -- the first interval holds the point, and the others start later
          have hzero : xs.countP (Holds start stop p) = 0 :=
            countP_holds_eq_zero fun y hy => by
              have hy := hbounds y hy
              omega
          have hholds : Holds start stop p x = true := by
            rw [holds_iff]
            omega
          rw [hzero, if_pos hholds]
        · have hnot : ¬ Holds start stop p x = true := by
            rw [holds_iff]
            omega
          rw [hcovers.once p (by omega) hpb, if_neg hnot]
      · intro y hy hempty z hz hinside
        rcases List.mem_cons.1 hy with rfl | hymem
        · rcases List.mem_cons.1 hz with rfl | hzmem
          · omega
          · have hz := hbounds z hzmem
            omega
        · rcases List.mem_cons.1 hz with rfl | hzmem
          · have hy := hbounds y hymem
            omega
          · exact hcovers.seam y hymem hempty z hzmem hinside

/-- The start comes first, and the shorter interval at the same start. -/
def Precedes (start stop : α → Int) (x y : α) : Prop :=
  start x < start y ∨ start x = start y ∧ stop x - start x ≤ stop y - start y

/-- The first of sorted intervals that cover a span starts where the span does. -/
theorem Covers.start_head {a b : Int} {x : α} {xs : List α}
    (h : Covers start stop a b (x :: xs))
    (hsorted : ∀ y ∈ xs, Precedes start stop x y) : start x = a := by
  have hx := h.bounds x List.mem_cons_self
  by_contra hne
  -- the first point of the span would be in an interval before the first one
  have hcount := h.once a (Int.le_refl a) (by omega)
  have hzero : (x :: xs).countP (Holds start stop a) = 0 := by
    refine countP_holds_eq_zero fun y hy => ?_
    rcases List.mem_cons.1 hy with rfl | hmem
    · omega
    · have hprecedes := hsorted y hmem
      unfold Precedes at hprecedes
      omega
  omega

/-- The rest of sorted intervals that cover a span covers the rest of the span. -/
theorem Covers.tail {a b : Int} {x : α} {xs : List α} (h : Covers start stop a b (x :: xs))
    (hsorted : ∀ y ∈ xs, Precedes start stop x y) : Covers start stop (stop x) b xs := by
  have hstart := h.start_head hsorted
  have hx := h.bounds x List.mem_cons_self
  have hafter : ∀ y ∈ xs, stop x ≤ start y := by
    intro y hy
    have hybounds := h.bounds y (List.mem_cons_of_mem _ hy)
    by_contra hlt
    have hprecedes := hsorted y hy
    unfold Precedes at hprecedes
    by_cases hempty : start y = stop y
    · -- an empty interval inside the first one is not on a seam
      refine h.seam y (List.mem_cons_of_mem _ hy) hempty x List.mem_cons_self ?_
      omega
    · -- the first point of the other interval would be in both
      have hcount := h.once (start y) (by omega) (by omega)
      rw [List.countP_cons] at hcount
      have hholds : Holds start stop (start y) x = true := by
        rw [holds_iff]
        omega
      have hone : 0 < xs.countP (Holds start stop (start y)) := by
        rw [List.countP_pos_iff]
        refine ⟨y, hy, ?_⟩
        rw [holds_iff]
        omega
      rw [if_pos hholds] at hcount
      omega
  refine ⟨hx.2.2, ?_, ?_, ?_⟩
  · intro y hy
    have hybounds := h.bounds y (List.mem_cons_of_mem _ hy)
    exact ⟨hafter y hy, hybounds.2⟩
  · intro p hp hpb
    have hcount := h.once p (by omega) hpb
    have hnot : ¬ Holds start stop p x = true := by
      rw [holds_iff]
      omega
    rwa [List.countP_cons, if_neg hnot, Nat.add_zero] at hcount
  · intro y hy hempty z hz
    exact h.seam y (List.mem_cons_of_mem _ hy) hempty z (List.mem_cons_of_mem _ hz)

/-- A sorted list that covers a span is contiguous. -/
theorem contiguous_of_covers {a b : Int} {xs : List α} (h : Covers start stop a b xs)
    (hsorted : xs.Pairwise (Precedes start stop)) : Contiguous start stop a b xs := by
  induction xs generalizing a with
  | nil =>
      have hle := h.le
      by_contra hne
      have hne : a ≠ b := hne
      have hcount := h.once a (Int.le_refl a) (by omega)
      simp at hcount
  | cons x xs ih =>
      obtain ⟨hhead, hrest⟩ := List.pairwise_cons.1 hsorted
      exact ⟨h.start_head hhead, ih (h.tail hhead) hrest⟩

end Lib
end ModelStreamer
