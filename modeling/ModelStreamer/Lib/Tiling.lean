import Mathlib.Algebra.Order.Ring.Nat
import Mathlib.Data.List.Basic
import Mathlib.Algebra.BigOperators.Group.List.Basic
import Mathlib.Tactic.Common

/-!
# Contiguous chains of pieces

A list of pieces, each with a start point and a stop point, is contiguous from
{lit}`a` to {lit}`b` when the first piece starts at {lit}`a`, every piece starts where
the piece before it stopped, and the last piece stops at {lit}`b`.  The development
cuts one span several times over, and each cut is a contiguous list.

Main results:

- Theorem {lit}`contiguous_append`: a concatenation is contiguous exactly when its two
  halves are, meeting at one point.
- Theorem {lit}`Contiguous.bounds`: the pieces stay inside the span.
- Theorem {lit}`laid_append`: a concatenation is laid out when its two halves are, one after
  the other.
-/

namespace ModelStreamer
namespace Lib

section Chains

variable {α β : Type*} (start stop : α → β)

/-- The pieces of the list follow each other without a gap from {lit}`a` to {lit}`b`. -/
def Contiguous : β → β → List α → Prop
  | a, b, [] => a = b
  | a, b, x :: xs => start x = a ∧ Contiguous (stop x) b xs

variable {start stop}

@[simp]
theorem contiguous_nil {a b : β} : Contiguous start stop a b [] ↔ a = b :=
  Iff.rfl

@[simp]
theorem contiguous_cons {a b : β} {x : α} {xs : List α} :
    Contiguous start stop a b (x :: xs) ↔
      start x = a ∧ Contiguous start stop (stop x) b xs :=
  Iff.rfl

/-- Two lists form one contiguous list exactly when they meet at a common point. -/
theorem contiguous_append {a c : β} {xs ys : List α} :
    Contiguous start stop a c (xs ++ ys) ↔
      ∃ b, Contiguous start stop a b xs ∧ Contiguous start stop b c ys := by
  induction xs generalizing a with
  | nil => simp
  | cons x xs ih =>
      simp only [List.cons_append, contiguous_cons, ih]
      constructor
      · rintro ⟨hx, b, hxs, hys⟩
        exact ⟨b, ⟨hx, hxs⟩, hys⟩
      · rintro ⟨b, ⟨hx, hxs⟩, hys⟩
        exact ⟨hx, b, hxs, hys⟩

/-- Appending one more piece moves the stop point to the end of that piece. -/
theorem Contiguous.concat {a b : β} {xs : List α} {x : α}
    (h : Contiguous start stop a b xs) (hx : start x = b) :
    Contiguous start stop a (stop x) (xs ++ [x]) := by
  refine contiguous_append.2 ⟨b, h, ?_⟩
  exact ⟨hx, rfl⟩

/-- Only the stop points of the pieces in the list matter. -/
theorem Contiguous.congr_stop {stop' : α → β} {a b : β} {xs : List α}
    (h : Contiguous start stop a b xs) (hstop : ∀ x ∈ xs, stop x = stop' x) :
    Contiguous start stop' a b xs := by
  induction xs generalizing a with
  | nil => exact h
  | cons x xs ih =>
      refine ⟨h.1, ?_⟩
      rw [← hstop x (by simp)]
      exact ih h.2 fun y hy => hstop y (by simp [hy])

/-- The last piece of a nonempty contiguous list stops at the stop point. -/
theorem Contiguous.stop_getLast {a b : β} {xs : List α}
    (h : Contiguous start stop a b xs) (hne : xs ≠ []) : stop (xs.getLast hne) = b := by
  induction xs generalizing a with
  | nil => exact absurd rfl hne
  | cons x xs ih =>
      cases xs with
      | nil => exact h.2
      | cons y ys => exact ih h.2 (by simp)

/-- Pieces seen through a map are contiguous when their images are. -/
theorem contiguous_map {γ : Type*} {f : γ → α} {a b : β} {xs : List γ} :
    Contiguous start stop a b (xs.map f) ↔
      Contiguous (fun x => start (f x)) (fun x => stop (f x)) a b xs := by
  induction xs generalizing a with
  | nil => rfl
  | cons x xs ih => simp only [List.map_cons, contiguous_cons, ih]

end Chains

section Ordered

variable {α : Type*} {start stop : α → Nat}

/-- A contiguous list of pieces that do not run backwards does not run backwards. -/
theorem Contiguous.le {a b : Nat} {xs : List α}
    (h : Contiguous start stop a b xs) (hle : ∀ x ∈ xs, start x ≤ stop x) : a ≤ b := by
  induction xs generalizing a with
  | nil => exact Nat.le_of_eq h
  | cons x xs ih =>
      have hx : start x ≤ stop x := hle x (by simp)
      have hrest : stop x ≤ b := ih h.2 fun y hy => hle y (by simp [hy])
      have hstart : start x = a := h.1
      omega

/-- Every piece of a contiguous list lies between its end points. -/
theorem Contiguous.bounds {a b : Nat} {xs : List α}
    (h : Contiguous start stop a b xs) (hle : ∀ x ∈ xs, start x ≤ stop x)
    {x : α} (hx : x ∈ xs) : a ≤ start x ∧ stop x ≤ b := by
  induction xs generalizing a with
  | nil => simp at hx
  | cons y ys ih =>
      have hys : ∀ z ∈ ys, start z ≤ stop z := fun z hz => hle z (by simp [hz])
      have hy : start y ≤ stop y := hle y (by simp)
      have hstart : start y = a := h.1
      rcases List.mem_cons.1 hx with rfl | hmem
      · exact ⟨Nat.le_of_eq hstart.symm, h.2.le hys⟩
      · have hrec := ih h.2 hys hmem
        exact ⟨by omega, hrec.2⟩

/-- Pieces that each advance are listed in strictly ascending order. -/
theorem Contiguous.pairwise_lt {a b : Nat} {xs : List α}
    (h : Contiguous start stop a b xs) (hlt : ∀ x ∈ xs, start x < stop x) :
    xs.Pairwise fun x y => start x < start y := by
  induction xs generalizing a with
  | nil => exact List.Pairwise.nil
  | cons x xs ih =>
      have hxs : ∀ y ∈ xs, start y < stop y := fun y hy => hlt y (by simp [hy])
      refine List.pairwise_cons.2 ⟨?_, ih h.2 hxs⟩
      intro y hy
      have hx := hlt x (by simp)
      have hbounds := h.2.bounds (fun z hz => Nat.le_of_lt (hxs z hz)) hy
      omega

/-- A piece stops where a later piece starts, or before. -/
theorem Contiguous.pairwise_le {a b : Nat} {xs : List α}
    (h : Contiguous start stop a b xs) (hle : ∀ x ∈ xs, start x ≤ stop x) :
    xs.Pairwise fun x y => stop x ≤ start y := by
  induction xs generalizing a with
  | nil => exact List.Pairwise.nil
  | cons x xs ih =>
      have hxs : ∀ y ∈ xs, start y ≤ stop y := fun y hy => hle y (by simp [hy])
      exact List.pairwise_cons.2 ⟨fun y hy => (h.2.bounds hxs hy).1, ih h.2 hxs⟩

/-- A point of the span is in a piece. -/
theorem Contiguous.exists_mem {a b : Nat} {xs : List α} (h : Contiguous start stop a b xs)
    {i : Nat} (hlow : a ≤ i) (hhigh : i < b) : ∃ x ∈ xs, start x ≤ i ∧ i < stop x := by
  induction xs generalizing a with
  | nil =>
      have heq : a = b := h
      omega
  | cons x xs ih =>
      have hstart : start x = a := h.1
      by_cases hin : i < stop x
      · exact ⟨x, List.mem_cons_self, by omega, hin⟩
      · rcases ih h.2 (not_lt.1 hin) with ⟨y, hy, hboth⟩
        exact ⟨y, List.mem_cons_of_mem _ hy, hboth⟩

/-- The sizes of the pieces of a contiguous list add up to the span. -/
theorem Contiguous.sum_sizes {a b : Nat} {xs : List α}
    (h : Contiguous start stop a b xs) (size : α → Nat) (hsize : ∀ x ∈ xs, stop x = start x + size x) :
    a + (xs.map size).sum = b := by
  induction xs generalizing a with
  | nil => simpa using h
  | cons x xs ih =>
      have hx := hsize x (by simp)
      have hrest := ih h.2 fun y hy => hsize y (by simp [hy])
      have hstart : start x = a := h.1
      simp only [List.map_cons, List.sum_cons]
      omega

end Ordered

/-! ## Items at their places -/

section Places

variable {α β : Type*} {size : α → Nat} {P Q : Nat → α → Prop} {p : Nat} {xs ys : List α}

/--
Every item of the list is related to its place.  The first place is {lit}`p`, and the sizes
of the items lead from one place to the next.
-/
def Laid (size : α → Nat) (P : Nat → α → Prop) : Nat → List α → Prop
  | _, [] => True
  | p, x :: xs => P p x ∧ Laid size P (p + size x) xs

theorem laid_append :
    Laid size P p (xs ++ ys) ↔
      Laid size P p xs ∧ Laid size P (p + (xs.map size).sum) ys := by
  induction xs generalizing p with
  | nil => simp [Laid]
  | cons x xs ih =>
      simp only [List.cons_append, Laid, ih, List.map_cons, List.sum_cons, Nat.add_assoc,
        and_assoc]

/-- Another relation that holds at the places of the list holds all along it. -/
theorem Laid.imp (h : Laid size P p xs)
    (himp : ∀ q x, x ∈ xs → p ≤ q → q + size x ≤ p + (xs.map size).sum → P q x → Q q x) :
    Laid size Q p xs := by
  induction xs generalizing p with
  | nil => trivial
  | cons x xs ih =>
      simp only [List.map_cons, List.sum_cons] at himp
      refine ⟨himp p x List.mem_cons_self (Nat.le_refl p) (by omega) h.1, ?_⟩
      exact ih h.2 fun q y hy hlow hhigh hq =>
        himp q y (List.mem_cons_of_mem x hy) (by omega) (by omega) hq

/-- Items seen through a map are laid out when their images are. -/
theorem laid_map {f : β → α} {zs : List β} :
    Laid size P p (zs.map f) ↔ Laid (fun z => size (f z)) (fun q z => P q (f z)) p zs := by
  induction zs generalizing p with
  | nil => rfl
  | cons z zs ih => simp only [List.map_cons, Laid, ih]

/-- The places may be counted from another point. -/
theorem laid_add {n : Nat} :
    Laid size P (n + p) xs ↔ Laid size (fun q => P (n + q)) p xs := by
  induction xs generalizing p with
  | nil => rfl
  | cons x xs ih => simp only [Laid, Nat.add_assoc, ih]

/-- Every item has its place. -/
theorem Laid.of_mem (h : Laid size P p xs) {x : α} (hx : x ∈ xs) :
    ∃ q, p ≤ q ∧ q + size x ≤ p + (xs.map size).sum ∧ P q x := by
  induction xs generalizing p with
  | nil => cases hx
  | cons y xs ih =>
      simp only [List.map_cons, List.sum_cons]
      rcases List.mem_cons.1 hx with rfl | hmem
      · exact ⟨p, Nat.le_refl p, by omega, h.1⟩
      · rcases ih h.2 hmem with ⟨q, hlow, hhigh, hq⟩
        exact ⟨q, by omega, by omega, hq⟩

/-- The last item ends where the list does. -/
theorem Laid.getLast (h : Laid size P p xs) (hne : xs ≠ []) :
    ∃ q, q + size (xs.getLast hne) = p + (xs.map size).sum ∧ P q (xs.getLast hne) := by
  induction xs generalizing p with
  | nil => exact absurd rfl hne
  | cons x xs ih =>
      cases xs with
      | nil => exact ⟨p, by simp, h.1⟩
      | cons y ys =>
          rcases ih h.2 (List.cons_ne_nil y ys) with ⟨q, hend, hq⟩
          refine ⟨q, ?_, hq⟩
          rw [List.getLast_cons (List.cons_ne_nil y ys), hend]
          simp only [List.map_cons, List.sum_cons]
          omega

/-- One list of a concatenation is laid out where it stands. -/
theorem Laid.of_flatten {xss : List (List α)} (h : Laid size P p xss.flatten) {xs : List α}
    (hxs : xs ∈ xss) :
    ∃ q, p ≤ q ∧ q + (xs.map size).sum ≤ p + (xss.flatten.map size).sum ∧
      Laid size P q xs := by
  induction xss generalizing p with
  | nil => cases hxs
  | cons ys xss ih =>
      rw [List.flatten_cons] at h ⊢
      rw [List.map_append, List.sum_append]
      rcases laid_append.1 h with ⟨hfirst, hrest⟩
      rcases List.mem_cons.1 hxs with rfl | hmem
      · exact ⟨p, Nat.le_refl p, by omega, hfirst⟩
      · rcases ih hrest hmem with ⟨q, hlow, hhigh, hq⟩
        exact ⟨q, by omega, by omega, hq⟩

/-- Items that start at their places and stop after their sizes follow each other. -/
theorem Laid.contiguous {start stop : α → Nat} (h : Laid size P p xs)
    (hP : ∀ q x, P q x → start x = q ∧ stop x = q + size x) :
    Contiguous start stop p (p + (xs.map size).sum) xs := by
  induction xs generalizing p with
  | nil => rfl
  | cons x xs ih =>
      rcases hP p x h.1 with ⟨hstart, hstop⟩
      refine ⟨hstart, ?_⟩
      rw [hstop, List.map_cons, List.sum_cons, ← Nat.add_assoc]
      exact ih h.2

end Places

end Lib
end ModelStreamer
