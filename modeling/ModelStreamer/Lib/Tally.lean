import Mathlib.Data.List.Perm.Subperm
import Mathlib.Data.List.Nodup
import Mathlib.Tactic.Common

/-!
# Answering a list of items part by part

The items of a list are answered in parts.  A part is a span of positions; the spans are apart,
and together they have every item that is not answered early.  A span is closed once, either with
an answer for each of its items or with a failure.  What is answered in the end is every item
once, unless something has failed.

Main results:

- Theorem {lit}`Tally.answer`: a span is closed, and its items are answered.
- Theorem {lit}`Tally.fail`: a span is closed, and its items have failed.
- Theorem {lit}`Tally.subperm`: no item is answered twice.
- Theorem {lit}`Tally.perm`: without spans and without failures, every item was answered.
-/

namespace ModelStreamer
namespace Lib

variable {α : Type*}

/-! ## Spans -/

/-- The positions from {lit}`first` on. -/
structure Span where
  first : Nat
  count : Nat
deriving DecidableEq, Repr

/-- The position is in the span. -/
def Span.Has (s : Span) (i : Nat) : Prop :=
  s.first ≤ i ∧ i < s.first + s.count

instance Span.decidableHas (s : Span) (i : Nat) : Decidable (s.Has i) :=
  inferInstanceAs (Decidable (_ ∧ _))

/-- The items of a span. -/
def Span.slice (s : Span) (items : List α) : List α :=
  (items.drop s.first).take s.count

/-- No position is in both spans. -/
def Span.Apart (s t : Span) : Prop :=
  ∀ i, s.Has i → ¬ t.Has i

theorem Span.Apart.symm {s t : Span} (h : s.Apart t) : t.Apart s :=
  fun i ht hs => h i hs ht

/-! ## Choosing items -/

/-- The items that are chosen together with their positions. -/
def picked (items : List α) (chosen : α × Nat → Bool) : List α :=
  (items.zipIdx.filter chosen).map Prod.fst

theorem picked_eq_filter (items : List α) (n : Nat) (p : α → Bool) :
    ((items.zipIdx n).filter fun x => p x.1).map Prod.fst = items.filter p := by
  have hfilter := List.filter_map (f := Prod.fst) (p := p) (l := items.zipIdx n)
  rw [List.zipIdx_map_fst] at hfilter
  exact hfilter.symm

/-- Items that are chosen for one of two reasons. -/
theorem filter_or_perm {p q : α → Bool} {xs : List α}
    (h : ∀ x ∈ xs, p x = true → q x = false) :
    (xs.filter fun x => p x || q x).Perm (xs.filter p ++ xs.filter q) := by
  induction xs with
  | nil => exact List.Perm.refl _
  | cons x xs ih =>
      have hrest := ih fun y hy => h y (List.mem_cons_of_mem _ hy)
      have hhead := h x List.mem_cons_self
      cases hp : p x with
      | true =>
          have hq : q x = false := hhead hp
          simp only [List.filter_cons, hp, hq, Bool.true_or, if_true, Bool.false_eq_true, if_false]
          exact hrest.cons x
      | false =>
          cases hq : q x with
          | true =>
              simp only [List.filter_cons, hp, hq, Bool.or_true, if_true, Bool.false_eq_true,
                if_false]
              exact (hrest.cons x).trans List.perm_middle.symm
          | false =>
              simp only [List.filter_cons, hp, hq, Bool.or_false, Bool.false_eq_true, if_false]
              exact hrest

/-- The items of a span are chosen. -/
theorem picked_span (items : List α) (s : Span) (p : α → Bool) :
    picked items (fun x => decide (s.Has x.2) && p x.1) = (s.slice items).filter p := by
  let before := items.take s.first
  let after := (items.drop s.first).drop s.count
  have hsplit : items = before ++ (s.slice items ++ after) := by
    unfold before after Span.slice
    rw [List.take_append_drop, List.take_append_drop]
  have hbefore : before.length = min s.first items.length := List.length_take
  have hslice : (s.slice items).length = min s.count (items.length - s.first) := by
    unfold Span.slice
    rw [List.length_take, List.length_drop]
  have hafter : after.length = items.length - s.first - s.count := by
    unfold after
    rw [List.length_drop, List.length_drop]
  have hnone : ∀ (n : Nat) (xs : List α), (∀ x ∈ xs.zipIdx n, ¬ s.Has x.2) →
      (xs.zipIdx n).filter (fun x => decide (s.Has x.2) && p x.1) = [] := by
    intro n xs hxs
    rw [List.filter_eq_nil_iff]
    intro x hx
    rw [decide_eq_false (hxs x hx), Bool.false_and]
    exact Bool.false_ne_true
  unfold picked
  conv_lhs => rw [hsplit]
  rw [List.zipIdx_append, List.zipIdx_append, List.filter_append, List.filter_append,
    hnone 0 before, hnone _ after, List.nil_append, List.append_nil,
    ← picked_eq_filter (s.slice items) (0 + before.length)]
  · congr 1
    apply List.filter_congr
    intro x hx
    have hle := List.le_snd_of_mem_zipIdx hx
    have hlt := List.snd_lt_add_of_mem_zipIdx hx
    have hhas : s.Has x.2 := ⟨by omega, by omega⟩
    rw [decide_eq_true hhas, Bool.true_and]
  · intro x hx hhas
    have hle := List.le_snd_of_mem_zipIdx hx
    have hlt := List.snd_lt_add_of_mem_zipIdx hx
    have hin := hhas.2
    omega
  · intro x hx hhas
    have hlt := List.snd_lt_add_of_mem_zipIdx hx
    have hin := hhas.1
    omega

/-! ## The tally -/

/-- What is known when the items at the positions of {lit}`done` were answered. -/
structure TallyAt (items : List α) (early : α → Bool) (spans : List Span) (failed : α → Prop)
    (answered : List α) (done : α × Nat → Bool) : Prop where
  answered_perm : answered.Perm (picked items done)
  /-- No item of a span was answered, except early. -/
  closed : ∀ x ∈ items.zipIdx, done x = true → early x.1 = false → ∀ s ∈ spans, ¬ s.Has x.2
  /-- An item that was not answered is in a span, or something has failed. -/
  settled : ∀ x ∈ items.zipIdx, done x = false →
    failed x.1 ∨ early x.1 = false ∧ ∃ s ∈ spans, s.Has x.2
  apart : spans.Pairwise Span.Apart

/-- The items that were answered, and the spans that are open. -/
def Tally (items : List α) (early : α → Bool) (spans : List Span) (failed : α → Prop)
    (answered : List α) : Prop :=
  ∃ done, TallyAt items early spans failed answered done

variable {items answered : List α} {early : α → Bool} {spans spans' : List Span} {s : Span}
  {failed failed' : α → Prop}

/-- The spans have every item that is not answered early. -/
def SpansCover (items : List α) (early : α → Bool) (spans : List Span) : Prop :=
  ∀ x ∈ items.zipIdx, early x.1 = false → ∃ s ∈ spans, s.Has x.2

/-- Some items are answered early. -/
theorem Tally.start (hcovers : SpansCover items early spans) (hapart : spans.Pairwise Span.Apart) :
    Tally items early spans failed (items.filter early) := by
  refine ⟨fun x => early x.1, ?_, ?_, ?_, hapart⟩
  · unfold picked
    rw [picked_eq_filter]
  · intro x _ hdone hearly
    rw [hdone] at hearly
    cases hearly
  · intro x hx hearly
    exact Or.inr ⟨hearly, hcovers x hx hearly⟩

/-- Nothing is answered early, because all of it has failed. -/
theorem Tally.start_failed (hcovers : SpansCover items early spans)
    (hapart : spans.Pairwise Span.Apart) (hfailed : ∀ x ∈ items, early x = true → failed x) :
    Tally items early spans failed [] := by
  refine ⟨fun _ => false, ?_, ?_, ?_, hapart⟩
  · unfold picked
    rw [List.filter_false, List.map_nil]
  · intro x _ hdone
    cases hdone
  · intro x hx _
    cases hearly : early x.1 with
    | true => exact Or.inl (hfailed x.1 (List.fst_mem_of_mem_zipIdx hx) hearly)
    | false => exact Or.inr ⟨rfl, hcovers x hx hearly⟩

/-- The spans come in another order. -/
theorem Tally.reorder (h : Tally items early spans failed answered) (hperm : spans.Perm spans') :
    Tally items early spans' failed answered := by
  rcases h with ⟨done, hanswered, hclosed, hsettled, hapart⟩
  refine ⟨done, hanswered, ?_, ?_, hperm.pairwise hapart fun hst => hst.symm⟩
  · intro x hx hdone hearly s hs
    exact hclosed x hx hdone hearly s (hperm.symm.subset hs)
  · intro x hx hdone
    rcases hsettled x hx hdone with hfailed | ⟨hearly, s, hs, hhas⟩
    · exact Or.inl hfailed
    · exact Or.inr ⟨hearly, s, hperm.subset hs, hhas⟩

/-- More has failed. -/
theorem Tally.weaken (h : Tally items early spans failed answered)
    (hmore : ∀ x, failed x → failed' x) : Tally items early spans failed' answered := by
  rcases h with ⟨done, hanswered, hclosed, hsettled, hapart⟩
  refine ⟨done, hanswered, hclosed, ?_, hapart⟩
  intro x hx hdone
  exact (hsettled x hx hdone).imp_left (hmore x.1)

/-- A span is closed, and its items are answered. -/
theorem Tally.answer (h : Tally items early (s :: spans) failed answered) :
    Tally items early spans failed
      (answered ++ (s.slice items).filter fun x => !early x) := by
  rcases h with ⟨done, hanswered, hclosed, hsettled, hapart⟩
  rcases List.pairwise_cons.1 hapart with ⟨hhead, hrest⟩
  refine ⟨fun x => done x || (decide (s.Has x.2) && !early x.1), ?_, ?_, ?_, hrest⟩
  · have hor : (picked items fun x => done x || (decide (s.Has x.2) && !early x.1)).Perm
        (picked items done ++ picked items fun x => decide (s.Has x.2) && !early x.1) := by
      unfold picked
      rw [← List.map_append]
      apply List.Perm.map
      apply filter_or_perm
      intro x hx hdone
      cases hearly : early x.1 with
      | true => rw [Bool.not_true, Bool.and_false]
      | false =>
          have hno := hclosed x hx hdone hearly s List.mem_cons_self
          rw [decide_eq_false hno, Bool.false_and]
    rw [picked_span items s fun x => !early x] at hor
    exact (hanswered.append_right _).trans hor.symm
  · intro x hx hdone hearly t ht hhas
    rw [Bool.or_eq_true, Bool.and_eq_true, decide_eq_true_eq] at hdone
    rcases hdone with hdone | ⟨hin, -⟩
    · exact hclosed x hx hdone hearly t (List.mem_cons_of_mem _ ht) hhas
    · exact hhead t ht x.2 hin hhas
  · intro x hx hdone
    rw [Bool.or_eq_false_iff, Bool.and_eq_false_iff, decide_eq_false_iff_not] at hdone
    rcases hdone with ⟨hundone, hout⟩
    rcases hsettled x hx hundone with hfailed | ⟨hearly, t, ht, hhas⟩
    · exact Or.inl hfailed
    · rcases List.mem_cons.1 ht with rfl | ht
      · rw [hearly, Bool.not_false] at hout
        rcases hout with hno | hfalse
        · exact absurd hhas hno
        · cases hfalse
      · exact Or.inr ⟨hearly, t, ht, hhas⟩

/-- A span is closed, and its items have failed. -/
theorem Tally.fail (h : Tally items early (s :: spans) failed answered)
    (hmore : ∀ x, failed x → failed' x)
    (hspan : ∀ x ∈ s.slice items, early x = false → failed' x) :
    Tally items early spans failed' answered := by
  rcases h with ⟨done, hanswered, hclosed, hsettled, hapart⟩
  refine ⟨done, hanswered, ?_, ?_, (List.pairwise_cons.1 hapart).2⟩
  · intro x hx hdone hearly t ht
    exact hclosed x hx hdone hearly t (List.mem_cons_of_mem _ ht)
  · intro x hx hdone
    rcases hsettled x hx hdone with hfailed | ⟨hearly, t, ht, hhas⟩
    · exact Or.inl (hmore x.1 hfailed)
    · rcases List.mem_cons.1 ht with rfl | ht
      · left
        apply hspan x.1 _ hearly
        have hin : x.1 ∈ picked items fun y => decide (t.Has y.2) && true := by
          apply List.mem_map_of_mem
          rw [List.mem_filter, Bool.and_true, decide_eq_true_eq]
          exact ⟨hx, hhas⟩
        rw [picked_span items t fun _ => true, List.filter_true] at hin
        exact hin
      · exact Or.inr ⟨hearly, t, ht, hhas⟩

/-- No item is answered twice. -/
theorem Tally.subperm (h : Tally items early spans failed answered) :
    answered.Subperm items := by
  rcases h with ⟨done, hanswered, -, -, -⟩
  apply hanswered.subperm.trans
  have hsub := (List.filter_sublist (l := items.zipIdx) (p := done)).map Prod.fst
  rw [List.zipIdx_map_fst] at hsub
  exact hsub.subperm

/-- Without spans and without failures, every item was answered. -/
theorem Tally.perm (h : Tally items early [] failed answered)
    (hnone : ∀ x ∈ items, ¬ failed x) : answered.Perm items := by
  rcases h with ⟨done, hanswered, -, hsettled, -⟩
  have hall : items.zipIdx.filter done = items.zipIdx := by
    rw [List.filter_eq_self]
    intro x hx
    cases hdone : done x with
    | true => rfl
    | false =>
        rcases hsettled x hx hdone with hfailed | ⟨-, s, hs, -⟩
        · exact absurd hfailed (hnone x.1 (List.fst_mem_of_mem_zipIdx hx))
        · cases hs
  unfold picked at hanswered
  rw [hall, List.zipIdx_map_fst] at hanswered
  exact hanswered

end Lib
end ModelStreamer
