import Mathlib.Data.List.Chain
import ModelStreamer.Lib.Spans

/-!
# Greedy packing

Items with weights are packed, in order, into parts that stay under a ceiling.  Each part takes
as many of the next items as fit.

Main results:

- Theorem {lit}`flatten_greedyParts`: the parts hold the items, in order.
- Theorem {lit}`isChain_greedyParts`: the first item of a part did not fit the part before.
- Theorem {lit}`length_greedyParts_le_iff`: no way to cut the items needs fewer parts.
- Theorem {lit}`length_greedyParts_anti`: a higher ceiling never needs more parts.
-/

namespace ModelStreamer
namespace Lib

variable {α : Type*} (weight : α → Nat) (c : Nat)

/-- How many of the items fit an empty part, taken from the front. -/
def fitting (items : List α) : Nat :=
  fitLength c 0 (items.map weight)

theorem fitting_le (items : List α) : fitting weight c items ≤ items.length := by
  have hle := fitLength_le c 0 (items.map weight)
  rwa [List.length_map] at hle

/-- The parts that are packed while the next item fits an empty part. -/
def greedyParts (items : List α) : List (List α) :=
  if fitting weight c items = 0 then []
  else
    items.take (fitting weight c items) ::
      greedyParts (items.drop (fitting weight c items))
termination_by items.length
decreasing_by
  have hle := fitting_le weight c items
  rw [List.length_drop]
  omega

variable {weight c}

@[simp]
theorem greedyParts_nil : greedyParts weight c [] = [] := by
  rw [greedyParts]
  exact if_pos rfl

/-- An item that fits an empty part is packed. -/
theorem fitting_pos {items : List α} (hne : items ≠ [])
    (hfits : ∀ item ∈ items, weight item ≤ c) : 0 < fitting weight c items := by
  cases items with
  | nil => exact absurd rfl hne
  | cons item items =>
      have hitem : 0 + weight item ≤ c := by
        rw [Nat.zero_add]
        exact hfits item List.mem_cons_self
      rw [fitting, List.map_cons, fitLength, if_pos hitem]
      exact Nat.succ_pos _

/-- The first part is what fits, and the others are those of what is left. -/
theorem greedyParts_of_ne_nil {items : List α} (hne : items ≠ [])
    (hfits : ∀ item ∈ items, weight item ≤ c) :
    greedyParts weight c items =
      items.take (fitting weight c items) ::
        greedyParts weight c (items.drop (fitting weight c items)) := by
  rw [greedyParts, if_neg (Nat.pos_iff_ne_zero.1 (fitting_pos hne hfits))]

/-- A part that stays under the ceiling, and that the next item does not fit, is what fits. -/
theorem fitting_append {part rest : List α} (hsum : (part.map weight).sum ≤ c)
    (hfull : ∀ item ∈ rest.head?, c < (part.map weight).sum + weight item) :
    fitting weight c (part ++ rest) = part.length := by
  have hused : ∀ used, used + (part.map weight).sum ≤ c →
      (∀ item ∈ rest.head?, c < used + (part.map weight).sum + weight item) →
      fitLength c used ((part ++ rest).map weight) = part.length := by
    clear hsum hfull
    induction part with
    | nil =>
        intro used _ hfull
        cases rest with
        | nil => rfl
        | cons item rest =>
            have hover := hfull item rfl
            rw [List.map_nil, List.sum_nil, Nat.add_zero] at hover
            rw [List.nil_append, List.map_cons, fitLength, if_neg (Nat.not_le.2 hover)]
            rfl
    | cons item part ih =>
        intro used hsum hfull
        rw [List.map_cons, List.sum_cons, ← Nat.add_assoc] at hsum hfull
        have hitem : used + weight item ≤ c := (Nat.le_add_right _ _).trans hsum
        rw [List.cons_append, List.map_cons, fitLength, if_pos hitem, ih _ hsum hfull]
        rfl
  apply hused 0
  · rwa [Nat.zero_add]
  · rwa [Nat.zero_add]

/-- What holds of no items, and of items of which one part was packed, holds of all. -/
theorem greedyParts_induction {motive : (items : List α) → (∀ item ∈ items, weight item ≤ c) → Prop}
    (nil : motive [] fun _ h => absurd h List.not_mem_nil)
    (part : ∀ items (_ : items ≠ []) (hfits : ∀ item ∈ items, weight item ≤ c),
      motive (items.drop (fitting weight c items))
        (fun item hitem => hfits item (List.mem_of_mem_drop hitem)) → motive items hfits)
    (items : List α) (hfits : ∀ item ∈ items, weight item ≤ c) : motive items hfits := by
  induction hlength : items.length using Nat.strong_induction_on generalizing items with
  | h n ih =>
      by_cases hne : items = []
      · subst hne
        exact nil
      · apply part items hne hfits
        have hpos := fitting_pos hne hfits
        have hshort : (items.drop (fitting weight c items)).length < n := by
          have hlen := List.length_pos_iff.2 hne
          rw [List.length_drop]
          omega
        exact ih _ hshort _ _ rfl

/-- The parts hold the items, in order. -/
theorem flatten_greedyParts {items : List α} (hfits : ∀ item ∈ items, weight item ≤ c) :
    (greedyParts weight c items).flatten = items := by
  induction items, hfits using greedyParts_induction with
  | nil => simp
  | part items hne hfits ih =>
      rw [greedyParts_of_ne_nil hne hfits, List.flatten_cons, ih, List.take_append_drop]

/-- Every part holds an item, and stays under the ceiling. -/
theorem of_mem_greedyParts {items : List α} (hfits : ∀ item ∈ items, weight item ≤ c) :
    ∀ part ∈ greedyParts weight c items, part ≠ [] ∧ (part.map weight).sum ≤ c := by
  induction items, hfits using greedyParts_induction with
  | nil => simp
  | part items hne hfits ih =>
      intro part hpart
      rw [greedyParts_of_ne_nil hne hfits] at hpart
      cases List.mem_cons.1 hpart with
      | inl hhead =>
          rw [hhead]
          constructor
          · intro hnil
            cases List.take_eq_nil_iff.1 hnil with
            | inl hzero => exact absurd hzero (Nat.pos_iff_ne_zero.1 (fitting_pos hne hfits))
            | inr hitems => exact hne hitems
          · have hsum := sum_take_fitLength (items.map weight) (Nat.zero_le c)
            rwa [← List.map_take, Nat.zero_add] at hsum
      | inr htail => exact ih part htail

/-- The first item of what is left did not fit. -/
theorem lt_sum_of_drop {items rest : List α} {item : α}
    (hdrop : items.drop (fitting weight c items) = item :: rest) :
    c < ((items.take (fitting weight c items)).map weight).sum + weight item := by
  have hlt : fitting weight c items < items.length := by
    have hlen := congrArg List.length hdrop
    rw [List.length_drop, List.length_cons] at hlen
    omega
  have hover : c < 0 + ((items.map weight).take (fitting weight c items + 1)).sum :=
    sum_take_succ_fitLength (items.map weight) (by rwa [List.length_map])
  have hitem : items[fitting weight c items]? = some item := by
    have hhead := congrArg List.head? hdrop
    rwa [List.head?_drop, List.head?_cons] at hhead
  rw [List.take_add_one, List.getElem?_map, hitem, Option.map_some, Option.toList_some,
    List.sum_append, List.sum_singleton, ← List.map_take, Nat.zero_add] at hover
  exact hover

/-- The first item of a part did not fit the part before. -/
theorem isChain_greedyParts {items : List α} (hfits : ∀ item ∈ items, weight item ≤ c) :
    (greedyParts weight c items).IsChain fun part next =>
      ∀ item ∈ next.head?, c < (part.map weight).sum + weight item := by
  induction items, hfits using greedyParts_induction with
  | nil => simp
  | part items hne hfits ih =>
      rw [greedyParts_of_ne_nil hne hfits]
      have hfits' : ∀ item ∈ items.drop (fitting weight c items), weight item ≤ c :=
        fun item hitem => hfits item (List.mem_of_mem_drop hitem)
      refine List.isChain_cons.2 ⟨fun next hnext item hitem => ?_, ih⟩
      generalize hrest : items.drop (fitting weight c items) = rest at hnext hfits'
      have hrestNe : rest ≠ [] := by
        rintro rfl
        rw [greedyParts_nil] at hnext
        cases hnext
      rw [greedyParts_of_ne_nil hrestNe hfits', List.head?_cons, Option.mem_def,
        Option.some.injEq] at hnext
      rw [← hnext] at hitem
      cases rest with
      | nil => exact absurd rfl hrestNe
      | cons first rest =>
          have hpos := fitting_pos hrestNe hfits'
          obtain ⟨n, hn⟩ := Nat.exists_eq_succ_of_ne_zero (Nat.pos_iff_ne_zero.1 hpos)
          rw [hn, List.take_succ_cons, List.head?_cons, Option.mem_def,
            Option.some.injEq] at hitem
          rw [← hitem]
          exact lt_sum_of_drop hrest

/-- There are as many parts as the walk over the weights needs. -/
theorem walkParts_greedyParts {items : List α} (hne : items ≠ [])
    (hfits : ∀ item ∈ items, weight item ≤ c) :
    walkParts c 0 (items.map weight) = some (greedyParts weight c items).length := by
  induction items, hfits using greedyParts_induction with
  | nil => exact absurd rfl hne
  | part items _ hfits ih =>
      have hle := fitting_le weight c items
      rw [greedyParts_of_ne_nil hne hfits, walkParts_eq, List.length_cons, List.length_map]
      change (if fitting weight c items = items.length then some 1
        else (walkParts c 0 ((items.map weight).drop (fitting weight c items))).map (· + 1)) = _
      by_cases hall : fitting weight c items = items.length
      · rw [if_pos hall, hall, List.drop_length, greedyParts_nil]
        rfl
      · have hrest : items.drop (fitting weight c items) ≠ [] := by
          intro hnil
          have hlen := congrArg List.length hnil
          rw [List.length_drop, List.length_nil] at hlen
          omega
        rw [if_neg hall, ← List.map_drop, ih hrest]
        rfl

/-- No way to cut the items under the ceiling needs fewer parts. -/
theorem length_greedyParts_le_iff {items : List α} (hfits : ∀ item ∈ items, weight item ≤ c)
    (n : Nat) :
    (greedyParts weight c items).length ≤ n ↔
      ∃ parts, CutInto n (items.map weight) parts ∧ largestSum parts ≤ c := by
  by_cases hne : items = []
  · subst hne
    simp only [greedyParts_nil, List.length_nil, Nat.zero_le, List.map_nil, true_iff]
    exact ⟨[], ⟨rfl, Nat.zero_le n⟩, Nat.zero_le c⟩
  · have hwalk := walkParts_greedyParts hne hfits
    constructor
    · intro hle
      have hn : 0 < n := (walkParts_pos hwalk).trans_le hle
      exact (walk_iff_cut hn).1 ⟨_, hle, hwalk⟩
    · rintro ⟨parts, hcut, hlargest⟩
      have hn : 0 < n := by
        apply Nat.pos_of_ne_zero
        rintro rfl
        have hparts := List.eq_nil_of_length_eq_zero (Nat.le_zero.1 hcut.2)
        have hflat := hcut.1
        rw [hparts, List.flatten_nil] at hflat
        exact hne (List.map_eq_nil_iff.1 hflat.symm)
      obtain ⟨m, hm, hsome⟩ := (walk_iff_cut hn).2 ⟨parts, hcut, hlargest⟩
      cases hwalk.symm.trans hsome
      exact hm

/-- A higher ceiling never needs more parts. -/
theorem length_greedyParts_anti {d : Nat} {items : List α}
    (hfits : ∀ item ∈ items, weight item ≤ c) (hle : c ≤ d) :
    (greedyParts weight d items).length ≤ (greedyParts weight c items).length := by
  have hfits' : ∀ item ∈ items, weight item ≤ d := fun item hitem => (hfits item hitem).trans hle
  obtain ⟨parts, hcut, hlargest⟩ := (length_greedyParts_le_iff hfits _).1 le_rfl
  exact (length_greedyParts_le_iff hfits' _).2 ⟨parts, hcut, hlargest.trans hle⟩

end Lib
end ModelStreamer
