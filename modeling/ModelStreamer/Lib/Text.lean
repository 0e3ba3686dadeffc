import Mathlib.Data.List.DropRight
import Mathlib.Tactic.Common
import Mathlib.Tactic.SplitIfs

/-!
# Trimming and splitting text

Main results:

- Theorem {lit}`trim_trim`: text is trimmed once.
- Theorem {lit}`map_trim_splitOn_trim`: trimming text before it is split makes no difference to
  the trimmed pieces.
- Theorem {lit}`splitOn_flatMap`: pieces that are joined are split again.
- Theorem {lit}`findFrom_cases`: the first place of a separator.
- Theorem {lit}`toLower_toLower`: text is lowered once.
-/

namespace ModelStreamer
namespace Lib

variable {α : Type*} {blank : α → Bool} {text : List α}

/-! ## Trimming -/

/-- Drop the blanks at both ends. -/
def trim (blank : α → Bool) (text : List α) : List α :=
  (text.dropWhile blank).rdropWhile blank

/-- Blanks in front are dropped. -/
theorem trim_append_left {front : List α} (hfront : ∀ x ∈ front, blank x) :
    trim blank (front ++ text) = trim blank text := by
  unfold trim
  rw [List.dropWhile_append_of_pos hfront]

/-- Blanks at the end of the text are dropped. -/
theorem rdropWhile_append_of_pos {back : List α} (hback : ∀ x ∈ back, blank x) :
    (text ++ back).rdropWhile blank = text.rdropWhile blank := by
  unfold List.rdropWhile
  rw [List.reverse_append, List.dropWhile_append_of_pos]
  exact fun x hx => hback x (List.mem_reverse.1 hx)

/-- Blanks at the back are dropped. -/
theorem trim_append_right {back : List α} (hback : ∀ x ∈ back, blank x) :
    trim blank (text ++ back) = trim blank text := by
  unfold trim
  rw [List.dropWhile_append]
  split
  · rename_i hnone
    rw [List.isEmpty_iff.1 hnone, List.dropWhile_eq_nil_iff.2 hback]
  · exact rdropWhile_append_of_pos hback

/-- What is dropped are blanks. -/
theorem exists_trim (blank : α → Bool) (text : List α) :
    ∃ front back, text = front ++ trim blank text ++ back ∧ (∀ x ∈ front, blank x) ∧
      ∀ x ∈ back, blank x := by
  refine ⟨text.takeWhile blank, (text.dropWhile blank).rtakeWhile blank, ?_, ?_, ?_⟩
  · unfold trim
    rw [List.append_assoc, List.rdropWhile_append_rtakeWhile, List.takeWhile_append_dropWhile]
  · exact fun x hx => List.mem_takeWhile_imp hx
  · exact fun x hx => List.mem_rtakeWhile_imp hx

/-- What is left was there before. -/
theorem mem_of_mem_trim {x : α} (hx : x ∈ trim blank text) : x ∈ text := by
  obtain ⟨front, back, htext, -, -⟩ := exists_trim blank text
  rw [htext]
  exact List.mem_append_left _ (List.mem_append_right _ hx)

/-- Text without blanks at its ends is not changed. -/
theorem trim_of_ends (hhead : ∀ x ∈ text.head?, blank x = false)
    (hlast : ∀ x ∈ text.getLast?, blank x = false) : trim blank text = text := by
  have hfront : text.dropWhile blank = text := by
    cases text with
    | nil => rfl
    | cons x text => exact List.dropWhile_cons_of_neg (by simp [hhead x rfl])
  unfold trim
  rw [hfront, List.rdropWhile_eq_self_iff]
  intro hne
  rw [hlast _ (List.getLast?_eq_some_getLast hne)]
  exact Bool.false_ne_true

/-- Trimmed text has no blanks at its ends. -/
theorem ends_trim (blank : α → Bool) (text : List α) :
    (∀ x ∈ (trim blank text).head?, blank x = false) ∧
      ∀ x ∈ (trim blank text).getLast?, blank x = false := by
  constructor
  · intro x hx
    obtain ⟨rest, hrest⟩ := List.head?_eq_some_iff.1 hx
    have hsub : trim blank text <+: text.dropWhile blank := List.rdropWhile_prefix _ _
    obtain ⟨back, hback⟩ := hsub
    rw [hrest, List.cons_append] at hback
    have hhead := List.head?_dropWhile_not blank text
    rw [← hback] at hhead
    exact hhead
  · intro x hx
    have hne : trim blank text ≠ [] := by
      intro hnil
      rw [hnil] at hx
      cases hx
    rw [List.getLast?_eq_some_getLast hne] at hx
    cases hx
    have hlast := List.rdropWhile_last_not blank (text.dropWhile blank) hne
    exact Bool.eq_false_iff.2 hlast

/-- Text is trimmed once. -/
@[simp]
theorem trim_trim : trim blank (trim blank text) = trim blank text :=
  trim_of_ends (ends_trim blank text).1 (ends_trim blank text).2

/-! ## Splitting -/

section Split

variable [DecidableEq α] {separator : α}

/-- Text in front of the first piece. -/
theorem splitOn_append_left {front : List α} (hfront : separator ∉ front) :
    (front ++ text).splitOn separator = (text.splitOn separator).modifyHead (front ++ ·) := by
  induction front with
  | nil =>
      cases hsplit : text.splitOn separator with
      | nil => exact absurd hsplit (List.splitOn_ne_nil _ _)
      | cons piece pieces => simp [hsplit]
  | cons x front ih =>
      have hx : (x == separator) = false :=
        beq_false_of_ne fun heq => hfront (heq ▸ List.mem_cons_self)
      rw [List.cons_append, List.splitOn_cons_eq_if_modifyHead, hx,
        ih fun hmem => hfront (List.mem_cons_of_mem x hmem)]
      cases text.splitOn separator with
      | nil => rfl
      | cons piece pieces => rfl

/-- Blanks after the last piece, which no piece but the last gets. -/
theorem splitOn_append_right {back : List α} (hback : separator ∉ back) :
    ∃ pieces last, text.splitOn separator = pieces ++ [last] ∧
      (text ++ back).splitOn separator = pieces ++ [last ++ back] := by
  induction text with
  | nil => exact ⟨[], [], rfl, List.splitOn_eq_singleton hback⟩
  | cons x text ih =>
      obtain ⟨pieces, last, htext, hboth⟩ := ih
      rw [List.cons_append, List.splitOn_cons_eq_if_modifyHead,
        List.splitOn_cons_eq_if_modifyHead, htext, hboth]
      by_cases hx : (x == separator) = true
      · rw [if_pos hx, if_pos hx]
        exact ⟨[] :: pieces, last, rfl, rfl⟩
      · rw [if_neg hx, if_neg hx]
        cases pieces with
        | nil => exact ⟨[], x :: last, rfl, rfl⟩
        | cons piece pieces => exact ⟨(x :: piece) :: pieces, last, rfl, rfl⟩

/-- Blanks at the ends of the text do not show in the trimmed pieces. -/
theorem map_trim_splitOn_trim (hseparator : blank separator = false) :
    ((trim blank text).splitOn separator).map (trim blank) =
      (text.splitOn separator).map (trim blank) := by
  have hnot : ∀ {part : List α}, (∀ x ∈ part, blank x) → separator ∉ part := by
    intro part hpart hmem
    rw [hpart separator hmem] at hseparator
    cases hseparator
  obtain ⟨front, back, htext, hfront, hback⟩ := exists_trim blank text
  obtain ⟨pieces, last, htrim, hboth⟩ :=
    @splitOn_append_right α (trim blank text) _ separator back (hnot hback)
  conv_rhs => rw [htext, List.append_assoc, splitOn_append_left (hnot hfront), hboth]
  rw [htrim]
  cases pieces with
  | nil => simp [trim_append_left hfront, trim_append_right hback]
  | cons piece pieces => simp [trim_append_left hfront, trim_append_right hback]

/-- No piece has a separator. -/
theorem separator_notMem_of_mem_splitOn {piece : List α} (hpiece : piece ∈ text.splitOn separator) :
    separator ∉ piece := by
  induction text generalizing piece with
  | nil =>
      rw [List.mem_singleton.1 hpiece]
      exact List.not_mem_nil
  | cons x text ih =>
      rw [List.splitOn_cons_eq_if_modifyHead] at hpiece
      split at hpiece
      · cases List.mem_cons.1 hpiece with
        | inl hnil =>
            rw [hnil]
            exact List.not_mem_nil
        | inr htail => exact ih htail
      · rename_i hx
        cases hsplit : text.splitOn separator with
        | nil => exact absurd hsplit (List.splitOn_ne_nil _ _)
        | cons first pieces =>
            rw [hsplit] at ih hpiece
            cases List.mem_cons.1 hpiece with
            | inl hfirst =>
                rw [hfirst, List.mem_cons]
                rintro (heq | hmem)
                · exact hx (beq_iff_eq.2 heq.symm)
                · exact ih List.mem_cons_self hmem
            | inr htail => exact ih (List.mem_cons_of_mem first htail)

/-- Pieces that are joined by separators are split again. -/
theorem splitOn_flatMap {β : Type*} {piece : β → List α} {first : List α} {items : List β}
    (hfirst : separator ∉ first) (hpieces : ∀ item ∈ items, separator ∉ piece item) :
    (first ++ items.flatMap fun item => separator :: piece item).splitOn separator =
      first :: items.map piece := by
  induction items generalizing first with
  | nil => simpa using List.splitOn_eq_singleton hfirst
  | cons item items ih =>
      rw [List.flatMap_cons, List.cons_append, List.splitOn_append_cons_self_of_not_mem hfirst,
        ih (hpieces item List.mem_cons_self) fun other hother =>
          hpieces other (List.mem_cons_of_mem item hother), List.map_cons]

omit [DecidableEq α] in
/-- The first separator divides the text in one way only. -/
theorem append_separator_inj {front front' back back' : List α} (hfront : separator ∉ front)
    (hfront' : separator ∉ front')
    (heq : front ++ separator :: back = front' ++ separator :: back') :
    front = front' ∧ back = back' := by
  induction front generalizing front' with
  | nil =>
      cases front' with
      | nil => exact ⟨rfl, (List.cons.inj heq).2⟩
      | cons x front' =>
          exact absurd ((List.cons.inj heq).1 ▸ List.mem_cons_self) hfront'
  | cons x front ih =>
      cases front' with
      | nil => exact absurd ((List.cons.inj heq).1 ▸ List.mem_cons_self) hfront
      | cons y front' =>
          obtain ⟨rfl, htail⟩ := List.cons.inj heq
          obtain ⟨rfl, hback⟩ := ih (fun h => hfront (List.mem_cons_of_mem x h))
            (fun h => hfront' (List.mem_cons_of_mem x h)) htail
          exact ⟨rfl, hback⟩

/-! ## Searching -/

/-- The first place of a separator from a position on. -/
def findFrom (separator : α) (text : List α) (begin : Nat) : Option Nat :=
  ((text.drop begin).findIdx? (· == separator)).map (begin + ·)

/-- What a search finds. -/
theorem findFrom_cases (separator : α) (text : List α) (begin : Nat) :
    (findFrom separator text begin = none ∧ separator ∉ text.drop begin) ∨
      ∃ piece rest, text.drop begin = piece ++ separator :: rest ∧ separator ∉ piece ∧
        findFrom separator text begin = some (begin + piece.length) := by
  unfold findFrom
  cases hfind : (text.drop begin).findIdx? (· == separator) with
  | none =>
      left
      refine ⟨rfl, fun hmem => ?_⟩
      have hnone := List.findIdx?_eq_none_iff.1 hfind separator hmem
      simp at hnone
  | some i =>
      right
      obtain ⟨hi, hself, hbefore⟩ := List.findIdx?_eq_some_iff_getElem.1 hfind
      refine ⟨(text.drop begin).take i, (text.drop begin).drop (i + 1), ?_, ?_, ?_⟩
      · have hcons := List.drop_eq_getElem_cons hi
        rw [beq_iff_eq.1 hself] at hcons
        rw [← hcons, List.take_append_drop]
      · intro hmem
        obtain ⟨j, hj, hget⟩ := List.getElem_of_mem hmem
        rw [List.length_take] at hj
        rw [List.getElem_take] at hget
        have hne := hbefore j (by omega)
        rw [hget] at hne
        simp at hne
      · rw [Option.map_some, List.length_take, Nat.min_eq_left hi.le]

end Split

/-! ## Lower case -/

/-- The code of a letter in lower case. -/
theorem toNat_toLower (c : Char) :
    c.toLower.toNat = if 65 ≤ c.toNat ∧ c.toNat ≤ 90 then c.toNat + 32 else c.toNat := by
  have hiff : (c.val ≥ 'A'.val ∧ c.val ≤ 'Z'.val) ↔ (65 ≤ c.toNat ∧ c.toNat ≤ 90) := by
    rw [ge_iff_le, UInt32.le_iff_toNat_le, UInt32.le_iff_toNat_le]
    exact Iff.rfl
  unfold Char.toLower
  by_cases hupper : 65 ≤ c.toNat ∧ c.toNat ≤ 90
  · rw [dif_pos (hiff.2 hupper), if_pos hupper]
    change (c.val + ('a'.val - 'A'.val)).toNat = c.val.toNat + 32
    rw [UInt32.toNat_add]
    have hle : c.val.toNat ≤ 90 := hupper.2
    have hshift : ('a'.val - 'A'.val).toNat = 32 := by decide
    omega
  · rw [dif_neg fun h => hupper (hiff.1 h), if_neg hupper]

/-- Lower case stays as it is. -/
@[simp]
theorem toLower_toLower (c : Char) : c.toLower.toLower = c.toLower := by
  apply Char.toNat_inj.1
  rw [toNat_toLower, toNat_toLower]
  split_ifs <;> omega

/-- What is not a letter in lower case was not a letter before. -/
theorem eq_of_toLower_eq {c d : Char} (hd : d.toNat < 97) (h : c.toLower = d) : c = d := by
  apply Char.toNat_inj.1
  have hcode := toNat_toLower c
  rw [h] at hcode
  split at hcode <;> omega

end Lib
end ModelStreamer
