import Mathlib.Data.List.Nodup
import Mathlib.Tactic.Common

/-!
# Tables

A table is a list of entries under numbers.  It is read with {lit}`lookup`, one entry is
changed with {lit}`update` and one is taken out with {lit}`remove`.

Main results:

- Theorems {lit}`lookup_update`, {lit}`lookup_remove`, {lit}`lookup_concat`: reading a table
  back after an operation.
-/

namespace ModelStreamer
namespace Lib

variable {α : Type*}

/-- A list of entries under numbers. -/
abbrev Table (α : Type*) := List (Nat × α)

namespace Table

/-- The entry under a number. -/
def lookup : Table α → Nat → Option α
  | [], _ => none
  | (k', v) :: t, k => if k' = k then some v else lookup t k

/-- The numbers in use. -/
def keys (t : Table α) : List Nat :=
  t.map Prod.fst

/-- Change the entry under a number. -/
def update (t : Table α) (k : Nat) (f : α → α) : Table α :=
  t.map fun e => if e.1 = k then (e.1, f e.2) else e

/-- Take the entry under a number out. -/
def remove (t : Table α) (k : Nat) : Table α :=
  t.filter fun e => e.1 ≠ k

/-! ## Reading back -/

@[simp]
theorem lookup_nil (k : Nat) : lookup ([] : Table α) k = none :=
  rfl

theorem lookup_cons (e : Nat × α) (t : Table α) (k : Nat) :
    lookup (e :: t) k = if e.1 = k then some e.2 else lookup t k :=
  rfl

/-- An entry that is found is in the table. -/
theorem mem_of_lookup {t : Table α} {k : Nat} {v : α} (h : lookup t k = some v) :
    (k, v) ∈ t := by
  induction t with
  | nil => simp at h
  | cons e t ih =>
      rw [lookup_cons] at h
      split at h
      · rename_i heq
        obtain rfl := Option.some.inj h
        rw [← heq]
        exact List.mem_cons_self
      · exact List.mem_cons_of_mem _ (ih h)

/-- In a table with distinct numbers every entry is found. -/
theorem lookup_of_mem {t : Table α} (hnodup : t.keys.Nodup) {k : Nat} {v : α}
    (h : (k, v) ∈ t) : lookup t k = some v := by
  induction t with
  | nil => simp at h
  | cons e t ih =>
      have hcons : e.1 ∉ keys t ∧ (keys t).Nodup := List.nodup_cons.1 hnodup
      rw [lookup_cons]
      rcases List.mem_cons.1 h with heq | hmem
      · rw [← heq, if_pos rfl]
      · have hne : e.1 ≠ k := by
          rintro rfl
          exact hcons.1 (List.mem_map.2 ⟨_, hmem, rfl⟩)
        rw [if_neg hne]
        exact ih hcons.2 hmem

theorem mem_keys_iff {t : Table α} {k : Nat} : k ∈ t.keys ↔ ∃ v, lookup t k = some v := by
  induction t with
  | nil => simp [keys]
  | cons e t ih =>
      rw [keys, List.map_cons, List.mem_cons, lookup_cons]
      by_cases heq : e.1 = k
      · simp [heq]
      · rw [if_neg heq, ← ih]
        simp [keys, Ne.symm heq]

theorem lookup_eq_none_iff {t : Table α} {k : Nat} : lookup t k = none ↔ k ∉ t.keys := by
  rw [mem_keys_iff]
  cases h : lookup t k <;> simp

@[simp]
theorem keys_update (t : Table α) (k : Nat) (f : α → α) : (t.update k f).keys = t.keys := by
  unfold keys update
  rw [List.map_map]
  refine List.map_congr_left fun e _ => ?_
  simp only [Function.comp_apply]
  split <;> rfl

theorem lookup_update (t : Table α) (k : Nat) (f : α → α) (j : Nat) :
    lookup (t.update k f) j = if j = k then (lookup t k).map f else lookup t j := by
  induction t with
  | nil => simp [update]
  | cons e t ih =>
      have hcons : update (e :: t) k f =
          (if e.1 = k then (e.1, f e.2) else e) :: update t k f := rfl
      rw [hcons, lookup_cons, ih, lookup_cons, lookup_cons]
      by_cases hek : e.1 = k <;> by_cases hjk : j = k
      · simp [hek, hjk]
      · simp [hek, hjk, Ne.symm hjk]
      · simp [hek, hjk]
      · simp [hek, hjk]

theorem keys_remove (t : Table α) (k : Nat) : (t.remove k).keys = t.keys.filter (· ≠ k) := by
  unfold keys remove
  rw [List.filter_map]
  rfl

theorem lookup_remove (t : Table α) (k j : Nat) :
    lookup (t.remove k) j = if j = k then none else lookup t j := by
  induction t with
  | nil => simp [remove]
  | cons e t ih =>
      by_cases hek : e.1 = k
      · have hcons : remove (e :: t) k = remove t k := by simp [remove, hek]
        rw [hcons, ih, lookup_cons]
        by_cases hjk : j = k
        · simp [hjk]
        · simp [hjk, hek, Ne.symm hjk]
      · have hcons : remove (e :: t) k = e :: remove t k := by simp [remove, hek]
        rw [hcons, lookup_cons, ih, lookup_cons]
        by_cases hjk : j = k
        · simp [hjk, hek]
        · simp [hjk]

/-- One more entry under a number that is not in use. -/
theorem lookup_concat {t : Table α} {k : Nat} (hk : k ∉ keys t) (v : α) (j : Nat) :
    lookup (t ++ [(k, v)]) j = if j = k then some v else lookup t j := by
  induction t with
  | nil =>
      rw [List.nil_append, lookup_cons]
      by_cases hjk : j = k
      · simp [hjk]
      · simp [hjk, Ne.symm hjk]
  | cons e t ih =>
      have hcons : k ≠ e.1 ∧ k ∉ keys t := by
        simpa [keys] using hk
      rw [List.cons_append, lookup_cons, ih hcons.2, lookup_cons]
      by_cases hek : e.1 = j
      · have hjk : j ≠ k := fun heq => hcons.1 (heq ▸ hek.symm)
        simp [hek, hjk]
      · simp [hek]

/-- Reading two tables one after the other. -/
theorem lookup_append (t s : Table α) (k : Nat) :
    lookup (t ++ s) k = (lookup t k).or (lookup s k) := by
  induction t with
  | nil => rfl
  | cons e t ih =>
      rw [List.cons_append, lookup_cons, lookup_cons, ih]
      split
      · rfl
      · rfl

/-! ## Counting -/

theorem remove_eq_self {t : Table α} {k : Nat} (h : k ∉ keys t) : t.remove k = t := by
  unfold remove
  refine List.filter_eq_self.2 fun e he => ?_
  have hmem : e.1 ∈ t.keys := List.mem_map_of_mem he
  simp only [ne_eq, decide_not, Bool.not_eq_true', decide_eq_false_iff_not]
  rintro rfl
  exact h hmem

theorem update_eq_self {t : Table α} {k : Nat} (h : k ∉ keys t) (f : α → α) :
    t.update k f = t := by
  unfold update
  conv_rhs => rw [← List.map_id t]
  refine List.map_congr_left fun e he => ?_
  have hmem : e.1 ∈ t.keys := List.mem_map_of_mem he
  have hne : e.1 ≠ k := by
    rintro rfl
    exact h hmem
  simp [hne]

/-- The numbers in use stay distinct when an entry under a new one is added. -/
theorem nodup_keys_concat {t : Table α} (hnodup : t.keys.Nodup) {k : Nat} (hk : k ∉ keys t)
    (v : α) : keys (t ++ [(k, v)]) |>.Nodup := by
  have hkeys : keys (t ++ [(k, v)]) = keys t ++ [k] := by simp [keys]
  rw [hkeys]
  exact List.nodup_append'.2 ⟨hnodup, List.nodup_singleton k, List.disjoint_singleton.2 hk⟩

/-- The entries of a table are one of them and the others. -/
theorem perm_remove {t : Table α} (hnodup : t.keys.Nodup) {k : Nat} {v : α}
    (h : lookup t k = some v) : t.Perm ((k, v) :: t.remove k) := by
  induction t with
  | nil => simp at h
  | cons e t ih =>
      have hcons : e.1 ∉ keys t ∧ (keys t).Nodup := List.nodup_cons.1 hnodup
      rw [lookup_cons] at h
      by_cases hek : e.1 = k
      · rw [if_pos hek] at h
        obtain rfl := Option.some.inj h
        have hrest : remove (e :: t) k = t := by
          have hself := remove_eq_self (hek ▸ hcons.1 : k ∉ keys t)
          rw [← hself]
          simp [remove, hek]
        rw [hrest, ← hek]
      · rw [if_neg hek] at h
        have hrest : remove (e :: t) k = e :: remove t k := by simp [remove, hek]
        rw [hrest]
        exact ((ih hcons.2 h).cons e).trans (List.Perm.swap _ _ _)

/-- An entry that was changed is taken out like the one it replaced. -/
theorem remove_update (t : Table α) (k : Nat) (f : α → α) : (t.update k f).remove k = t.remove k := by
  induction t with
  | nil => rfl
  | cons e t ih =>
      have hcons : update (e :: t) k f = (if e.1 = k then (e.1, f e.2) else e) :: update t k f :=
        rfl
      by_cases hek : e.1 = k
      · rw [hcons, if_pos hek]
        unfold remove at ih ⊢
        rw [List.filter_cons_of_neg (by simp [hek]), List.filter_cons_of_neg (by simp [hek]), ih]
      · rw [hcons, if_neg hek]
        unfold remove at ih ⊢
        rw [List.filter_cons_of_pos (by simp [hek]), List.filter_cons_of_pos (by simp [hek]), ih]

/-- The entries of a table in which one was changed. -/
theorem perm_update {t : Table α} (hnodup : t.keys.Nodup) {k : Nat} {v : α}
    (h : lookup t k = some v) (f : α → α) : (t.update k f).Perm ((k, f v) :: t.remove k) := by
  have hlookup : lookup (t.update k f) k = some (f v) := by
    rw [lookup_update, if_pos rfl, h, Option.map_some]
  have hperm := perm_remove ((keys_update t k f).symm ▸ hnodup) hlookup
  rwa [remove_update] at hperm

/-- What a changed entry has in common with the one it replaced is the same in the table. -/
theorem map_update {β : Type*} {t : Table α} (hnodup : t.keys.Nodup) {k : Nat} {v : α}
    (h : lookup t k = some v) (f : α → α) (g : α → β) (hsame : g (f v) = g v) :
    ((t.update k f).map fun e => g e.2) = t.map fun e => g e.2 := by
  unfold update
  rw [List.map_map]
  apply List.map_congr_left
  intro e he
  by_cases hek : e.1 = k
  · have hlookup := lookup_of_mem hnodup he
    rw [hek, h] at hlookup
    rw [Function.comp_apply, if_pos hek, ← Option.some.inj hlookup, hsame]
  · rw [Function.comp_apply, if_neg hek]

/-- One change after the other. -/
theorem update_update (t : Table α) (k : Nat) (f g : α → α) :
    (t.update k f).update k g = t.update k fun v => g (f v) := by
  unfold update
  rw [List.map_map]
  apply List.map_congr_left
  intro e _
  by_cases hek : e.1 = k
  · rw [Function.comp_apply, if_pos hek, if_pos hek, if_pos hek]
  · rw [Function.comp_apply, if_neg hek, if_neg hek, if_neg hek]

/-- Changes that agree on the entry. -/
theorem update_congr {t : Table α} (hnodup : t.keys.Nodup) {k : Nat} {v : α}
    (h : lookup t k = some v) {f g : α → α} (hfg : f v = g v) : t.update k f = t.update k g := by
  unfold update
  apply List.map_congr_left
  intro e he
  by_cases hek : e.1 = k
  · have hlookup := lookup_of_mem hnodup he
    rw [hek, h] at hlookup
    rw [if_pos hek, if_pos hek, ← Option.some.inj hlookup, hfg]
  · rw [if_neg hek, if_neg hek]

/-- A change of the last entry. -/
theorem update_concat {t : Table α} {k : Nat} (hk : k ∉ keys t) (v : α) (f : α → α) :
    update (t ++ [(k, v)]) k f = t ++ [(k, f v)] := by
  have hrest : t.update k f = t := update_eq_self hk f
  unfold update at hrest ⊢
  rw [List.map_append, hrest, List.map_singleton, if_pos rfl]

theorem update_id (t : Table α) (k : Nat) : (t.update k fun v => v) = t := by
  unfold update
  conv_rhs => rw [← List.map_id t]
  apply List.map_congr_left
  intro e _
  split <;> rfl

/-- The numbers in use stay distinct when an entry is taken out. -/
theorem nodup_keys_remove {t : Table α} (hnodup : t.keys.Nodup) (k : Nat) :
    (t.remove k).keys.Nodup := by
  rw [keys_remove]
  exact hnodup.filter _

end Table

end Lib
end ModelStreamer
