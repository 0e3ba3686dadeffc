import Mathlib.Algebra.Order.Ring.Nat
import Mathlib.Order.Basic
import Mathlib.Data.List.Nodup
import Mathlib.Algebra.BigOperators.Group.List.Basic

/-!
# Ordered maps

A map kept as an association list in strictly ascending order of its keys, as an ordered
container of the standard library iterates it.  The order is a field, so a list with a key
out of place is not a map.

Main results:

- Definition {lit}`OrderedMap.update`: change the value of a key, starting from a default
  when the key is new.
- Theorem {lit}`OrderedMap.forall_update`: a property of all entries survives an update.
- Theorem {lit}`OrderedMap.flatMap_update_perm`: collecting lists from the entries sees
  exactly what one update added.
- Theorems {lit}`OrderedMap.split_of_mem`, {lit}`OrderedMap.split_of_new`: where a key stands.
- Theorem {lit}`OrderedMap.floor_eq_some`: the last entry that is not above a number.
-/

namespace ModelStreamer
namespace Lib

variable {κ ν : Type*} [LinearOrder κ]

/-- Change the value at a key of a sorted association list, or insert it in its place. -/
def updateEntries (k : κ) (d : ν) (f : ν → ν) : List (κ × ν) → List (κ × ν)
  | [] => [(k, f d)]
  | (k', v) :: entries =>
      if k < k' then (k, f d) :: (k', v) :: entries
      else if k = k' then (k', f v) :: entries
      else (k', v) :: updateEntries k d f entries

/-- An entry of the updated list is the changed entry, a new one, or an old one. -/
theorem mem_updateEntries {k : κ} {d : ν} {f : ν → ν} {entries : List (κ × ν)}
    {e : κ × ν} (h : e ∈ updateEntries k d f entries) :
    e = (k, f d) ∨ (∃ v, (k, v) ∈ entries ∧ e = (k, f v)) ∨ e ∈ entries := by
  induction entries with
  | nil => simpa [updateEntries] using h
  | cons entry entries ih =>
      obtain ⟨k', v⟩ := entry
      simp only [updateEntries] at h
      split at h
      · rcases List.mem_cons.1 h with rfl | hmem
        · exact Or.inl rfl
        · exact Or.inr (Or.inr hmem)
      · split at h
        · rename_i heq
          subst heq
          rcases List.mem_cons.1 h with rfl | hmem
          · exact Or.inr (Or.inl ⟨v, by simp, rfl⟩)
          · exact Or.inr (Or.inr (by simp [hmem]))
        · rcases List.mem_cons.1 h with rfl | hmem
          · exact Or.inr (Or.inr (by simp))
          · rcases ih hmem with hnew | ⟨v', hv', he⟩ | hold
            · exact Or.inl hnew
            · exact Or.inr (Or.inl ⟨v', by simp [hv'], he⟩)
            · exact Or.inr (Or.inr (by simp [hold]))

/-- The keys stay in strictly ascending order. -/
theorem updateEntries_sorted {k : κ} {d : ν} {f : ν → ν} {entries : List (κ × ν)}
    (h : entries.Pairwise fun a b => a.1 < b.1) :
    (updateEntries k d f entries).Pairwise fun a b => a.1 < b.1 := by
  induction entries with
  | nil => simp [updateEntries]
  | cons entry entries ih =>
      obtain ⟨k', v⟩ := entry
      obtain ⟨hhead, htail⟩ := List.pairwise_cons.1 h
      simp only [updateEntries]
      split
      · rename_i hlt
        refine List.pairwise_cons.2 ⟨?_, h⟩
        intro e he
        rcases List.mem_cons.1 he with rfl | hmem
        · exact hlt
        · exact hlt.trans (hhead e hmem)
      · split
        · exact List.pairwise_cons.2 ⟨hhead, htail⟩
        · rename_i hle hne
          have hlt : k' < k := lt_of_le_of_ne (not_lt.1 hle) (Ne.symm hne)
          refine List.pairwise_cons.2 ⟨?_, ih htail⟩
          intro e he
          rcases mem_updateEntries he with rfl | ⟨v', -, rfl⟩ | hold
          · exact hlt
          · exact hlt
          · exact hhead e hold

/-- A map from keys to values, listed in strictly ascending order of the keys. -/
structure OrderedMap (κ ν : Type*) [LinearOrder κ] where
  entries : List (κ × ν)
  sorted : entries.Pairwise fun a b => a.1 < b.1

namespace OrderedMap

/-- The map without entries. -/
def empty : OrderedMap κ ν :=
  ⟨[], List.Pairwise.nil⟩

/-- Change the value at a key; a key that is missing starts from the default. -/
def update (m : OrderedMap κ ν) (k : κ) (d : ν) (f : ν → ν) : OrderedMap κ ν :=
  ⟨updateEntries k d f m.entries, updateEntries_sorted m.sorted⟩

@[simp]
theorem entries_empty : (empty : OrderedMap κ ν).entries = [] :=
  rfl

/-- A property of the entries survives an update that keeps it at the changed key. -/
theorem forall_update {m : OrderedMap κ ν} {k : κ} {d : ν} {f : ν → ν}
    {P : κ × ν → Prop} (hm : ∀ e ∈ m.entries, P e) (hnew : P (k, f d))
    (hold : ∀ v, P (k, v) → P (k, f v)) : ∀ e ∈ (m.update k d f).entries, P e := by
  intro e he
  rcases mem_updateEntries he with rfl | ⟨v, hv, rfl⟩ | hmem
  · exact hnew
  · exact hold v (hm _ hv)
  · exact hm e hmem

/-- An update that adds one element to the list of its key adds it to all lists together. -/
theorem flatMap_update_perm {γ : Type*} {m : OrderedMap κ ν} {k : κ} {d : ν} {f : ν → ν}
    {g : ν → List γ} {x : γ} (hd : (g (f d)).Perm [x])
    (hf : ∀ v, (g (f v)).Perm (x :: g v)) :
    ((m.update k d f).entries.flatMap fun e => g e.2).Perm
      (x :: m.entries.flatMap fun e => g e.2) := by
  obtain ⟨entries, hsorted⟩ := m
  simp only [update]
  clear hsorted
  induction entries with
  | nil => simpa [updateEntries] using hd
  | cons entry entries ih =>
      obtain ⟨k', v⟩ := entry
      simp only [updateEntries]
      split
      · simpa using hd.append_right (g v ++ entries.flatMap fun e => g e.2)
      · split
        · simpa using (hf v).append_right (entries.flatMap fun e => g e.2)
        · simp only [List.flatMap_cons]
          exact (ih.append_left (g v)).trans List.perm_middle

/-- The keys of a map are distinct. -/
theorem nodup_keys (m : OrderedMap κ ν) : (m.entries.map Prod.fst).Nodup := by
  rw [List.Nodup, List.pairwise_map]
  exact m.sorted.imp fun h => ne_of_lt h

/-! ## Looking up, changing and erasing -/

section Lookup

variable {m : OrderedMap κ ν} {k : κ} {v : ν} {f : ν → ν} {e : κ × ν}

/-- The value of a key. -/
def find? (m : OrderedMap κ ν) (k : κ) : Option ν :=
  (m.entries.find? fun e => e.1 = k).map Prod.snd

/-- Change the value of a key that is there. -/
def modify (m : OrderedMap κ ν) (k : κ) (f : ν → ν) : OrderedMap κ ν :=
  ⟨m.entries.map fun e => if e.1 = k then (e.1, f e.2) else e, by
    rw [List.pairwise_map]
    apply m.sorted.imp
    intro a b hab
    split
    · split
      · exact hab
      · exact hab
    · split
      · exact hab
      · exact hab⟩

/-- Remove a key. -/
def erase (m : OrderedMap κ ν) (k : κ) : OrderedMap κ ν :=
  ⟨m.entries.filter fun e => e.1 ≠ k, m.sorted.filter _⟩

/-- The last entry whose key is not above a number. -/
def floor (m : OrderedMap κ ν) (k : κ) : Option (κ × ν) :=
  (m.entries.takeWhile fun e => e.1 ≤ k).getLast?

/-- A key has one value. -/
theorem eq_of_mem {v' : ν} (h : (k, v) ∈ m.entries) (h' : (k, v') ∈ m.entries) : v = v' := by
  have heq := List.inj_on_of_nodup_map (nodup_keys m) h h' rfl
  exact (Prod.mk.inj heq).2

theorem find?_eq_some : m.find? k = some v ↔ (k, v) ∈ m.entries := by
  unfold find?
  rw [Option.map_eq_some_iff]
  constructor
  · rintro ⟨⟨k', v'⟩, hfind, rfl⟩
    have hkey := List.find?_some hfind
    have hmem := List.mem_of_find?_eq_some hfind
    rw [decide_eq_true_eq] at hkey
    dsimp only at hkey
    rw [← hkey]
    exact hmem
  · intro hmem
    cases hfind : m.entries.find? fun e => e.1 = k with
    | none =>
        have hnone := List.find?_eq_none.1 hfind _ hmem
        simp at hnone
    | some e =>
        rcases e with ⟨k', v'⟩
        have hkey := List.find?_some hfind
        have hmem' := List.mem_of_find?_eq_some hfind
        rw [decide_eq_true_eq] at hkey
        dsimp only at hkey
        subst hkey
        exact ⟨_, rfl, eq_of_mem hmem' hmem⟩

theorem find?_eq_none : m.find? k = none ↔ ∀ e ∈ m.entries, e.1 ≠ k := by
  unfold find?
  rw [Option.map_eq_none_iff, List.find?_eq_none]
  simp

/-- The entries after a key was removed. -/
theorem mem_erase : e ∈ (m.erase k).entries ↔ e ∈ m.entries ∧ e.1 ≠ k := by
  unfold erase
  simp

/-- The entries after the value of a key was changed. -/
theorem mem_modify : e ∈ (m.modify k f).entries ↔
    (∃ v, (k, v) ∈ m.entries ∧ e = (k, f v)) ∨ e ∈ m.entries ∧ e.1 ≠ k := by
  unfold modify
  rw [List.mem_map]
  constructor
  · rintro ⟨⟨k', v⟩, hmem, heq⟩
    dsimp only at heq
    split at heq
    · rename_i hkey
      subst hkey
      exact Or.inl ⟨v, hmem, heq.symm⟩
    · rename_i hkey
      rw [← heq]
      exact Or.inr ⟨hmem, hkey⟩
  · rintro (⟨v, hmem, rfl⟩ | ⟨hmem, hkey⟩)
    · exact ⟨_, hmem, if_pos rfl⟩
    · exact ⟨_, hmem, if_neg hkey⟩

/-- A key that is removed may have changed before. -/
theorem erase_modify : (m.modify k f).erase k = m.erase k := by
  rcases m with ⟨entries, hsorted⟩
  unfold modify erase
  rw [OrderedMap.mk.injEq]
  dsimp only
  clear hsorted
  induction entries with
  | nil => rfl
  | cons entry entries ih =>
      rw [List.map_cons]
      by_cases hkey : entry.1 = k
      · rw [if_pos hkey, List.filter_cons_of_neg (by simpa using hkey),
          List.filter_cons_of_neg (by simpa using hkey)]
        exact ih
      · rw [if_neg hkey, List.filter_cons_of_pos (by simpa using hkey),
          List.filter_cons_of_pos (by simpa using hkey), ih]

/-- Where a key that was not there gets its value. -/
theorem split_of_new {d : ν} (hnew : ∀ e ∈ m.entries, e.1 ≠ k) :
    ∃ before after, m.entries = before ++ after ∧
      (m.update k d f).entries = before ++ (k, f d) :: after := by
  rcases m with ⟨entries, hsorted⟩
  change ∀ e ∈ entries, e.1 ≠ k at hnew
  change ∃ before after, entries = before ++ after ∧
    updateEntries k d f entries = before ++ (k, f d) :: after
  clear hsorted
  induction entries with
  | nil => exact ⟨[], [], rfl, rfl⟩
  | cons entry entries ih =>
      rcases entry with ⟨k', v⟩
      unfold updateEntries
      split
      · exact ⟨[], _, rfl, rfl⟩
      · split
        · rename_i heq
          exact absurd heq.symm (hnew _ List.mem_cons_self)
        · rcases ih fun e he => hnew e (List.mem_cons_of_mem _ he) with
            ⟨before, after, hsplit, hupdate⟩
          exact ⟨(k', v) :: before, after, by rw [hsplit]; rfl, by rw [hupdate]; rfl⟩

/-- The entries after a key that was not there got a value. -/
theorem mem_update_new {d : ν} (hnew : ∀ e ∈ m.entries, e.1 ≠ k) :
    e ∈ (m.update k d f).entries ↔ e = (k, f d) ∨ e ∈ m.entries := by
  rcases split_of_new hnew with ⟨before, after, hsplit, hupdate⟩
  rw [hsplit, hupdate, List.mem_append, List.mem_cons, List.mem_append]
  tauto

/-- Where a key stands among the entries, when its value changes and when it is removed. -/
theorem split_of_mem (h : (k, v) ∈ m.entries) (f : ν → ν) :
    ∃ before after, m.entries = before ++ (k, v) :: after ∧
      (m.modify k f).entries = before ++ (k, f v) :: after ∧
      (m.erase k).entries = before ++ after := by
  rcases List.append_of_mem h with ⟨before, after, hsplit⟩
  have hkeys := nodup_keys m
  rw [hsplit, List.map_append, List.map_cons, List.nodup_middle, ← List.map_append] at hkeys
  have hother : ∀ e ∈ before ++ after, e.1 ≠ k := by
    intro e he heq
    have hkey : e.1 ∈ (before ++ after).map Prod.fst := List.mem_map_of_mem he
    rw [heq] at hkey
    exact (List.nodup_cons.1 hkeys).1 hkey
  have hsame : ∀ entries : List (κ × ν), (∀ e ∈ entries, e.1 ≠ k) →
      (entries.map fun e => if e.1 = k then (e.1, f e.2) else e) = entries ∧
        (entries.filter fun e => e.1 ≠ k) = entries := by
    intro entries hall
    constructor
    · calc (entries.map fun e => if e.1 = k then (e.1, f e.2) else e) = entries.map id :=
          List.map_congr_left fun e he => if_neg (hall e he)
        _ = entries := List.map_id entries
    · apply List.filter_eq_self.2
      intro e he
      exact decide_eq_true (hall e he)
  rcases hsame before fun e he => hother e (List.mem_append_left _ he) with ⟨hmap, hfilter⟩
  rcases hsame after fun e he => hother e (List.mem_append_right _ he) with ⟨hmap', hfilter'⟩
  refine ⟨before, after, hsplit, ?_, ?_⟩
  · unfold modify
    dsimp only
    rw [hsplit, List.map_append, List.map_cons, hmap, hmap', if_pos rfl]
  · unfold erase
    dsimp only
    rw [hsplit, List.filter_append, hfilter, List.filter_cons_of_neg (by simp), hfilter']

/-- The last entry that is not above a number. -/
theorem floor_eq_some (h : m.floor k = some e) :
    e ∈ m.entries ∧ e.1 ≤ k ∧ ∀ other ∈ m.entries, other.1 ≤ k → other.1 ≤ e.1 := by
  rcases m with ⟨entries, hsorted⟩
  unfold floor at h
  change e ∈ entries ∧ e.1 ≤ k ∧ ∀ other ∈ entries, other.1 ≤ k → other.1 ≤ e.1
  dsimp only at h
  induction entries with
  | nil => cases h
  | cons entry entries ih =>
      rcases List.pairwise_cons.1 hsorted with ⟨hhead, htail⟩
      rw [List.takeWhile_cons] at h
      split at h
      · rename_i hle
        rw [decide_eq_true_eq] at hle
        cases hrest : (entries.takeWhile fun e => e.1 ≤ k).getLast? with
        | none =>
            -- The next entry, if there is one, is above.
            have hnil := List.getLast?_eq_none_iff.1 hrest
            rw [hnil] at h
            cases h
            refine ⟨List.mem_cons_self, hle, fun other hother hbelow => ?_⟩
            rcases List.mem_cons.1 hother with rfl | hmem
            · exact le_refl _
            · cases entries with
              | nil => cases hmem
              | cons next rest =>
                  rw [List.takeWhile_cons] at hnil
                  split at hnil
                  · cases hnil
                  · rename_i habove
                    rw [decide_eq_true_eq, not_le] at habove
                    rcases List.mem_cons.1 hmem with rfl | hlater
                    · exact absurd hbelow (not_le.2 habove)
                    · have hlt := (List.pairwise_cons.1 htail).1 _ hlater
                      exact absurd hbelow (not_le.2 (habove.trans hlt))
        | some last =>
            rw [List.getLast?_cons, hrest] at h
            cases h
            rcases ih htail hrest with ⟨hmem, hle', hmax⟩
            refine ⟨List.mem_cons_of_mem _ hmem, hle', fun other hother hbelow => ?_⟩
            rcases List.mem_cons.1 hother with rfl | hlater
            · exact le_of_lt (hhead _ hmem)
            · exact hmax other hlater hbelow
      · cases h

/-- Every entry is above a number. -/
theorem floor_eq_none (h : m.floor k = none) : ∀ e ∈ m.entries, k < e.1 := by
  rcases m with ⟨entries, hsorted⟩
  unfold floor at h
  have hnil := List.getLast?_eq_none_iff.1 h
  intro e he
  change e ∈ entries at he
  cases entries with
  | nil => cases he
  | cons first rest =>
      rw [List.takeWhile_cons] at hnil
      split at hnil
      · cases hnil
      · rename_i habove
        rw [decide_eq_true_eq, not_le] at habove
        rcases List.mem_cons.1 he with rfl | hmem
        · exact habove
        · exact habove.trans ((List.pairwise_cons.1 hsorted).1 _ hmem)

end Lookup

end OrderedMap

end Lib
end ModelStreamer
