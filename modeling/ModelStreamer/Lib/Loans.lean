import Mathlib.Data.List.Nodup
import Mathlib.Data.List.Perm.Basic
import Mathlib.Tactic.Common

/-!
# Loans

A pool lends items.  A lent item is held under a key, or it was passed on to somebody who gives
it back, or it is retired and never comes back, and it is in one of these places only.  An item
may be in use under a key, by one user: then it is held under that key or retired, so an item
that is given back is not in use.

Main results:

- Definition {lit}`Loans.Sound`: what holds of the loans.
- Theorems {lit}`Loans.Sound.unused_of_held`, {lit}`Loans.Sound.unused_of_passed`: which items
  are not in use.
- Theorems {lit}`Loans.Sound.borrow`, {lit}`Loans.Sound.use`, {lit}`Loans.Sound.pass`,
  {lit}`Loans.Sound.giveBack`, {lit}`Loans.Sound.retire`: the moves of an item.
-/

namespace ModelStreamer
namespace Lib

variable {κ β : Type*}

/-- Where the items that a pool has lent are. -/
structure Loans (κ β : Type*) where
  held : List (κ × β)
  passed : List β
  retired : List β
  used : List (κ × β)
  lent : List β

namespace Loans

/-- The items that have a place. -/
def away (l : Loans κ β) : List β :=
  l.held.map Prod.snd ++ l.passed ++ l.retired

/-- What holds of the loans. -/
structure Sound (l : Loans κ β) : Prop where
  /-- An item is in one place. -/
  distinct : l.away.Nodup
  lent : ∀ x ∈ l.away, x ∈ l.lent
  /-- An item in use is held under the key of its user, or retired. -/
  used : ∀ u ∈ l.used, u ∈ l.held ∨ u.2 ∈ l.retired
  /-- An item has one user. -/
  apart : (l.used.map Prod.snd).Nodup

variable {l : Loans κ β} {k : κ} {x : β} {before after : List (κ × β)}

/-! ## Items that are not in use -/

/-- A retired item is neither held nor passed on. -/
theorem Sound.not_retired (h : l.Sound) (hx : x ∈ l.held.map Prod.snd ++ l.passed) :
    x ∉ l.retired := by
  intro hretired
  exact (List.nodup_append.1 h.distinct).2.2 x hx x hretired rfl

/-- An item is held under one key. -/
theorem Sound.held_key (h : l.Sound) {k' : κ} (hk : (k, x) ∈ l.held) (hk' : (k', x) ∈ l.held) :
    k = k' := by
  have hheld := (List.nodup_append.1 (List.nodup_append.1 h.distinct).1).1
  have heq := List.inj_on_of_nodup_map hheld hk hk' rfl
  exact congrArg Prod.fst heq

/-- An item that is held under a key without users is not in use. -/
theorem Sound.unused_of_held (h : l.Sound) (hheld : (k, x) ∈ l.held)
    (hfree : ∀ u ∈ l.used, u.1 ≠ k) : ∀ u ∈ l.used, u.2 ≠ x := by
  rintro ⟨k', x'⟩ hu rfl
  rcases h.used _ hu with hheld' | hretired
  · exact hfree _ hu (h.held_key hheld' hheld)
  · apply h.not_retired _ hretired
    exact List.mem_append_left _ (List.mem_map.2 ⟨_, hheld, rfl⟩)

/-- An item that is held is not in use if its holder does not use it. -/
theorem Sound.unused_of_holders (h : l.Sound) (hx : x ∈ l.held.map Prod.snd)
    (hfree : ∀ u ∈ l.used, u ∉ l.held) : ∀ u ∈ l.used, u.2 ≠ x := by
  rintro u hu rfl
  rcases h.used _ hu with hheld | hretired
  · exact hfree u hu hheld
  · exact h.not_retired (List.mem_append_left _ hx) hretired

/-- An item that was passed on is not in use. -/
theorem Sound.unused_of_passed (h : l.Sound) (hpassed : x ∈ l.passed) :
    ∀ u ∈ l.used, u.2 ≠ x := by
  rintro ⟨k', x'⟩ hu rfl
  rcases h.used _ hu with hheld | hretired
  · have hapart := (List.nodup_append.1 (List.nodup_append.1 h.distinct).1).2.2
    have hmem : x' ∈ l.held.map Prod.snd := List.mem_map.2 ⟨_, hheld, rfl⟩
    exact hapart x' hmem x' hpassed rfl
  · exact h.not_retired (List.mem_append_right _ hpassed) hretired

/-- An item in use is lent. -/
theorem Sound.lent_of_used (h : l.Sound) {u : κ × β} (hu : u ∈ l.used) : u.2 ∈ l.lent := by
  apply h.lent
  unfold away
  rw [List.mem_append, List.mem_append]
  rcases h.used u hu with hheld | hretired
  · exact Or.inl (Or.inl (List.mem_map_of_mem hheld))
  · exact Or.inr hretired

/-! ## Moves -/

/-- Fewer items are in use. -/
theorem Sound.fewer {used : List (κ × β)} (h : l.Sound) (hsub : used.Sublist l.used) :
    Sound { l with used } :=
  ⟨h.distinct, h.lent, fun u hu => h.used u (hsub.subset hu), h.apart.sublist (hsub.map _)⟩

/-- An item that is held under a key without users comes into use. -/
theorem Sound.use (h : l.Sound) (hheld : (k, x) ∈ l.held) (hfree : ∀ u ∈ l.used, u.1 ≠ k) :
    Sound { l with used := l.used ++ [(k, x)] } := by
  have hunused := h.unused_of_held hheld hfree
  refine ⟨h.distinct, h.lent, ?_, ?_⟩
  · intro u hu
    rcases List.mem_append.1 hu with hold | hnew
    · exact h.used u hold
    · rw [List.mem_singleton.1 hnew]
      exact Or.inl hheld
  · rw [List.map_append, List.nodup_append]
    refine ⟨h.apart, List.nodup_singleton _, ?_⟩
    intro y hy y' hy' heq
    rcases List.mem_map.1 hy with ⟨u, hu, rfl⟩
    rw [List.map_cons, List.map_nil, List.mem_singleton] at hy'
    exact hunused u hu (heq.trans hy')

/-- Keys without users let their items go. -/
theorem Sound.drop {held : List (κ × β)} (h : l.Sound) (hsub : held.Sublist l.held)
    (hkeep : ∀ u ∈ l.used, u ∈ l.held → u ∈ held) : Sound { l with held } := by
  have haway : (held.map Prod.snd ++ l.passed ++ l.retired).Sublist l.away :=
    ((hsub.map _).append (List.Sublist.refl _)).append (List.Sublist.refl _)
  refine ⟨h.distinct.sublist haway, fun y hy => h.lent y (haway.subset hy), ?_, h.apart⟩
  intro u hu
  rcases h.used u hu with hheld | hretired
  · exact Or.inl (hkeep u hu hheld)
  · exact Or.inr hretired

/-- A key without users lets its item go. -/
theorem Sound.drop_one (h : l.Sound) (hheld : l.held = before ++ (k, x) :: after)
    (hfree : ∀ u ∈ l.used, u.1 ≠ k) : Sound { l with held := before ++ after } := by
  apply h.drop
  · rw [hheld]
    exact (List.Sublist.refl before).append (List.sublist_cons_self _ _)
  · intro u hu hmem
    rw [hheld, List.mem_append, List.mem_cons] at hmem
    rw [List.mem_append]
    rcases hmem with hbefore | heq | hafter
    · exact Or.inl hbefore
    · exact absurd (congrArg Prod.fst heq) (hfree u hu)
    · exact Or.inr hafter

/-- The item that a key lets go has no other place. -/
theorem Sound.not_away_of_held (h : l.Sound) (hheld : l.held = before ++ (k, x) :: after) :
    x ∉ away { l with held := before ++ after } := by
  have hperm : l.away.Perm (x :: away { l with held := before ++ after }) := by
    unfold away
    rw [hheld, List.map_append, List.map_cons, List.map_append]
    simp only [List.append_assoc, List.cons_append]
    exact List.perm_middle
  exact (List.nodup_cons.1 (hperm.nodup_iff.1 h.distinct)).1

/-- All keys let their items go, and none of them is in use. -/
theorem Sound.drop_all (h : l.Sound) (hfree : ∀ u ∈ l.used, u ∉ l.held) :
    Sound { l with held := [] } ∧
      ∀ x ∈ l.held.map Prod.snd, x ∉ away { l with held := [] } := by
  constructor
  · apply h.drop (List.nil_sublist _)
    intro u hu hheld
    exact absurd hheld (hfree u hu)
  · intro x hx haway
    have hnodup := h.distinct
    unfold away at haway hnodup
    rw [List.map_nil, List.nil_append] at haway
    rw [List.append_assoc] at hnodup
    exact (List.nodup_append.1 hnodup).2.2 x hx x haway rfl

/-- A key gets a new item from the pool. -/
theorem Sound.borrow (h : l.Sound) (hheld : l.held = before ++ after) (hnew : x ∉ l.lent) :
    Sound { l with held := before ++ (k, x) :: after, lent := l.lent ++ [x] } := by
  have hperm : ((before ++ (k, x) :: after).map Prod.snd ++ l.passed ++ l.retired).Perm
      (x :: l.away) := by
    unfold away
    rw [hheld, List.map_append, List.map_cons, List.map_append]
    simp only [List.append_assoc, List.cons_append]
    exact List.perm_middle
  refine ⟨?_, ?_, ?_, h.apart⟩
  · change ((before ++ (k, x) :: after).map Prod.snd ++ l.passed ++ l.retired).Nodup
    rw [hperm.nodup_iff, List.nodup_cons]
    exact ⟨fun hx => hnew (h.lent x hx), h.distinct⟩
  · intro y hy
    rcases List.mem_cons.1 (hperm.subset hy) with rfl | hold
    · exact List.mem_append_right _ (List.mem_singleton_self _)
    · exact List.mem_append_left _ (h.lent y hold)
  · intro u hu
    rcases h.used u hu with hmem | hretired
    · left
      rw [hheld, List.mem_append] at hmem
      rw [List.mem_append, List.mem_cons]
      tauto
    · exact Or.inr hretired

/-- A key without users passes its item on. -/
theorem Sound.pass (h : l.Sound) (hheld : l.held = before ++ (k, x) :: after)
    (hfree : ∀ u ∈ l.used, u.1 ≠ k) :
    Sound { l with held := before ++ after, passed := l.passed ++ [x] } := by
  have hperm : ((before ++ after).map Prod.snd ++ (l.passed ++ [x]) ++ l.retired).Perm
      l.away := by
    unfold away
    rw [hheld, List.map_append, List.map_append, List.map_cons]
    simp only [List.append_assoc, List.cons_append, List.nil_append]
    refine List.Perm.append_left _ ?_
    rw [← List.append_assoc]
    exact List.perm_middle.trans (by rw [List.append_assoc])
  refine ⟨?_, fun y hy => h.lent y (hperm.subset hy), (h.drop_one hheld hfree).used, h.apart⟩
  change ((before ++ after).map Prod.snd ++ (l.passed ++ [x]) ++ l.retired).Nodup
  rw [hperm.nodup_iff]
  exact h.distinct

/-- An item that was passed on leaves its place. -/
theorem Sound.land {passed : List β} (h : l.Sound) (hpassed : l.passed.Perm (x :: passed)) :
    Sound { l with passed } ∧ x ∉ away { l with passed } := by
  have hperm : l.away.Perm (x :: away { l with passed }) := by
    unfold away
    simp only [List.append_assoc]
    refine ((hpassed.append_right _).append_left _).trans ?_
    exact List.perm_middle
  have hnodup := hperm.nodup_iff.1 h.distinct
  rw [List.nodup_cons] at hnodup
  refine ⟨⟨hnodup.2, fun y hy => ?_, h.used, h.apart⟩, hnodup.1⟩
  exact h.lent y (hperm.symm.subset (List.mem_cons_of_mem _ hy))

/-- All items that were passed on leave their places. -/
theorem Sound.land_all (h : l.Sound) :
    Sound { l with passed := [] } ∧ ∀ x ∈ l.passed, x ∉ away { l with passed := [] } := by
  have hperm : l.away.Perm (l.passed ++ away { l with passed := [] }) := by
    unfold away
    dsimp only
    rw [List.append_nil, List.append_assoc]
    exact List.perm_append_comm_assoc _ _ _
  have hnodup := List.nodup_append.1 (hperm.nodup_iff.1 h.distinct)
  refine ⟨⟨hnodup.2.1, fun y hy => ?_, h.used, h.apart⟩, fun x hx haway => ?_⟩
  · exact h.lent y (hperm.symm.subset (List.mem_append_right _ hy))
  · exact hnodup.2.2 x hx x haway rfl

/-- An item without a place goes back to the pool. -/
theorem Sound.giveBack [DecidableEq β] (h : l.Sound) (hx : x ∉ l.away) :
    Sound { l with lent := l.lent.erase x } := by
  refine ⟨h.distinct, fun y hy => ?_, h.used, h.apart⟩
  apply (List.mem_erase_of_ne _).2 (h.lent y hy)
  rintro rfl
  exact hx hy

/-- An item that is held is retired. -/
theorem Sound.retire {held : List (κ × β)} (h : l.Sound) (hheld : l.held = (k, x) :: held) :
    Sound { l with held, retired := l.retired ++ [x] } := by
  have hperm : (held.map Prod.snd ++ l.passed ++ (l.retired ++ [x])).Perm l.away := by
    unfold away
    rw [hheld, List.map_cons, ← List.append_assoc]
    exact List.perm_append_singleton _ _
  refine ⟨?_, fun y hy => h.lent y (hperm.subset hy), ?_, h.apart⟩
  · change (held.map Prod.snd ++ l.passed ++ (l.retired ++ [x])).Nodup
    rw [hperm.nodup_iff]
    exact h.distinct
  · intro u hu
    rcases h.used u hu with hmem | hretired
    · rw [hheld, List.mem_cons] at hmem
      rcases hmem with rfl | hrest
      · exact Or.inr (List.mem_append_right _ (List.mem_singleton_self _))
      · exact Or.inl hrest
    · exact Or.inr (List.mem_append_left _ hretired)

end Loans

end Lib
end ModelStreamer
