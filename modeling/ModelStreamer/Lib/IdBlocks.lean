import Mathlib.Data.List.Nodup
import Mathlib.Data.List.Perm.Basic
import Mathlib.Order.Basic
import Mathlib.Tactic.Common

/-!
# Blocks of identifiers

A counter that only grows hands out blocks of identifiers.  Every block has an owner until the
owner is done with all of its identifiers or is given up.  An identifier that is not done is in
one place at most: it is held for its owner, or it is out of hand, where it may outlive its
owner, or it is lost.

Main results:

- Theorem {lit}`IdLedger.move`: identifiers change places.
- Theorem {lit}`IdLedger.count_down`: an owner is done with one of several identifiers.
- Theorem {lit}`IdLedger.finish`: an owner is done with its last one.
- Theorem {lit}`IdLedger.reserve`: a new block.
- Theorem {lit}`IdLedger.lose`: identifiers are lost.
-/

namespace ModelStreamer
namespace Lib

/-! ## Blocks and owners -/

/-- The identifiers from a base on. -/
structure IdBlock where
  base : Nat
  size : Nat
deriving DecidableEq, Repr

/-- The identifier is in the block. -/
def IdBlock.Has (block : IdBlock) (id : Nat) : Prop :=
  block.base ≤ id ∧ id < block.base + block.size

instance (block : IdBlock) (id : Nat) : Decidable (block.Has id) :=
  inferInstanceAs (Decidable (_ ∧ _))

/-- The owner of a block, and how many of its identifiers are not done. -/
structure IdOwner where
  block : IdBlock
  remaining : Nat
deriving DecidableEq, Repr

/-- Some owner has the identifier. -/
def isOwned (owners : List IdOwner) (id : Nat) : Bool :=
  owners.any fun o => o.block.Has id

theorem isOwned_iff {owners : List IdOwner} {id : Nat} :
    isOwned owners id = true ↔ ∃ o ∈ owners, o.block.Has id := by
  unfold isOwned
  rw [List.any_eq_true]
  simp

/-- Where the identifiers are. -/
structure IdLedger (owners : List IdOwner) (blocks : List IdBlock) (held out : List Nat) :
    Prop where
  apart : blocks.Pairwise fun a b => a.base + a.size ≤ b.base
  owned : ∀ o ∈ owners, o.block ∈ blocks
  sorted : owners.Pairwise fun a b => a.block.base < b.block.base
  nodup : (held ++ out).Nodup
  known : ∀ id ∈ out, ∃ block ∈ blocks, block.Has id
  live : ∀ id ∈ held, ∃ o ∈ owners, o.block.Has id
  remaining : ∀ o ∈ owners, ((held ++ out).countP fun id => o.block.Has id) ≤ o.remaining
  pending : ∀ o ∈ owners, 0 < o.remaining

section Ledger

variable {owners owners' : List IdOwner} {blocks : List IdBlock} {held held' out out' : List Nat}
  {o o' : IdOwner} {id : Nat}

/-- Two blocks are one, or one is above the other. -/
theorem eq_or_apart (hapart : blocks.Pairwise fun a b => a.base + a.size ≤ b.base)
    {a b : IdBlock} (ha : a ∈ blocks) (hb : b ∈ blocks) :
    a = b ∨ a.base + a.size ≤ b.base ∨ b.base + b.size ≤ a.base := by
  let R : IdBlock → IdBlock → Prop := fun a b =>
    a = b ∨ a.base + a.size ≤ b.base ∨ b.base + b.size ≤ a.base
  have hpair : blocks.Pairwise R := hapart.imp fun h => Or.inr (Or.inl h)
  have hflip : blocks.Pairwise (flip R) := hapart.imp fun h => Or.inr (Or.inr h)
  have hself : ∀ x ∈ blocks, R x x := fun _ _ => Or.inl rfl
  exact List.Pairwise.forall_of_forall_of_flip hself hpair hflip ha hb

/-- An identifier is in one block at most. -/
theorem block_eq_of_has (hapart : blocks.Pairwise fun a b => a.base + a.size ≤ b.base)
    {a b : IdBlock} (ha : a ∈ blocks) (hb : b ∈ blocks) (hida : a.Has id) (hidb : b.Has id) :
    a = b := by
  rcases eq_or_apart hapart ha hb with heq | hlt | hlt
  · exact heq
  · unfold IdBlock.Has at hida hidb
    omega
  · unfold IdBlock.Has at hida hidb
    omega

/-- An owner is known by its base. -/
theorem owner_eq_of_base (hsorted : owners.Pairwise fun a b => a.block.base < b.block.base)
    (ho : o ∈ owners) (ho' : o' ∈ owners) (hbase : o.block.base = o'.block.base) : o = o' := by
  have hpair : owners.Pairwise fun a b => a.block.base = b.block.base → a = b := by
    apply hsorted.imp
    intro a b hab heq
    omega
  have hflip : owners.Pairwise (flip fun a b => a.block.base = b.block.base → a = b) :=
    hpair.imp fun h heq => (h heq.symm).symm
  exact List.Pairwise.forall_of_forall_of_flip (fun _ _ _ => rfl) hpair hflip ho ho' hbase

/-- Every identifier that is not done was handed out. -/
theorem IdLedger.known_all (h : IdLedger owners blocks held out) (hid : id ∈ held ++ out) :
    ∃ block ∈ blocks, block.Has id := by
  rcases List.mem_append.1 hid with hheld | hout
  · rcases h.live id hheld with ⟨o, ho, hhas⟩
    exact ⟨o.block, h.owned o ho, hhas⟩
  · exact h.known id hout

/-- Identifiers change places. -/
theorem IdLedger.move (h : IdLedger owners blocks held out)
    (hperm : (held' ++ out').Perm (held ++ out))
    (hlive : ∀ id ∈ held', id ∈ held ∨ ∃ o ∈ owners, o.block.Has id) :
    IdLedger owners blocks held' out' := by
  refine ⟨h.apart, h.owned, h.sorted, hperm.nodup_iff.2 h.nodup, ?_, ?_, ?_, h.pending⟩
  · intro id hid
    exact h.known_all (hperm.subset (List.mem_append_right _ hid))
  · intro id hid
    rcases hlive id hid with hold | hnew
    · exact h.live id hold
    · exact hnew
  · intro o ho
    rw [hperm.countP_eq]
    exact h.remaining o ho

/-- Identifiers are lost. -/
theorem IdLedger.lose (h : IdLedger owners blocks held out) (hsub : out'.Sublist out) :
    IdLedger owners blocks held out' := by
  have hsub' : (held ++ out').Sublist (held ++ out) := (List.Sublist.refl held).append hsub
  refine ⟨h.apart, h.owned, h.sorted, h.nodup.sublist hsub', ?_, h.live, ?_, h.pending⟩
  · intro id hid
    exact h.known id (hsub.subset hid)
  · intro o ho
    exact Nat.le_trans hsub'.countP_le (h.remaining o ho)

/-- How many identifiers of an owner are left without one of them. -/
theorem IdLedger.remaining_cons (h : IdLedger owners blocks held (id :: out)) (ho : o ∈ owners)
    (hid : o.block.Has id) :
    ((held ++ out).countP fun id => o.block.Has id) + 1 ≤ o.remaining := by
  have hle := h.remaining o ho
  rw [List.countP_append, List.countP_cons_of_pos (by simpa using hid)] at hle
  rw [List.countP_append]
  omega

/-- The owners have no more identifiers than before. -/
theorem IdLedger.remaining_tail (h : IdLedger owners blocks held (id :: out)) (ho : o ∈ owners) :
    ((held ++ out).countP fun id => o.block.Has id) ≤ o.remaining := by
  have hsub : (held ++ out).Sublist (held ++ id :: out) :=
    (List.Sublist.refl held).append (List.sublist_cons_self id out)
  exact Nat.le_trans hsub.countP_le (h.remaining o ho)

/-- An owner is done with one of several identifiers. -/
theorem IdLedger.count_down (h : IdLedger owners blocks held (id :: out)) (ho : o ∈ owners)
    (hid : o.block.Has id) (hmore : 1 < o.remaining) :
    IdLedger (owners.map fun x =>
        if x.block.base = o.block.base then { x with remaining := x.remaining - 1 } else x)
      blocks held out := by
  have hsub : (held ++ out).Sublist (held ++ id :: out) :=
    (List.Sublist.refl held).append (List.sublist_cons_self id out)
  have hblock : ∀ x : IdOwner, (if x.block.base = o.block.base then
      { x with remaining := x.remaining - 1 } else x).block = x.block := by
    intro x
    split
    · rfl
    · rfl
  refine ⟨h.apart, ?_, ?_, h.nodup.sublist hsub, ?_, ?_, ?_, ?_⟩
  · intro x hx
    rcases List.mem_map.1 hx with ⟨y, hy, rfl⟩
    rw [hblock]
    exact h.owned y hy
  · rw [List.pairwise_map]
    apply h.sorted.imp
    intro a b hab
    rw [hblock, hblock]
    exact hab
  · intro other hother
    exact h.known other (List.mem_cons_of_mem _ hother)
  · intro other hother
    rcases h.live other hother with ⟨y, hy, hhas⟩
    refine ⟨_, List.mem_map_of_mem hy, ?_⟩
    rw [hblock]
    exact hhas
  · intro x hx
    rcases List.mem_map.1 hx with ⟨y, hy, rfl⟩
    by_cases hbase : y.block.base = o.block.base
    · have heq := owner_eq_of_base h.sorted hy ho hbase
      subst heq
      rw [if_pos rfl]
      have hcons := h.remaining_cons ho hid
      dsimp only
      omega
    · rw [if_neg hbase]
      exact h.remaining_tail hy
  · intro x hx
    rcases List.mem_map.1 hx with ⟨y, hy, rfl⟩
    by_cases hbase : y.block.base = o.block.base
    · have heq := owner_eq_of_base h.sorted hy ho hbase
      subst heq
      rw [if_pos rfl]
      dsimp only
      omega
    · rw [if_neg hbase]
      exact h.pending y hy

/-- The last identifier of an owner is the only one that is not done. -/
theorem IdLedger.none_left (h : IdLedger owners blocks held (id :: out)) (ho : o ∈ owners)
    (hid : o.block.Has id) (hlast : o.remaining = 1) :
    ∀ other ∈ held ++ out, ¬ o.block.Has other := by
  have hcons := h.remaining_cons ho hid
  have hzero : ((held ++ out).countP fun id => o.block.Has id) = 0 := by omega
  intro other hother
  have hnot := List.countP_eq_zero.1 hzero other hother
  simpa using hnot

/-- An owner is done with its last identifier. -/
theorem IdLedger.finish (h : IdLedger owners blocks held (id :: out)) (ho : o ∈ owners)
    (hid : o.block.Has id) (hlast : o.remaining = 1) :
    IdLedger (owners.filter fun x => x.block.base ≠ o.block.base) blocks held out := by
  have hsub : (held ++ out).Sublist (held ++ id :: out) :=
    (List.Sublist.refl held).append (List.sublist_cons_self id out)
  have hnone := h.none_left ho hid hlast
  refine ⟨h.apart, ?_, h.sorted.filter _, h.nodup.sublist hsub, ?_, ?_, ?_, ?_⟩
  · intro x hx
    exact h.owned x (List.mem_filter.1 hx).1
  · intro other hother
    exact h.known other (List.mem_cons_of_mem _ hother)
  · intro other hother
    rcases h.live other hother with ⟨y, hy, hhas⟩
    refine ⟨y, List.mem_filter.2 ⟨hy, ?_⟩, hhas⟩
    rw [decide_eq_true_eq]
    intro hbase
    rw [owner_eq_of_base h.sorted hy ho hbase] at hhas
    exact hnone other (List.mem_append_left _ hother) hhas
  · intro x hx
    exact h.remaining_tail (List.mem_filter.1 hx).1
  · intro x hx
    exact h.pending x (List.mem_filter.1 hx).1

/-- No other identifier loses its owner when one of several is done. -/
theorem isOwned_count_down (base id : Nat) :
    isOwned (owners.map fun x =>
      if x.block.base = base then { x with remaining := x.remaining - 1 } else x) id =
      isOwned owners id := by
  unfold isOwned
  rw [List.any_map]
  congr 1
  funext x
  rw [Function.comp_apply]
  split
  · rfl
  · rfl

/-- No other identifier that is not done loses its owner when the last one is done. -/
theorem IdLedger.isOwned_finish (h : IdLedger owners blocks held (id :: out)) (ho : o ∈ owners)
    (hid : o.block.Has id) (hlast : o.remaining = 1) {other : Nat} (hother : other ∈ held ++ out) :
    isOwned (owners.filter fun x => x.block.base ≠ o.block.base) other = isOwned owners other := by
  rw [Bool.eq_iff_iff, isOwned_iff, isOwned_iff]
  constructor
  · rintro ⟨x, hx, hhas⟩
    exact ⟨x, (List.mem_filter.1 hx).1, hhas⟩
  · rintro ⟨x, hx, hhas⟩
    refine ⟨x, List.mem_filter.2 ⟨hx, ?_⟩, hhas⟩
    rw [decide_eq_true_eq]
    intro hbase
    rw [owner_eq_of_base h.sorted hx ho hbase] at hhas
    exact h.none_left ho hid hlast other hother hhas

/-- A block above all others owns nothing that was handed out before. -/
theorem IdLedger.isOwned_reserve (h : IdLedger owners blocks held out)
    (habove : ∀ b ∈ blocks, b.base + b.size ≤ o.block.base)
    (hmem : ∀ x, x ∈ owners' ↔ x = o ∨ x ∈ owners) {other : Nat} (hother : other ∈ held ++ out) :
    isOwned owners' other = isOwned owners other := by
  rw [Bool.eq_iff_iff, isOwned_iff, isOwned_iff]
  constructor
  · rintro ⟨x, hx, hhas⟩
    rcases (hmem x).1 hx with rfl | hold
    · rcases h.known_all hother with ⟨b, hb, hhas'⟩
      have hle := habove b hb
      unfold IdBlock.Has at hhas hhas'
      omega
    · exact ⟨x, hold, hhas⟩
  · rintro ⟨x, hx, hhas⟩
    exact ⟨x, (hmem x).2 (Or.inr hx), hhas⟩

/-- A block above all others. -/
theorem apart_concat (hapart : blocks.Pairwise fun a b => a.base + a.size ≤ b.base)
    {block : IdBlock} (habove : ∀ b ∈ blocks, b.base + b.size ≤ block.base) :
    (blocks ++ [block]).Pairwise fun a b => a.base + a.size ≤ b.base := by
  rw [List.pairwise_append]
  refine ⟨hapart, List.pairwise_singleton _ _, fun a ha b hb => ?_⟩
  rw [List.mem_singleton.1 hb]
  exact habove a ha

/-- A new block, whose identifiers are all held for its owner. -/
theorem IdLedger.reserve (h : IdLedger owners blocks held out)
    (habove : ∀ b ∈ blocks, b.base + b.size ≤ o.block.base) (hpos : 0 < o.block.size)
    (hremaining : o.remaining = o.block.size)
    (hmem : ∀ x, x ∈ owners' ↔ x = o ∨ x ∈ owners)
    (hsorted : owners'.Pairwise fun a b => a.block.base < b.block.base) :
    IdLedger owners' (blocks ++ [o.block])
      (held ++ List.range' o.block.base o.block.size) out := by
  have hfresh : ∀ id ∈ held ++ out, id < o.block.base := by
    intro id hid
    rcases h.known_all hid with ⟨b, hb, hhas⟩
    have hle := habove b hb
    unfold IdBlock.Has at hhas
    omega
  have hrange : ∀ id ∈ List.range' o.block.base o.block.size, o.block.Has id := by
    intro id hid
    rcases List.mem_range'_1.1 hid with ⟨hle, hlt⟩
    exact ⟨hle, hlt⟩
  have hperm : (held ++ List.range' o.block.base o.block.size ++ out).Perm
      (List.range' o.block.base o.block.size ++ (held ++ out)) := by
    rw [List.append_assoc]
    exact (List.perm_append_comm_assoc _ _ _)
  refine ⟨apart_concat h.apart habove, ?_, hsorted, ?_, ?_, ?_, ?_, ?_⟩
  · intro x hx
    rcases (hmem x).1 hx with rfl | hold
    · exact List.mem_append_right _ (List.mem_singleton_self _)
    · exact List.mem_append_left _ (h.owned x hold)
  · rw [hperm.nodup_iff, List.nodup_append]
    refine ⟨List.nodup_range' .., h.nodup, ?_⟩
    rintro a ha b hb rfl
    have hlt := hfresh a hb
    have hle := (hrange a ha).1
    omega
  · intro id hid
    rcases h.known id hid with ⟨b, hb, hhas⟩
    exact ⟨b, List.mem_append_left _ hb, hhas⟩
  · intro id hid
    rcases List.mem_append.1 hid with hold | hnew
    · rcases h.live id hold with ⟨x, hx, hhas⟩
      exact ⟨x, (hmem x).2 (Or.inr hx), hhas⟩
    · exact ⟨o, (hmem o).2 (Or.inl rfl), hrange id hnew⟩
  · intro x hx
    rw [hperm.countP_eq, List.countP_append]
    rcases (hmem x).1 hx with rfl | hold
    · have hall : ((List.range' x.block.base x.block.size).countP fun id => x.block.Has id) =
          x.block.size := by
        rw [List.countP_eq_length.2 fun id hid => decide_eq_true (hrange id hid),
          List.length_range']
      have hnone : ((held ++ out).countP fun id => x.block.Has id) = 0 := by
        apply List.countP_eq_zero.2
        intro id hid
        have hlt := hfresh id hid
        rw [decide_eq_true_eq]
        rintro ⟨hle, -⟩
        omega
      rw [hall, hnone, hremaining]
      exact Nat.le_refl _
    · have hnone : ((List.range' o.block.base o.block.size).countP fun id => x.block.Has id) =
          0 := by
        apply List.countP_eq_zero.2
        intro id hid
        have hle := (hrange id hid).1
        have habove := habove x.block (h.owned x hold)
        rw [decide_eq_true_eq]
        rintro ⟨-, hlt⟩
        omega
      rw [hnone, Nat.zero_add]
      exact h.remaining x hold
  · intro x hx
    rcases (hmem x).1 hx with rfl | hold
    · rw [hremaining]
      exact hpos
    · exact h.pending x hold

end Ledger

end Lib
end ModelStreamer
