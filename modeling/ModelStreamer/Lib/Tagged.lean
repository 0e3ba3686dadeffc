import Mathlib.Algebra.Order.Ring.Nat
import Mathlib.Algebra.BigOperators.Group.List.Basic
import Mathlib.Data.List.Perm.Basic
import Mathlib.Tactic.Common

/-!
# Items that are tagged with the place of their owner

Every entry of a list owns some items.  Together they are one list of items, each with the place
of its owner, and the entries change hands of items one at a time.

Main results:

- Theorem {lit}`tagged_set_perm`: an entry that loses an item takes it out of the list.
- Theorem {lit}`countP_tagged`: the items with a tag are the items of one entry.
-/

namespace ModelStreamer
namespace Lib

variable {α β : Type*} (f : α → List β)

/-- The items of the entries, tagged from a number on. -/
def taggedFrom : Nat → List α → List (Nat × β)
  | _, [] => []
  | n, x :: xs => (f x).map (fun b => (n, b)) ++ taggedFrom (n + 1) xs

/-- The items of the entries, tagged with the places of the entries. -/
def tagged (xs : List α) : List (Nat × β) :=
  taggedFrom f 0 xs

variable {f}

/-- The items of one more entry come last. -/
theorem taggedFrom_concat (n : Nat) (xs : List α) (x : α) :
    taggedFrom f n (xs ++ [x]) =
      taggedFrom f n xs ++ (f x).map fun b => (n + xs.length, b) := by
  induction xs generalizing n with
  | nil => simp [taggedFrom]
  | cons y xs ih =>
      rw [List.cons_append, taggedFrom, ih, taggedFrom, List.append_assoc, List.length_cons]
      rw [show n + 1 + xs.length = n + (xs.length + 1) by omega]

/-- The items of one more entry come last. -/
theorem tagged_concat (xs : List α) (x : α) :
    tagged f (xs ++ [x]) = tagged f xs ++ (f x).map fun b => (xs.length, b) := by
  rw [tagged, taggedFrom_concat, Nat.zero_add]
  rfl

/-- The tags start at the given number. -/
theorem le_of_mem_taggedFrom {n : Nat} {xs : List α} {t : Nat × β}
    (h : t ∈ taggedFrom f n xs) : n ≤ t.1 := by
  induction xs generalizing n with
  | nil => simp [taggedFrom] at h
  | cons x xs ih =>
      rw [taggedFrom, List.mem_append] at h
      cases h with
      | inl hhead =>
          obtain ⟨b, -, rfl⟩ := List.mem_map.1 hhead
          exact Nat.le_refl n
      | inr htail => exact Nat.le_of_succ_le (ih htail)

/-- An item is an item of the entry that its tag names. -/
theorem mem_taggedFrom {n k : Nat} {b : β} {xs : List α} :
    (n + k, b) ∈ taggedFrom f n xs ↔ ∃ x, xs[k]? = some x ∧ b ∈ f x := by
  induction xs generalizing n k with
  | nil => simp [taggedFrom]
  | cons y xs ih =>
      rw [taggedFrom, List.mem_append]
      cases k with
      | zero =>
          have hlater : (n, b) ∉ taggedFrom f (n + 1) xs := by
            intro hmem
            have hbound := le_of_mem_taggedFrom hmem
            simp only at hbound
            omega
          simp [hlater]
      | succ k =>
          have hhead : (n + (k + 1), b) ∉ (f y).map fun b => (n, b) := by
            intro hmem
            obtain ⟨c, -, hc⟩ := List.mem_map.1 hmem
            simp only [Prod.mk.injEq] at hc
            omega
          rw [show n + (k + 1) = n + 1 + k by omega] at hhead ⊢
          rw [ih]
          simp [hhead]

/-- An item is an item of the entry that its tag names. -/
theorem mem_tagged {k : Nat} {b : β} {xs : List α} :
    (k, b) ∈ tagged f xs ↔ ∃ x, xs[k]? = some x ∧ b ∈ f x := by
  have hmem := @mem_taggedFrom _ _ f 0 k b xs
  rwa [Nat.zero_add] at hmem

/-- An entry that loses an item takes it out of the list. -/
theorem taggedFrom_set_perm {n k : Nat} {xs : List α} {x y : α} {b : β}
    (hx : xs[k]? = some x) (hperm : (f x).Perm (b :: f y)) :
    (taggedFrom f n xs).Perm ((n + k, b) :: taggedFrom f n (xs.set k y)) := by
  induction xs generalizing n k with
  | nil => simp at hx
  | cons z xs ih =>
      cases k with
      | zero =>
          simp only [List.getElem?_cons_zero, Option.some.injEq] at hx
          subst hx
          rw [List.set_cons_zero, taggedFrom, taggedFrom]
          exact (hperm.map fun b => (n, b)).append_right _
      | succ k =>
          simp only [List.getElem?_cons_succ] at hx
          have hrec := @ih (n + 1) k hx
          rw [show n + 1 + k = n + (k + 1) by omega] at hrec
          rw [List.set_cons_succ, taggedFrom, taggedFrom]
          exact (hrec.append_left _).trans List.perm_middle

/-- An entry that loses an item takes it out of the list. -/
theorem tagged_set_perm {k : Nat} {xs : List α} {x y : α} {b : β} (hx : xs[k]? = some x)
    (hperm : (f x).Perm (b :: f y)) :
    (tagged f xs).Perm ((k, b) :: tagged f (xs.set k y)) := by
  have hset := @taggedFrom_set_perm _ _ f 0 k xs x y b hx hperm
  rwa [Nat.zero_add] at hset

/-- The items with a tag are the items of one entry. -/
theorem countP_taggedFrom (n k : Nat) (xs : List α) :
    (taggedFrom f n xs).countP (fun t => t.1 = n + k) =
      ((xs[k]?).map fun x => (f x).length).getD 0 := by
  induction xs generalizing n k with
  | nil => simp [taggedFrom]
  | cons y xs ih =>
      rw [taggedFrom, List.countP_append, List.countP_map]
      cases k with
      | zero =>
          have hlater : (taggedFrom f (n + 1) xs).countP (fun t => t.1 = n + 0) = 0 := by
            apply List.countP_eq_zero.2
            intro t ht
            have hbound := le_of_mem_taggedFrom ht
            simp only [Nat.add_zero, decide_eq_true_eq]
            omega
          rw [hlater]
          simp [Function.comp_def]
      | succ k =>
          have hrec := ih (n + 1) k
          rw [show n + 1 + k = n + (k + 1) by omega] at hrec
          rw [hrec]
          simp [Function.comp_def]

/-- The items with a tag are the items of one entry. -/
theorem countP_tagged (k : Nat) (xs : List α) :
    (tagged f xs).countP (fun t => t.1 = k) =
      ((xs[k]?).map fun x => (f x).length).getD 0 := by
  have hcount := @countP_taggedFrom _ _ f 0 k xs
  simp only [Nat.zero_add] at hcount
  exact hcount

end Lib
end ModelStreamer
