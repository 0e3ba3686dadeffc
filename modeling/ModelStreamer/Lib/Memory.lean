import Mathlib.Data.BitVec
import Mathlib.Tactic.Common

/-!
# Flat memory

A memory gives every address of a machine word its content.  The only operation is to write
a number of cells from an address on; addresses wrap around like the machine's do.
-/

namespace ModelStreamer
namespace Lib

variable {w : Nat} {β : Type*}

/-- The content of every address. -/
abbrev Memory (w : Nat) (β : Type*) := BitVec w → β

/-- The address is one of the {lit}`n` cells from {lit}`a` on. -/
def Within (a : BitVec w) (n : Nat) (x : BitVec w) : Prop :=
  (x - a).toNat < n

instance (a : BitVec w) (n : Nat) (x : BitVec w) : Decidable (Within a n x) :=
  inferInstanceAs (Decidable (_ < _))

/-- Write the cells from {lit}`a` on. -/
def fill (m : Memory w β) (a : BitVec w) (n : Nat) (f : Nat → β) : Memory w β :=
  fun x => if Within a n x then f (x - a).toNat else m x

/-- Cell number {lit}`i` of a region. -/
theorem within_add {a : BitVec w} {n i : Nat} (hi : i < n) (hw : i < 2 ^ w) :
    Within a n (a + BitVec.ofNat w i) := by
  unfold Within
  rw [BitVec.add_comm, BitVec.add_sub_cancel, BitVec.toNat_ofNat, Nat.mod_eq_of_lt hw]
  exact hi

/-- A cell of a region is at its number from the start. -/
theorem exists_add_of_within {a x : BitVec w} {n : Nat} (h : Within a n x) :
    ∃ i < n, x = a + BitVec.ofNat w i := by
  refine ⟨(x - a).toNat, h, ?_⟩
  rw [BitVec.ofNat_toNat, BitVec.setWidth_eq, BitVec.add_comm, BitVec.sub_add_cancel]

/-- The cells of a part of a region, by their numbers in the region. -/
theorem within_add_iff {a : BitVec w} {p n q : Nat} (hn : p + n ≤ 2 ^ w) (hq : q < 2 ^ w) :
    Within (a + BitVec.ofNat w p) n (a + BitVec.ofNat w q) ↔ p ≤ q ∧ q < p + n := by
  have hsub : a + BitVec.ofNat w q - (a + BitVec.ofNat w p) =
      BitVec.ofNat w q - BitVec.ofNat w p :=
    add_sub_add_left_eq_sub (BitVec.ofNat w q) (BitVec.ofNat w p) a
  unfold Within
  rw [hsub, BitVec.toNat_sub, BitVec.toNat_ofNat, BitVec.toNat_ofNat, Nat.mod_eq_of_lt hq]
  rcases Nat.lt_or_ge p (2 ^ w) with hp | hp
  · rw [Nat.mod_eq_of_lt hp]
    rcases Nat.lt_or_ge q p with hlt | hge
    · rw [Nat.mod_eq_of_lt (by omega)]
      omega
    · have hsplit : 2 ^ w - p + q = q - p + 2 ^ w := by omega
      rw [hsplit, Nat.add_mod_right, Nat.mod_eq_of_lt (by omega)]
      omega
  · omega

/-- A cell that was written holds what was written there. -/
theorem fill_add {m : Memory w β} {a : BitVec w} {n i : Nat} {f : Nat → β} (hi : i < n)
    (hw : i < 2 ^ w) : fill m a n f (a + BitVec.ofNat w i) = f i := by
  unfold fill
  rw [if_pos (within_add hi hw), BitVec.add_comm, BitVec.add_sub_cancel, BitVec.toNat_ofNat,
    Nat.mod_eq_of_lt hw]

/-- A cell outside keeps its content. -/
theorem fill_outside {m : Memory w β} {a x : BitVec w} {n : Nat} {f : Nat → β}
    (h : ¬ Within a n x) : fill m a n f x = m x :=
  if_neg h

/-- A cell of a part of a region that was written. -/
theorem fill_part {m : Memory w β} {a : BitVec w} {p n q : Nat} {f : Nat → β}
    (hn : p + n ≤ 2 ^ w) (hle : p ≤ q) (hlt : q < p + n) :
    fill m (a + BitVec.ofNat w p) n f (a + BitVec.ofNat w q) = f (q - p) := by
  have haddr : a + BitVec.ofNat w q =
      a + BitVec.ofNat w p + BitVec.ofNat w (q - p) := by
    rw [BitVec.add_assoc, ← BitVec.ofNat_add]
    congr 2
    omega
  rw [haddr]
  exact fill_add (by omega) (by omega)

/-- A cell of a region outside the part that was written. -/
theorem fill_part_outside {m : Memory w β} {a : BitVec w} {p n q : Nat} {f : Nat → β}
    (hn : p + n ≤ 2 ^ w) (hq : q < 2 ^ w) (hout : ¬ (p ≤ q ∧ q < p + n)) :
    fill m (a + BitVec.ofNat w p) n f (a + BitVec.ofNat w q) =
      m (a + BitVec.ofNat w q) :=
  fill_outside (mt (within_add_iff hn hq).1 hout)

/-- A part of a region lies inside it. -/
theorem within_of_part {a x : BitVec w} {p n size : Nat} (hle : p + n ≤ size)
    (hsize : size ≤ 2 ^ w) (h : Within (a + BitVec.ofNat w p) n x) : Within a size x := by
  obtain ⟨i, hi, rfl⟩ := exists_add_of_within h
  rw [BitVec.add_assoc, ← BitVec.ofNat_add]
  exact within_add (by omega) (by omega)

end Lib
end ModelStreamer
