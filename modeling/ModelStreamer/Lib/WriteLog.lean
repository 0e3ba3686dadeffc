import Mathlib.Data.List.Basic
import ModelStreamer.Lib.Memory

/-!
# Writes to a flat memory

A memory is changed by a sequence of writes.  When every write puts a part of one content at
the place of this part, what was written once stays right whatever is written later.

Main results:

- Theorem {lit}`replay_written`: a cell that some write covered holds its content.
-/

namespace ModelStreamer
namespace Lib

variable {w : Nat} {β : Type*}

/-- Cells that are written from an address on. -/
structure Write (w : Nat) (β : Type*) where
  address : BitVec w
  cells : List β
deriving DecidableEq, Repr

/-- The memory after a write. -/
def Write.apply (m : Memory w β) (write : Write w β) : Memory w β :=
  fun x => (write.cells[(x - write.address).toNat]?).getD (m x)

/-- The memory after a sequence of writes. -/
def replay (m : Memory w β) (writes : List (Write w β)) : Memory w β :=
  writes.foldl Write.apply m

/-- The content from {lit}`p` on, {lit}`n` cells of it. -/
def cellsFrom (content : Nat → β) (p n : Nat) : List β :=
  (List.range n).map fun i => content (p + i)

@[simp]
theorem length_cellsFrom (content : Nat → β) (p n : Nat) :
    (cellsFrom content p n).length = n := by
  simp [cellsFrom]

theorem getElem?_cellsFrom {content : Nat → β} {p n i : Nat} (hi : i < n) :
    (cellsFrom content p n)[i]? = some (content (p + i)) := by
  simp [cellsFrom, hi]

theorem cellsFrom_congr {content content' : Nat → β} {p p' n : Nat}
    (h : ∀ i < n, content (p + i) = content' (p' + i)) :
    cellsFrom content p n = cellsFrom content' p' n :=
  List.map_congr_left fun i hi => h i (List.mem_range.1 hi)

/-! ## Parts of one content -/

section InPlace

variable (base : BitVec w) (start : Nat) (content : Nat → β)

/-- The write that puts {lit}`n` cells of the content, from {lit}`p` on, where they belong. -/
def partWrite (p n : Nat) : Write w β :=
  ⟨base + BitVec.ofNat w (p - start), cellsFrom content p n⟩

/-- The write puts a part of the content before {lit}`stop` where it belongs. -/
def InPlace (stop : Nat) (write : Write w β) : Prop :=
  ∃ p n, start ≤ p ∧ p + n ≤ stop ∧ write = partWrite base start content p n

/-- Some write in place put the cell {lit}`x` of the content where it belongs. -/
def Written (stop : Nat) (writes : List (Write w β)) (x : Nat) : Prop :=
  ∃ p n, partWrite base start content p n ∈ writes ∧ start ≤ p ∧ p ≤ x ∧ x < p + n ∧
    p + n ≤ stop

end InPlace

variable {base : BitVec w} {start stop p n x : Nat} {content : Nat → β} {m : Memory w β}
  {writes writes' : List (Write w β)}

theorem Written.mono (h : Written base start content stop writes x) (hsub : writes ⊆ writes') :
    Written base start content stop writes' x := by
  obtain ⟨p, n, hmem, hrest⟩ := h
  exact ⟨p, n, hsub hmem, hrest⟩

/-- The part of a part is the part of the whole. -/
theorem partWrite_rebase {q : Nat} (hq : start ≤ q) (hp : q ≤ p) :
    partWrite (base + BitVec.ofNat w (q - start)) q content p n =
      partWrite base start content p n := by
  unfold partWrite
  rw [BitVec.add_assoc, ← BitVec.ofNat_add]
  congr 3
  omega

theorem InPlace.rebase {q last : Nat} {write : Write w β} (hq : start ≤ q) (hlast : last ≤ stop)
    (h : InPlace (base + BitVec.ofNat w (q - start)) q content last write) :
    InPlace base start content stop write := by
  obtain ⟨p, n, hp, hn, rfl⟩ := h
  exact ⟨p, n, hq.trans hp, hn.trans hlast, partWrite_rebase hq hp⟩

theorem Written.rebase {q last : Nat} (hq : start ≤ q) (hlast : last ≤ stop)
    (h : Written (base + BitVec.ofNat w (q - start)) q content last writes x) :
    Written base start content stop writes x := by
  obtain ⟨p, n, hmem, hp, hle, hlt, hn⟩ := h
  rw [partWrite_rebase hq hp] at hmem
  exact ⟨p, n, hmem, hq.trans hp, hle, hlt, hn.trans hlast⟩

/-- A write in place changes its own cells only, and makes them right. -/
theorem apply_partWrite (hwide : stop - start ≤ 2 ^ w) (hp : start ≤ p) (hn : p + n ≤ stop)
    (hx : start ≤ x) (hstop : x < stop) :
    (partWrite base start content p n).apply m (base + BitVec.ofNat w (x - start)) =
      if p ≤ x ∧ x < p + n then content x else m (base + BitVec.ofNat w (x - start)) := by
  have hinside := @within_add_iff w base (p - start) n (x - start) (by omega) (by omega)
  have hoffset : (base + BitVec.ofNat w (x - start) -
      (base + BitVec.ofNat w (p - start))).toNat < n ↔ p ≤ x ∧ x < p + n := by
    refine hinside.trans ⟨fun h => ?_, fun h => ?_⟩
    · omega
    · omega
  unfold Write.apply partWrite
  simp only
  split
  · rename_i hcovered
    have hdiff : (base + BitVec.ofNat w (x - start) -
        (base + BitVec.ofNat w (p - start))).toNat = x - p := by
      have hplace : base + BitVec.ofNat w (x - start) =
          base + BitVec.ofNat w (p - start) + BitVec.ofNat w (x - p) := by
        rw [BitVec.add_assoc, ← BitVec.ofNat_add]
        congr 2
        omega
      rw [hplace, BitVec.add_comm, BitVec.add_sub_cancel, BitVec.toNat_ofNat,
        Nat.mod_eq_of_lt (by omega)]
    rw [hdiff, getElem?_cellsFrom (by omega), Option.getD_some]
    congr 1
    omega
  · rename_i hout
    have hge := mt hoffset.1 hout
    rw [List.getElem?_eq_none (by rw [length_cellsFrom]; omega), Option.getD_none]

/-- Writes in place keep a cell that is right. -/
theorem replay_keeps (hwide : stop - start ≤ 2 ^ w)
    (h : ∀ write ∈ writes, InPlace base start content stop write) (hx : start ≤ x)
    (hstop : x < stop) (hright : m (base + BitVec.ofNat w (x - start)) = content x) :
    replay m writes (base + BitVec.ofNat w (x - start)) = content x := by
  induction writes generalizing m with
  | nil => exact hright
  | cons write writes ih =>
      obtain ⟨p, n, hp, hn, rfl⟩ := h write (by simp)
      refine ih (fun other hother => h other (by simp [hother])) ?_
      rw [apply_partWrite hwide hp hn hx hstop]
      split
      · rfl
      · exact hright

/-- A cell that some write covered holds its content, whatever the memory was before. -/
theorem replay_written (hwide : stop - start ≤ 2 ^ w)
    (h : ∀ write ∈ writes, InPlace base start content stop write) (hstop : x < stop)
    (hwritten : Written base start content stop writes x) :
    replay m writes (base + BitVec.ofNat w (x - start)) = content x := by
  induction writes generalizing m with
  | nil =>
      obtain ⟨p, n, hmem, -⟩ := hwritten
      cases hmem
  | cons write writes ih =>
      have hrest : ∀ other ∈ writes, InPlace base start content stop other :=
        fun other hother => h other (by simp [hother])
      obtain ⟨p, n, hmem, hp, hle, hlt, hn⟩ := hwritten
      rcases List.mem_cons.1 hmem with rfl | hlater
      · change replay ((partWrite base start content p n).apply m) writes _ = _
        refine replay_keeps hwide hrest (hp.trans hle) hstop ?_
        rw [apply_partWrite hwide hp hn (hp.trans hle) hstop, if_pos ⟨hle, hlt⟩]
      · exact ih hrest ⟨p, n, hlater, hp, hle, hlt, hn⟩

end Lib
end ModelStreamer
