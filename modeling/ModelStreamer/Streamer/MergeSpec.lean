import ModelStreamer.Streamer.Coalesce

/-!
# Which ranges are merged

Two consecutive ranges of a file are in one transfer exactly when the second one starts where
the first one ends, in the file and in memory.

Main results:

- Theorem {lit}`expand_consecutive`: what is in one transfer follows each other.
- Theorem {lit}`coalesce_merges`: what follows each other is in one transfer.
-/

namespace ModelStreamer
namespace Streamer

open Common Lib

/-- The second range starts where the first one ends, in the file and in memory. -/
def ReadRange.Follows (first second : ReadRange) : Prop :=
  first.offset + first.size = second.offset ∧ ptrAdd first.dst first.size = second.dst

/-- The ranges are in one of the transfers. -/
def InOneTransfer (transfers : List ContiguousTransfer) (p q : PlacedRange) : Prop :=
  ∃ t ∈ transfers, p ∈ t.expand ∧ q ∈ t.expand

/-! ## Inside one transfer -/

theorem expandSizes_index_le {fileIndex index offset : Nat} {dst : Addr} {sizes : List Nat}
    {p : PlacedRange} (h : p ∈ expandSizes fileIndex index offset dst sizes) :
    index ≤ p.index := by
  induction sizes generalizing index offset dst with
  | nil => simp [expandSizes] at h
  | cons size sizes ih =>
      rcases List.mem_cons.1 h with rfl | hmem
      · exact Nat.le_refl _
      · have hle := ih hmem
        omega

/-- The first range that is read back. -/
theorem expandSizes_first {fileIndex index offset : Nat} {dst : Addr} {sizes : List Nat}
    {p : PlacedRange} (h : p ∈ expandSizes fileIndex index offset dst sizes)
    (hindex : p.index = index) : p.range.offset = offset ∧ p.range.dst = dst := by
  cases sizes with
  | nil => simp [expandSizes] at h
  | cons size sizes =>
      rcases List.mem_cons.1 h with rfl | hmem
      · exact ⟨rfl, rfl⟩
      · have hle := expandSizes_index_le hmem
        omega

/-- Ranges that are read back one after the other follow each other. -/
theorem expandSizes_consecutive {fileIndex index offset : Nat} {dst : Addr} {sizes : List Nat}
    {p q : PlacedRange} (hp : p ∈ expandSizes fileIndex index offset dst sizes)
    (hq : q ∈ expandSizes fileIndex index offset dst sizes) (hnext : q.index = p.index + 1) :
    p.range.Follows q.range := by
  induction sizes generalizing index offset dst with
  | nil => simp [expandSizes] at hp
  | cons size sizes ih =>
      rw [expandSizes] at hp hq
      have hq' : q ∈ expandSizes fileIndex (index + 1) (offset + size) (ptrAdd dst size)
          sizes := by
        rcases List.mem_cons.1 hq with rfl | hmem
        · have hle : index ≤ p.index := @expandSizes_index_le _ _ _ _ (size :: sizes) _ hp
          simp only at hnext
          omega
        · exact hmem
      rcases List.mem_cons.1 hp with rfl | hp'
      · obtain ⟨hoffset, hdst⟩ := expandSizes_first hq' hnext
        exact ⟨hoffset.symm, hdst.symm⟩
      · exact ih hp' hq'

/-- Consecutive ranges in one transfer follow each other. -/
theorem expand_consecutive {t : ContiguousTransfer} {p q : PlacedRange} (hp : p ∈ t.expand)
    (hq : q ∈ t.expand) (hnext : q.index = p.index + 1) : p.range.Follows q.range :=
  expandSizes_consecutive hp hq hnext

/-- A transfer has ranges of one file only. -/
theorem fileIndex_of_mem_expand {t : ContiguousTransfer} {p : PlacedRange}
    (hp : p ∈ t.expand) : p.fileIndex = t.fileIndex := by
  have hall : ∀ (sizes : List Nat) (index offset : Nat) (dst : Addr),
      p ∈ expandSizes t.fileIndex index offset dst sizes → p.fileIndex = t.fileIndex := by
    intro sizes
    induction sizes with
    | nil =>
        intro index offset dst h
        simp [expandSizes] at h
    | cons size sizes ih =>
        intro index offset dst h
        rcases List.mem_cons.1 h with rfl | hmem
        · rfl
        · exact ih _ _ _ hmem
  exact hall _ _ _ _ hp

/-! ## The loop -/

/--
Before range {lit}`i` of file {lit}`f`: what follows each other so far is in one transfer, and
the open transfer ends with the range before.
-/
structure MergeInv (f i : Nat) (expanded : List PlacedRange) (s : CoalesceState) : Prop where
  before : ∀ p ∈ expanded, p.fileIndex < f ∨ (p.fileIndex = f ∧ p.index < i)
  last : ∀ range, ⟨f, i - 1, range⟩ ∈ expanded → 0 < i → ∃ current,
    s.transfers[s.openIndex]? = some current ∧ ⟨f, i - 1, range⟩ ∈ current.expand ∧
      current.offset + current.size = range.offset + range.size ∧
      ptrAdd current.destination current.size = ptrAdd range.dst range.size
  merged : ∀ g j first second, ⟨g, j, first⟩ ∈ expanded → ⟨g, j + 1, second⟩ ∈ expanded →
    first.Follows second → InOneTransfer s.transfers ⟨g, j, first⟩ ⟨g, j + 1, second⟩

theorem InOneTransfer.concat {transfers : List ContiguousTransfer} {p q : PlacedRange}
    (h : InOneTransfer transfers p q) (t : ContiguousTransfer) :
    InOneTransfer (transfers ++ [t]) p q := by
  obtain ⟨u, hu, hboth⟩ := h
  exact ⟨u, List.mem_append_left _ hu, hboth⟩

/-- Ranges that are in one transfer stay there when a transfer grows. -/
theorem InOneTransfer.extend {done : List ContiguousTransfer}
    {current grown : ContiguousTransfer} {p q : PlacedRange}
    (h : InOneTransfer (done ++ [current]) p q)
    (hgrown : ∀ r ∈ current.expand, r ∈ grown.expand) :
    InOneTransfer (done ++ [grown]) p q := by
  obtain ⟨u, hu, hp, hq⟩ := h
  rcases List.mem_append.1 hu with hdone | hlast
  · exact ⟨u, List.mem_append_left _ hdone, hp, hq⟩
  · obtain rfl := List.mem_singleton.1 hlast
    exact ⟨grown, List.mem_append_right _ (List.mem_singleton_self _), hgrown p hp, hgrown q hq⟩

section Steps

variable {f i : Nat} {expanded : List PlacedRange} {s s' : CoalesceState} {range : ReadRange}

theorem MergeInv.before_concat (h : MergeInv f i expanded s) (p : PlacedRange)
    (hp : p ∈ expanded ++ [⟨f, i, range⟩]) :
    p.fileIndex < f ∨ (p.fileIndex = f ∧ p.index < i + 1) := by
  rcases List.mem_append.1 hp with hold | hnew
  · rcases h.before p hold with hlt | ⟨hfile, hlt⟩
    · exact Or.inl hlt
    · exact Or.inr ⟨hfile, by omega⟩
  · rw [List.mem_singleton.1 hnew]
    exact Or.inr ⟨rfl, Nat.lt_succ_self i⟩

/-- The range that was placed last is known. -/
theorem MergeInv.eq_of_mem_concat (h : MergeInv f i expanded s) {other : ReadRange}
    (hmem : ⟨f, i, other⟩ ∈ expanded ++ [⟨f, i, range⟩]) : other = range := by
  rcases List.mem_append.1 hmem with hold | hnew
  · rcases h.before _ hold with hlt | ⟨-, hlt⟩
    · exact absurd hlt (Nat.lt_irrefl f)
    · exact absurd hlt (Nat.lt_irrefl i)
  · have heq := List.mem_singleton.1 hnew
    simp only [PlacedRange.mk.injEq, true_and] at heq
    exact heq

/-- The pairs with the new range are those with the range before it. -/
theorem MergeInv.merged_concat (h : MergeInv f i expanded s)
    {transfers : List ContiguousTransfer}
    (hold : ∀ p q, InOneTransfer s.transfers p q → InOneTransfer transfers p q)
    (hnew : ∀ first, ⟨f, i - 1, first⟩ ∈ expanded → 0 < i → first.Follows range →
      InOneTransfer transfers ⟨f, i - 1, first⟩ ⟨f, i, range⟩)
    (g j : Nat) (first second : ReadRange)
    (hfirst : ⟨g, j, first⟩ ∈ expanded ++ [⟨f, i, range⟩])
    (hsecond : ⟨g, j + 1, second⟩ ∈ expanded ++ [⟨f, i, range⟩])
    (hfollows : first.Follows second) :
    InOneTransfer transfers ⟨g, j, first⟩ ⟨g, j + 1, second⟩ := by
  rcases List.mem_append.1 hfirst with hf | hf
  · rcases List.mem_append.1 hsecond with hs | hs
    · exact hold _ _ (h.merged g j first second hf hs hfollows)
    · have heq := List.mem_singleton.1 hs
      simp only [PlacedRange.mk.injEq] at heq
      obtain ⟨rfl, rfl, rfl⟩ := heq
      exact hnew first hf (Nat.succ_pos j) hfollows
  · have heq := List.mem_singleton.1 hf
    simp only [PlacedRange.mk.injEq] at heq
    obtain ⟨rfl, rfl, rfl⟩ := heq
    have hlt := h.before_concat _ hsecond
    simp only at hlt
    omega

/-- A range that ends the open transfer is merged with one that follows it. -/
theorem MergeInv.adjacent (h : MergeInv f i expanded s)
    (hwf : ∀ t ∈ s.transfers, t.WellFormed) {first : ReadRange}
    (hfirst : ⟨f, i - 1, first⟩ ∈ expanded) (hpos : 0 < i) (hfollows : first.Follows range) :
    ∃ current, s.transfers[s.openIndex]? = some current ∧
      ⟨f, i - 1, first⟩ ∈ current.expand ∧ current.adjacent range = true := by
  obtain ⟨current, hcurrent, hmem, hstop, hdst⟩ := h.last first hfirst hpos
  refine ⟨current, hcurrent, hmem, ?_⟩
  have hlt := (hwf current (List.mem_of_getElem? hcurrent)).stop_lt
  rw [ContiguousTransfer.adjacent, wordAdd_of_lt (by omega), hstop, hdst, hfollows.1, hfollows.2]
  simp

/-- One range keeps the invariant. -/
theorem MergeInv.step (h : MergeInv f i expanded s) (hinv : CoalesceInv f i expanded s)
    (hrange : range.offset + range.size < 2 ^ 63)
    (hstep : coalesceRange f i range s = .ok s') :
    MergeInv f (i + 1) (expanded ++ [⟨f, i, range⟩]) s' := by
  rw [coalesceRange] at hstep
  split at hstep
  · cases hstep
  · have hopened : (∀ current, s.transfers[s.openIndex]? = some current →
        current.adjacent range = false) →
        MergeInv f (i + 1) (expanded ++ [⟨f, i, range⟩])
          { transfers := s.transfers ++ [openedTransfer f i range]
            totalBytes := s.totalBytes + range.size
            openIndex := s.transfers.length } := by
      intro hno
      refine ⟨h.before_concat, fun other hother _ => ?_, ?_⟩
      · obtain rfl := h.eq_of_mem_concat hother
        exact ⟨openedTransfer f i other, by simp, by simp, rfl, rfl⟩
      · apply h.merged_concat (fun p q hone => hone.concat _)
        intro first hfirst hpos hfollows
        obtain ⟨current, hcurrent, -, hadjacent⟩ :=
          h.adjacent hinv.wellFormed hfirst hpos hfollows
        rw [hno current hcurrent] at hadjacent
        cases hadjacent
    simp only at hstep
    split at hstep
    · rename_i current hcurrent
      split at hstep
      · rename_i hadjacent
        cases hstep
        rcases hinv.open_cases with hnone | ⟨done, last, htransfers, hopen, hfile, hindex⟩
        · simp [hnone] at hcurrent
        · obtain rfl : last = current := by simpa [htransfers, hopen] using hcurrent
          have hwf := hinv.wellFormed last (by simp [htransfers])
          have hstop := (hwf.extend hadjacent hrange).stop_lt
          have hexpand := expand_extend hwf hadjacent
          rw [hfile, hindex] at hexpand
          have hset : s.transfers.set s.openIndex (last.extend range) =
              done ++ [last.extend range] := by
            rw [htransfers, hopen, List.set_append_right _ _ (le_refl _)]
            simp
          have hlt := hwf.stop_lt
          have hadjacent' := hadjacent
          rw [ContiguousTransfer.adjacent, wordAdd_of_lt (by omega)] at hadjacent'
          simp only [Bool.and_eq_true, decide_eq_true_eq] at hadjacent'
          have hsize : (last.extend range).size = last.size + range.size := by
            rw [ContiguousTransfer.extend, wordAdd_of_lt (by omega)]
          refine ⟨h.before_concat, fun other hother _ => ?_, ?_⟩
          · obtain rfl := h.eq_of_mem_concat hother
            refine ⟨last.extend other, ?_, ?_, ?_, ?_⟩
            · change (s.transfers.set s.openIndex _)[s.openIndex]? = _
              rw [hset, hopen]
              simp
            · simp [hexpand]
            · rw [hsize]
              simp only [ContiguousTransfer.extend]
              omega
            · rw [hsize, ← hadjacent'.2, ptrAdd_ptrAdd]
              rfl
          · simp only [hset]
            have hgrown : ∀ r ∈ last.expand, r ∈ (last.extend range).expand := fun r hr => by
              rw [hexpand]
              exact List.mem_append_left _ hr
            refine h.merged_concat (fun p q hone => ?_) fun first hfirst hpos hfollows => ?_
            · rw [htransfers] at hone
              exact hone.extend hgrown
            · obtain ⟨other, hother, hmem, -⟩ := h.adjacent hinv.wellFormed hfirst hpos hfollows
              obtain rfl := Option.some.inj (hother.symm.trans hcurrent)
              exact ⟨other.extend range, by simp, hgrown _ hmem, by simp [hexpand]⟩
      · rename_i hadjacent
        cases hstep
        apply hopened
        intro other hother
        obtain rfl := Option.some.inj (hother.symm.trans hcurrent)
        exact Bool.not_eq_true _ ▸ hadjacent
    · rename_i hnone
      cases hstep
      apply hopened
      intro other hother
      rw [hnone] at hother
      cases hother

end Steps

/-- The ranges of a file keep the invariant. -/
theorem MergeInv.ranges {f i : Nat} {expanded : List PlacedRange} {s s' : CoalesceState}
    (ranges : List ReadRange) (h : MergeInv f i expanded s)
    (hinv : CoalesceInv f i expanded s)
    (hranges : ∀ range ∈ ranges, range.offset + range.size < 2 ^ 63)
    (htotal : totalSize (expanded ++ placedRanges f i ranges) < 2 ^ 64)
    (hrun : coalesceRanges f i ranges s = .ok s') :
    MergeInv f (i + ranges.length) (expanded ++ placedRanges f i ranges) s' := by
  induction ranges generalizing i expanded s with
  | nil =>
      cases hrun
      simpa [placedRanges] using h
  | cons range ranges ih =>
      have hsplit : expanded ++ placedRanges f i (range :: ranges) =
          (expanded ++ [⟨f, i, range⟩]) ++ placedRanges f (i + 1) ranges := by
        simp [placedRanges]
      have hrange := hranges range (by simp)
      have hfirst : totalSize expanded + range.size < 2 ^ 64 := by
        rw [hsplit] at htotal
        simp only [totalSize_append, totalSize_cons, totalSize_nil] at htotal
        omega
      obtain ⟨s₁, hs₁, hinv₁⟩ := coalesceRange_inv hinv hrange hfirst
      simp only [coalesceRanges, hs₁] at hrun
      rw [hsplit, List.length_cons, Nat.add_comm ranges.length 1, ← Nat.add_assoc]
      exact ih (h.step hinv hrange hs₁) hinv₁ (fun r hr => hranges r (by simp [hr]))
        (hsplit ▸ htotal) hrun

/-- A new file starts without an open transfer. -/
theorem MergeInv.nextFile {f i : Nat} {expanded : List PlacedRange} {s : CoalesceState}
    (h : MergeInv f i expanded s) (openIndex : Nat) :
    MergeInv (f + 1) 0 expanded { s with openIndex } := by
  refine ⟨fun p hp => ?_, fun _ _ hpos => absurd hpos (Nat.lt_irrefl 0), h.merged⟩
  rcases h.before p hp with hlt | ⟨heq, -⟩
  · exact Or.inl (Nat.lt_succ_of_lt hlt)
  · exact Or.inl (by omega)

/-- The files keep the invariant. -/
theorem MergeInv.files {k : Nat} {expanded : List PlacedRange} {s s' : CoalesceState}
    (files : List FileRanges)
    (h : ∀ openIndex, MergeInv k 0 expanded { s with openIndex })
    (hinv : ∃ k₀ i₀, CoalesceInv k₀ i₀ expanded s)
    (hranges : ∀ file ∈ files, ∀ range ∈ file.ranges, range.offset + range.size < 2 ^ 63)
    (htotal : totalSize (expanded ++ placedFiles k files) < 2 ^ 64)
    (hrun : coalesceFiles k files s = .ok s') :
    ∃ k' i', MergeInv k' i' (expanded ++ placedFiles k files) s' := by
  induction files generalizing k expanded s with
  | nil =>
      cases hrun
      exact ⟨k, 0, by simpa [placedFiles] using h s'.openIndex⟩
  | cons file files ih =>
      obtain ⟨k₀, i₀, hinv⟩ := hinv
      have hsplit : expanded ++ placedFiles k (file :: files) =
          (expanded ++ placedRanges k 0 file.ranges) ++ placedFiles (k + 1) files := by
        simp [placedFiles]
      rw [hsplit] at htotal ⊢
      have hreset : CoalesceInv k 0 expanded { s with openIndex := s.transfers.length } :=
        ⟨hinv.expand_eq, hinv.wellFormed, hinv.total_eq, Or.inl rfl⟩
      have hfirst : totalSize (expanded ++ placedRanges k 0 file.ranges) < 2 ^ 64 := by
        rw [totalSize_append] at htotal
        omega
      obtain ⟨s₁, hs₁, hinv₁⟩ :=
        coalesceRanges_inv file.ranges hreset (hranges file (by simp)) hfirst
      have hmerge := (h s.transfers.length).ranges file.ranges hreset (hranges file (by simp))
        hfirst hs₁
      simp only [coalesceFiles, hs₁] at hrun
      exact ih (fun openIndex => hmerge.nextFile openIndex) ⟨_, _, hinv₁⟩
        (fun other hother => hranges other (by simp [hother])) htotal hrun

/-- Ranges of the request that follow each other are in one transfer. -/
theorem coalesce_merges {request : List FileRanges} (h : RequestFits request)
    {s : CoalesceState} (hrun : coalesce request = .ok s) {f i : Nat}
    {first second : ReadRange} (hfirst : ⟨f, i, first⟩ ∈ placedFiles 0 request)
    (hsecond : ⟨f, i + 1, second⟩ ∈ placedFiles 0 request) (hfollows : first.Follows second) :
    InOneTransfer s.transfers ⟨f, i, first⟩ ⟨f, i + 1, second⟩ := by
  have hstart : ∀ openIndex, MergeInv 0 0 []
      { transfers := [], totalBytes := 0, openIndex } := fun openIndex =>
    ⟨by simp, by simp, by simp⟩
  obtain ⟨k, j, hmerge⟩ := MergeInv.files (s := ⟨[], 0, 0⟩) request hstart
    ⟨0, 0, rfl, by simp, rfl, Or.inl rfl⟩ h.range_stop (by simpa using h.total) hrun
  rw [List.nil_append] at hmerge
  exact hmerge.merged f i first second hfirst hsecond hfollows

end Streamer
end ModelStreamer
