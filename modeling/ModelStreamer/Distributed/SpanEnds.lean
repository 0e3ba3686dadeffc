import ModelStreamer.Lib.Bisection
import ModelStreamer.Lib.Spans

/-!
# Where spans end

The tensors of a model are one stream of sizes that is cut into one contiguous span for each
rank.  The smallest ceiling under which that many spans are enough is found by bisection, and
each probe finds the end of a span by bisection in the running totals.

Main results:

- Theorem {lit}`cuts_isSome_iff`: a probe succeeds exactly when the plain walk needs at most
  {lit}`n` spans.
- Theorem {lit}`spanEnds_optimal`: the spans are found, and their largest is as small as that
  of any way to cut the stream.
-/

namespace ModelStreamer
namespace Distributed

open Lib

/-! ## The search -/

/-- The running totals from {lit}`total` on. -/
def runningTotals : Nat → List Nat → List Nat
  | total, [] => [total]
  | total, size :: sizes => total :: runningTotals (total + size) sizes

/-- The running totals of the sizes: how many bytes lie before each position. -/
def prefixSums (sizes : List Nat) : List Nat :=
  runningTotals 0 sizes

/-- The loop of {lit}`cuts` for the ranks that are left. -/
def cutsFrom (sums : List Nat) (total ceiling : Nat) : Nat → Nat → Option (List Nat)
  | 0, start => if start = total then some [] else none
  | ranks + 1, start =>
      if start = total then (cutsFrom sums total ceiling ranks start).map (total :: ·)
      else
        -- the furthest tensor whose bytes from the start still fit
        let stop := bisectRight sums (sums.getD start 0 + ceiling) - 1
        if stop = start then none
        else (cutsFrom sums total ceiling ranks stop).map (stop :: ·)

/-- {lit}`cuts`: where the spans end under the ceiling, if {lit}`n` spans are enough. -/
def cuts (sizes : List Nat) (n ceiling : Nat) : Option (List Nat) :=
  cutsFrom (prefixSums sizes) sizes.length ceiling n 0

/-- The bounds of the search: no partition is below the lower one. -/
def searchBounds (sizes : List Nat) (n : Nat) : Nat × Nat :=
  let total := (prefixSums sizes).getD sizes.length 0
  (max (sizes.foldr max 0) (total / n), total)

/-- The ceiling at which the search ends. -/
def spanCeiling (sizes : List Nat) (n : Nat) : Nat :=
  searchLeast (fun ceiling => (cuts sizes n ceiling).isSome) (searchBounds sizes n).1
    (searchBounds sizes n).2

/-- {lit}`_span_ends`: where each rank's span ends, and the running totals. -/
def spanEnds (sizes : List Nat) (n : Nat) : Option (List Nat) × List Nat :=
  (cuts sizes n (spanCeiling sizes n), prefixSums sizes)

/-! ## Running totals -/

theorem length_runningTotals (total : Nat) (sizes : List Nat) :
    (runningTotals total sizes).length = sizes.length + 1 := by
  induction sizes generalizing total with
  | nil => rfl
  | cons size sizes ih => simp [runningTotals, ih]

/-- A running total is the sum of what lies before its position. -/
theorem getElem?_runningTotals {total i : Nat} {sizes : List Nat} (hi : i ≤ sizes.length) :
    (runningTotals total sizes)[i]? = some (total + (sizes.take i).sum) := by
  induction sizes generalizing total i with
  | nil =>
      have hzero : i = 0 := by simpa using hi
      simp [hzero, runningTotals]
  | cons size sizes ih =>
      cases i with
      | zero => simp [runningTotals]
      | succ i =>
          rw [runningTotals, List.getElem?_cons_succ, ih (by simpa using hi)]
          simp [Nat.add_assoc]

theorem getElem?_prefixSums {i : Nat} {sizes : List Nat} (hi : i ≤ sizes.length) :
    (prefixSums sizes)[i]? = some (sizes.take i).sum := by
  rw [prefixSums, getElem?_runningTotals hi, Nat.zero_add]

theorem getD_prefixSums {i : Nat} {sizes : List Nat} (hi : i ≤ sizes.length) :
    (prefixSums sizes).getD i 0 = (sizes.take i).sum := by
  rw [List.getD_eq_getElem?_getD, getElem?_prefixSums hi, Option.getD_some]

/-- The bytes before a later position. -/
theorem sum_take_add (sizes : List Nat) (i k : Nat) :
    (sizes.take (i + k)).sum = (sizes.take i).sum + ((sizes.drop i).take k).sum := by
  rw [List.take_add, List.sum_append]

theorem sum_take_mono (sizes : List Nat) {i j : Nat} (hij : i ≤ j) :
    (sizes.take i).sum ≤ (sizes.take j).sum := by
  obtain ⟨k, rfl⟩ := Nat.exists_eq_add_of_le hij
  rw [sum_take_add]
  exact Nat.le_add_right _ _

/-- The bisection in the running totals finds the end of what fits. -/
theorem bisectRight_prefixSums {sizes : List Nat} {start ceiling : Nat}
    (hstart : start ≤ sizes.length) :
    bisectRight (prefixSums sizes) ((prefixSums sizes).getD start 0 + ceiling) =
      start + fitLength ceiling 0 (sizes.drop start) + 1 := by
  have hfit := fitLength_le ceiling 0 (sizes.drop start)
  rw [List.length_drop] at hfit
  have hlength : (prefixSums sizes).length = sizes.length + 1 := length_runningTotals 0 sizes
  refine bisectRight_eq (fun j y hy => ?_) (by omega)
  have hj : j ≤ sizes.length := by
    have hlt := (List.getElem?_eq_some_iff.1 hy).1
    omega
  rw [getElem?_prefixSums hj] at hy
  cases hy
  rw [getD_prefixSums hstart]
  constructor
  · intro hlt
    have hmono := sum_take_mono sizes (Nat.le_of_lt_succ hlt)
    have hceiling := sum_take_fitLength (sizes.drop start) (Nat.zero_le ceiling)
    rw [sum_take_add] at hmono
    omega
  · intro hle
    by_contra hge
    -- the position is after the first tensor that does not fit
    have hover := @sum_take_succ_fitLength ceiling 0 (sizes.drop start)
      (by rw [List.length_drop]; omega)
    have hmono := sum_take_mono sizes
      (show start + (fitLength ceiling 0 (sizes.drop start) + 1) ≤ j by omega)
    rw [sum_take_add] at hmono
    omega

/-! ## Probes -/

/-- One turn of the loop, in terms of what fits. -/
theorem cutsFrom_succ {sizes : List Nat} {ceiling ranks start : Nat} (hlt : start < sizes.length) :
    cutsFrom (prefixSums sizes) sizes.length ceiling (ranks + 1) start =
      if fitLength ceiling 0 (sizes.drop start) = 0 then none
      else
        (cutsFrom (prefixSums sizes) sizes.length ceiling ranks
          (start + fitLength ceiling 0 (sizes.drop start))).map
            ((start + fitLength ceiling 0 (sizes.drop start)) :: ·) := by
  have hne : start ≠ sizes.length := by omega
  rw [cutsFrom, if_neg hne]
  simp only [bisectRight_prefixSums hlt.le, Nat.add_sub_cancel, Nat.add_eq_left]

/-- The loop succeeds exactly when the walk over what is left needs few enough spans. -/
theorem cutsFrom_isSome_iff {sizes : List Nat} {ceiling ranks start : Nat}
    (hstart : start ≤ sizes.length) :
    (cutsFrom (prefixSums sizes) sizes.length ceiling ranks start).isSome = true ↔
      start = sizes.length ∨ ∃ m ≤ ranks, walkParts ceiling 0 (sizes.drop start) = some m := by
  induction ranks generalizing start with
  | zero =>
      rw [cutsFrom]
      constructor
      · intro h
        left
        by_contra hne
        simp [hne] at h
      · rintro (heq | ⟨m, hm, hwalk⟩)
        · simp [heq]
        · have hpos := walkParts_pos hwalk
          omega
  | succ ranks ih =>
      rcases Nat.eq_or_lt_of_le hstart with heq | hlt
      · rw [cutsFrom, if_pos heq, Option.isSome_map, ih hstart]
        exact iff_of_true (Or.inl heq) (Or.inl heq)
      · have hne : start ≠ sizes.length := by omega
        have hdrop : sizes.drop start ≠ [] := by
          rw [ne_eq, List.drop_eq_nil_iff]
          omega
        have hfit := fitLength_le ceiling 0 (sizes.drop start)
        rw [List.length_drop] at hfit
        rw [cutsFrom_succ hlt]
        by_cases hzero : fitLength ceiling 0 (sizes.drop start) = 0
        · -- the next tensor alone is over the ceiling
          rw [if_pos hzero]
          refine iff_of_false (by simp) ?_
          rintro (heq | ⟨m, -, hwalk⟩)
          · exact hne heq
          · cases hcase : sizes.drop start with
            | nil => exact hdrop hcase
            | cons size rest =>
                rw [hcase, fitLength] at hzero
                rw [hcase, walkParts] at hwalk
                split_ifs at hzero with hover
                rw [if_neg hover, if_neg (by omega)] at hwalk
                cases hwalk
        · rw [if_neg hzero, Option.isSome_map, ih (by omega)]
          rw [walkParts_eq ceiling 0 (sizes.drop start), List.length_drop, List.drop_drop]
          by_cases hall : fitLength ceiling 0 (sizes.drop start) = sizes.length - start
          · rw [if_pos hall]
            exact iff_of_true (Or.inl (by omega)) (Or.inr ⟨1, by omega, rfl⟩)
          · rw [if_neg hall]
            constructor
            · rintro (heq | ⟨m, hm, hwalk⟩)
              · omega
              · exact Or.inr ⟨m + 1, by omega, by rw [hwalk]; rfl⟩
            · rintro (heq | ⟨m, hm, hwalk⟩)
              · exact absurd heq hne
              · obtain ⟨k, hk, rfl⟩ := Option.map_eq_some_iff.1 hwalk
                exact Or.inr ⟨k, by omega, hk⟩

/-- A probe succeeds exactly when the plain walk needs at most {lit}`n` spans. -/
theorem cuts_isSome_iff {sizes : List Nat} {n ceiling : Nat} (hne : sizes ≠ []) :
    (cuts sizes n ceiling).isSome = true ↔
      ∃ m ≤ n, walkParts ceiling 0 sizes = some m := by
  have hpos := List.length_pos_iff.2 hne
  rw [cuts, cutsFrom_isSome_iff (Nat.zero_le _), List.drop_zero]
  constructor
  · rintro (hzero | hwalk)
    · omega
    · exact hwalk
  · exact Or.inr

/-- What the ends of a probe that succeeded look like. -/
structure EndsOk (sizes : List Nat) (n start ceiling : Nat) (ends : List Nat) : Prop where
  length_eq : ends.length = n
  chain : (start :: ends).IsChain (· ≤ ·)
  last : (start :: ends).getLast? = some sizes.length
  under : ∀ span ∈ slices sizes start ends, span.sum ≤ ceiling

theorem cutsFrom_endsOk {sizes : List Nat} {ceiling ranks start : Nat} {ends : List Nat}
    (hstart : start ≤ sizes.length)
    (h : cutsFrom (prefixSums sizes) sizes.length ceiling ranks start = some ends) :
    EndsOk sizes ranks start ceiling ends := by
  induction ranks generalizing start ends with
  | zero =>
      rw [cutsFrom] at h
      split_ifs at h with heq
      cases h
      exact
        { length_eq := rfl
          chain := List.IsChain.singleton start
          last := by rw [List.getLast?_singleton, heq]
          under := fun span hspan => by cases hspan }
  | succ ranks ih =>
      rcases Nat.eq_or_lt_of_le hstart with heq | hlt
      · rw [cutsFrom, if_pos heq] at h
        obtain ⟨rest, hrest, rfl⟩ := Option.map_eq_some_iff.1 h
        have hok := ih hstart hrest
        rw [← heq]
        exact
          { length_eq := by simp [hok.length_eq]
            chain := List.isChain_cons_cons.2 ⟨Nat.le_refl start, hok.chain⟩
            last := by
              rw [List.getLast?_cons_cons, hok.last]
            under := fun span hspan => by
              rcases List.mem_cons.1 hspan with rfl | hmem
              · simp
              · exact hok.under span hmem }
      · rw [cutsFrom_succ hlt] at h
        split_ifs at h with hzero
        obtain ⟨rest, hrest, rfl⟩ := Option.map_eq_some_iff.1 h
        have hfit := fitLength_le ceiling 0 (sizes.drop start)
        rw [List.length_drop] at hfit
        have hok := ih (by omega) hrest
        exact
          { length_eq := by simp [hok.length_eq]
            chain := List.isChain_cons_cons.2 ⟨Nat.le_add_right _ _, hok.chain⟩
            last := by rw [List.getLast?_cons_cons, hok.last]
            under := fun span hspan => by
              rcases List.mem_cons.1 hspan with rfl | hmem
              · rw [Nat.add_sub_cancel_left]
                simpa using sum_take_fitLength (sizes.drop start) (Nat.zero_le ceiling)
              · exact hok.under span hmem }

/-- The ends of a probe cut the sizes. -/
theorem EndsOk.cutInto {sizes : List Nat} {n ceiling : Nat} {ends : List Nat}
    (h : EndsOk sizes n 0 ceiling ends) : CutInto n sizes (slices sizes 0 ends) := by
  refine ⟨?_, ?_⟩
  · rw [flatten_slices h.chain h.last, List.drop_zero]
  · rw [length_slices, h.length_eq]

/-! ## The ceiling -/

/-- The probes succeed from some ceiling on. -/
theorem cuts_isSome_mono {sizes : List Nat} {n c d : Nat} (hne : sizes ≠ []) (hn : 0 < n)
    (hle : c ≤ d) (h : (cuts sizes n c).isSome = true) : (cuts sizes n d).isSome = true := by
  rw [cuts_isSome_iff hne, walk_iff_cut hn] at h ⊢
  obtain ⟨parts, hcut, hlargest⟩ := h
  exact ⟨parts, hcut, hlargest.trans hle⟩

/-- The lower bound of the search is below the largest part of every way to cut. -/
theorem searchBounds_le {sizes : List Nat} {n : Nat} {parts : List (List Nat)}
    (h : CutInto n sizes parts) : (searchBounds sizes n).1 ≤ largestSum parts := by
  obtain ⟨hlargest, hmean⟩ := le_largestSum_of_cut h
  have hfold : sizes.foldr max 0 ≤ largestSum parts := foldr_max_le_iff.2 hlargest
  simp only [searchBounds, getD_prefixSums (Nat.le_refl _), List.take_length]
  exact max_le hfold hmean

/-- All sizes in one part. -/
theorem cutInto_singleton {sizes : List Nat} {n : Nat} (hn : 0 < n) :
    CutInto n sizes [sizes] :=
  ⟨by simp, hn⟩

theorem cuts_total_isSome {sizes : List Nat} {n : Nat} (hne : sizes ≠ []) (hn : 0 < n) :
    (cuts sizes n sizes.sum).isSome = true := by
  rw [cuts_isSome_iff hne, walk_iff_cut hn]
  refine ⟨[sizes], cutInto_singleton hn, ?_⟩
  simp [largestSum]

/-- The ceiling that is found is feasible, and below the largest part of every way to cut. -/
theorem spanCeiling_spec {sizes : List Nat} {n : Nat} (hne : sizes ≠ []) (hn : 0 < n) :
    (cuts sizes n (spanCeiling sizes n)).isSome = true ∧
      ∀ parts, CutInto n sizes parts → spanCeiling sizes n ≤ largestSum parts := by
  have htotal : (searchBounds sizes n).2 = sizes.sum := by
    simp only [searchBounds, getD_prefixSums (Nat.le_refl _), List.take_length]
  have hbounds : (searchBounds sizes n).1 ≤ (searchBounds sizes n).2 := by
    rw [htotal]
    simpa [largestSum] using searchBounds_le (cutInto_singleton hn)
  have hhigh : (cuts sizes n (searchBounds sizes n).2).isSome = true := by
    rw [htotal]
    exact cuts_total_isSome hne hn
  obtain ⟨-, hpass, hbelow⟩ := searchLeast_spec _ _
    (fun _ _ _ hle _ h => cuts_isSome_mono hne hn hle h) hbounds hhigh
  refine ⟨hpass, fun parts hcut => ?_⟩
  by_contra hlt
  have hfails := hbelow (largestSum parts) (searchBounds_le hcut) (Nat.lt_of_not_le hlt)
  have hfeasible : (cuts sizes n (largestSum parts)).isSome = true := by
    rw [cuts_isSome_iff hne, walk_iff_cut hn]
    exact ⟨parts, hcut, Nat.le_refl _⟩
  rw [hfeasible] at hfails
  cases hfails

/--
The spans of {lit}`_span_ends`.  There are {lit}`n` ends, they do not go back and the last is
the end of the list; every span is under the ceiling; the largest is as small as the largest
of any way to cut into at most {lit}`n` parts; and a probe succeeds exactly when the walk that
cuts whenever the next size does not fit needs at most {lit}`n` parts.
-/
theorem spanEnds_optimal {sizes : List Nat} {n : Nat} (hne : sizes ≠ []) (hn : 1 ≤ n) :
    (∃ ends, spanEnds sizes n = (some ends, prefixSums sizes) ∧
      ends.length = n ∧ (0 :: ends).IsChain (· ≤ ·) ∧ ends.getLast? = some sizes.length ∧
      (∀ span ∈ slices sizes 0 ends, span.sum ≤ spanCeiling sizes n) ∧
      IsLeast { m | ∃ parts, CutInto n sizes parts ∧ m = largestSum parts }
        (largestSum (slices sizes 0 ends))) ∧
    ∀ ceiling, (cuts sizes n ceiling).isSome = true ↔
      ∃ m ≤ n, walkParts ceiling 0 sizes = some m := by
  refine ⟨?_, fun ceiling => cuts_isSome_iff hne⟩
  obtain ⟨hsome, hleast⟩ := spanCeiling_spec hne hn
  obtain ⟨ends, hends⟩ := Option.isSome_iff_exists.1 hsome
  have hok := cutsFrom_endsOk (Nat.zero_le _) hends
  have hlast : ends.getLast? = some sizes.length := by
    cases hcase : ends with
    | nil =>
        have hlength := hok.length_eq
        rw [hcase] at hlength
        simp only [List.length_nil] at hlength
        omega
    | cons stop stops =>
        have hlast := hok.last
        rwa [hcase, List.getLast?_cons_cons] at hlast
  refine ⟨ends, by rw [spanEnds, hends], hok.length_eq, hok.chain, hlast, hok.under, ?_, ?_⟩
  · exact ⟨slices sizes 0 ends, hok.cutInto, rfl⟩
  · rintro m ⟨parts, hcut, rfl⟩
    exact (largestSum_le_iff.2 hok.under).trans (hleast parts hcut)

theorem spanEnds_optimal_zeros :
    ∃ ends, spanEnds [0, 7, 0, 0, 5, 5, 0] 3 = (some ends, [0, 0, 7, 7, 7, 12, 17, 17]) ∧
      ends.getLast? = some 7 := by
  obtain ⟨⟨ends, hends, -, -, hlast, -⟩, -⟩ :=
    @spanEnds_optimal [0, 7, 0, 0, 5, 5, 0] 3 (by decide) (by decide)
  exact ⟨ends, hends, hlast⟩

end Distributed
end ModelStreamer
