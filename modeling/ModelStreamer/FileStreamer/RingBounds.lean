import Mathlib.Order.Bounds.Basic
import Mathlib.Tactic.NormNum
import ModelStreamer.FileStreamer.RingPlanner

/-!
# Rings stay inside their budget

Main results:

- Theorem {lit}`ringSizing_spec`: the size and the number of the buffers of a host ring.
- Theorem {lit}`deviceRingShape_spec`: those of a device ring.
- Theorem {lit}`ring_sizing_bounds`: both stay inside their budget.
-/

namespace ModelStreamer
namespace FileStreamer

open Distributed Lib

/-! ## Depths -/

/-- A ring of at most {lit}`depth` buffers that each hold the largest range, in the budget. -/
structure Affordable (largest budget depth : Nat) (shape : Nat × Nat) : Prop where
  size_le : largest ≤ shape.1
  depth_pos : 1 ≤ shape.2
  depth_le : shape.2 ≤ depth
  bytes_le : shape.2 * shape.1 ≤ budget

/-- As many buffers as the budget pays for. -/
theorem affordable_of_size {largest budget depth size : Nat} (hlargest : largest ≤ size)
    (hpos : 0 < size) (hle : size ≤ budget) (hdepth : 1 ≤ depth) :
    Affordable largest budget depth (size, min depth (budget / size)) where
  size_le := hlargest
  depth_pos := le_min hdepth ((Nat.one_le_div_iff hpos).2 hle)
  depth_le := min_le_left _ _
  bytes_le := (Nat.mul_le_mul_right size (min_le_right _ _)).trans (Nat.div_mul_le_self budget size)

/-- A ring that is cheaper, or less deep, is affordable too. -/
theorem Affordable.mono {largest budget budget' depth depth' : Nat} {shape : Nat × Nat}
    (h : Affordable largest budget depth shape) (hbudget : budget ≤ budget')
    (hdepth : depth ≤ depth') : Affordable largest budget' depth' shape where
  size_le := h.size_le
  depth_pos := h.depth_pos
  depth_le := h.depth_le.trans hdepth
  bytes_le := h.bytes_le.trans hbudget

/-- The size that the depth allows makes the ring as deep as any size can. -/
theorem depth_isGreatest {largest budget : Nat} (hlargest : 0 < largest) (target : Nat) :
    IsGreatest {depth | ∃ size, largest ≤ size ∧ depth = min target (budget / size)}
      (min target (budget / max largest (budget / target))) := by
  constructor
  · exact ⟨_, le_max_left _ _, rfl⟩
  · rintro depth ⟨size, hsize, rfl⟩
    apply le_min (min_le_left _ _)
    cases le_total (budget / target) largest with
    | inl hsmall =>
        -- the largest range decides, and no buffer may be smaller
        rw [max_eq_left hsmall]
        exact (min_le_right _ _).trans (Nat.div_le_div_left hsize hlargest)
    | inr hlarge =>
        rw [max_eq_right hlarge]
        apply (min_le_left _ _).trans
        rw [Nat.le_div_iff_mul_le (hlargest.trans_le hlarge)]
        exact Nat.mul_div_le budget target

/-! ## The host ring -/

section Host

variable {settings : RingSettings} {mode : MemoryCapMode} {files : List FileChunks}
  {limit : Option Int} {ringBuffers : Option Nat} {budget : Nat}

/-- The default depth and every depth that can be set are positive. -/
theorem RingSettings.ringBuffersOrDefault_pos (settings : RingSettings) :
    0 < settings.ringBuffersOrDefault := by
  unfold RingSettings.ringBuffersOrDefault RingSettings.ringBuffersSetting
  cases settings.ringBuffers with
  | none => decide
  | some value =>
      rw [Option.map_some, Option.getD_some]
      omega

theorem RingSettings.target_pos (settings : RingSettings) (ringBuffers : Option Nat) :
    0 < settings.target ringBuffers := by
  unfold RingSettings.target
  split
  · exact Nat.succ_pos _
  · exact settings.ringBuffersOrDefault_pos

/-- No range has more bytes than all. -/
theorem largestRange_le_totalOf (files : List FileChunks) :
    largestRange files ≤ totalOf files := by
  rw [largestRange_le_iff, totalOf_eq]
  exact fun size hsize => List.single_le_sum (fun _ _ => Nat.zero_le _) size hsize

/-- There are bytes exactly when there is a range with bytes. -/
theorem totalOf_pos_iff : 0 < totalOf files ↔ 0 < largestRange files := by
  constructor
  · intro htotal
    by_contra hzero
    have hall := largestRange_le_iff.1 (Nat.le_of_not_lt hzero)
    rw [totalOf_eq] at htotal
    have hsum : (files.flatMap FileChunks.sizes).sum = 0 :=
      List.sum_eq_zero fun size hsize => Nat.le_zero.1 (hall size hsize)
    omega
  · exact fun hlargest => hlargest.trans_le (largestRange_le_totalOf files)

/-- The budget covers the largest range, and is no more than the bytes there are. -/
theorem ringBudget_spec (hbudget : ringBudget mode files limit = .ok budget) :
    largestRange files ≤ budget ∧ budget ≤ totalOf files ∧
      (mode ≠ .unlimited → ∃ bytes, limit = some bytes ∧ (budget : Int) ≤ bytes) := by
  unfold ringBudget at hbudget
  split at hbudget
  · rename_i hmode
    cases hbudget
    exact ⟨largestRange_le_totalOf files, le_rfl, fun hne => absurd hmode hne⟩
  · cases limit with
    | none => cases hbudget
    | some bytes =>
        simp only at hbudget
        split at hbudget
        · cases hbudget
        · rename_i hlarge
          cases hbudget
          have hbytes : largestRange files ≤ bytes.toNat := by omega
          refine ⟨le_min hbytes (largestRange_le_totalOf files), min_le_right _ _, fun _ => ?_⟩
          refine ⟨bytes, rfl, ?_⟩
          have hle := min_le_left bytes.toNat (totalOf files)
          omega

/-- A stream with bytes needs a request. -/
theorem partCount_pos {size : Nat} (hpos : 0 < largestRange files)
    (hsize : largestRange files ≤ size) : 0 < partCount size (allSizes files) := by
  have hne : allSizes files ≠ [] := by
    intro hnil
    have hzero : largestRange files ≤ 0 := largestRange_le_iff.2 (by simp [hnil])
    omega
  rw [partCount_of_ne_nil hne (largestRange_le_iff.1 hsize)]
  exact Nat.succ_pos _

/-- The ring that spans the whole stream stays inside the limit. -/
theorem spanned_spec {bufferSize target : Nat} {shape : Nat × Nat}
    (hlargest : largestRange files ≤ bufferSize) (hpos : 0 < largestRange files)
    (hspan : spanned mode files limit bufferSize target = some shape) :
    ∃ bytes : Int, limit = some bytes ∧ totalOf files < bytes ∧
      Affordable (largestRange files) bytes.toNat target shape := by
  unfold spanned at hspan
  cases limit with
  | none => cases hspan
  | some bytes =>
      simp only at hspan
      split at hspan
      · rename_i hroom
        have hspec := spanWholeStream_spec hlargest (bytes.toNat / target) target
        rw [hspan] at hspec
        obtain ⟨⟨hlow, hhigh⟩, hcount, hdepth, -⟩ := hspec
        refine ⟨bytes, rfl, hroom.2, hlargest.trans hlow, ?_, hdepth, ?_⟩
        · rw [hcount]
          exact partCount_pos hpos (hlargest.trans hlow)
        · exact (Nat.mul_le_mul hdepth hhigh).trans (Nat.mul_div_le bytes.toNat target)
      · cases hspan

/-- What {lit}`_ring_sizing` makes of a budget. -/
structure Sizes (settings : RingSettings) (mode : MemoryCapMode) (files : List FileChunks)
    (limit : Option Int) (ringBuffers : Option Nat) (budget : Nat) (shape : Nat × Nat) : Prop where
  size_le : largestRange files ≤ shape.1
  depth_pos : 1 ≤ shape.2
  depth_le : shape.2 ≤ settings.target ringBuffers
  limited : mode = .limited → ∃ bytes, limit = some bytes ∧ ((shape.2 * shape.1 : Nat) : Int) ≤ bytes
  unlimited : mode = .unlimited → shape.2 * shape.1 ≤ totalOf files
  nothing : totalOf files = 0 → shape = (0, 1)
  /-- Without a span the ring is as deep as any buffer size allows. -/
  deepest : 0 < totalOf files →
    spanned mode files limit (max (largestRange files) (budget / settings.target ringBuffers))
      (settings.target ringBuffers) = none →
    IsGreatest {depth | ∃ size, largestRange files ≤ size ∧
      depth = min (settings.target ringBuffers) (budget / size)} shape.2

/-- A ring is sized whenever there is a budget. -/
theorem ringSizing_spec (hmode : mode ≠ .largestChunk)
    (hbudget : ringBudget mode files limit = .ok budget) :
    ∃ shape, ringSizing settings mode files limit ringBuffers = .ok shape ∧
      Sizes settings mode files limit ringBuffers budget shape := by
  obtain ⟨hlargest, htotal, hlimit⟩ := ringBudget_spec hbudget
  have htarget := settings.target_pos ringBuffers
  unfold ringSizing
  simp only [if_neg hmode, hbudget]
  by_cases hnothing : max (largestRange files) (budget / settings.target ringBuffers) = 0
  · -- there is no byte to read
    rw [if_pos hnothing]
    have hzero : largestRange files = 0 := by omega
    have hnone : ¬ 0 < totalOf files := by
      rw [totalOf_pos_iff]
      omega
    refine ⟨(0, 1), rfl, le_of_eq hzero, le_rfl, htarget, ?_, fun _ => ?_, fun _ => rfl,
      fun htotal => absurd htotal hnone⟩
    · intro hlimited
      obtain ⟨bytes, hbytes, hle⟩ := hlimit (by rw [hlimited]; decide)
      exact ⟨bytes, hbytes, le_trans (by simp) hle⟩
    · simp
  · rw [if_neg hnothing]
    have hpos : 0 < largestRange files := by
      by_contra hzero
      have hempty : ¬ 0 < totalOf files := fun h => hzero (totalOf_pos_iff.1 h)
      have hbudget0 : budget = 0 := by omega
      rw [hbudget0, Nat.zero_div] at hnothing
      omega
    have hnonempty : totalOf files ≠ 0 := Nat.pos_iff_ne_zero.1 (totalOf_pos_iff.2 hpos)
    cases hspan : spanned mode files limit
        (max (largestRange files) (budget / settings.target ringBuffers))
        (settings.target ringBuffers) with
    | some shape =>
        obtain ⟨bytes, hbytes, hroom, hshape⟩ := spanned_spec (le_max_left _ _) hpos hspan
        have hle := hshape.bytes_le
        refine ⟨shape, rfl, hshape.size_le, hshape.depth_pos, hshape.depth_le, ?_, ?_,
          fun h => absurd h hnonempty, fun _ h => by cases hspan.symm.trans h⟩
        · exact fun _ => ⟨bytes, hbytes, by omega⟩
        · -- a ring without a limit never spans
          intro hunlimited
          rw [hunlimited, spanned.eq_def, hbytes] at hspan
          simp at hspan
    | none =>
        have hshape := affordable_of_size (le_max_left _ _)
          (hpos.trans_le (le_max_left (largestRange files) (budget / settings.target ringBuffers)))
          (max_le hlargest (Nat.div_le_self _ _)) htarget
        have hle := hshape.bytes_le
        refine ⟨_, rfl, hshape.size_le, hshape.depth_pos, hshape.depth_le, ?_, ?_,
          fun h => absurd h hnonempty, fun _ _ => depth_isGreatest hpos _⟩
        · intro hlimited
          obtain ⟨bytes, hbytes, hbound⟩ := hlimit (by rw [hlimited]; decide)
          exact ⟨bytes, hbytes, le_trans (by exact_mod_cast hle) hbound⟩
        · exact fun _ => hle.trans htotal

end Host

/-! ## The device ring -/

section Device

variable {φ : Type*} [LinearOrder φ] [Zero φ] {quotient : Nat → Nat → φ}
  {settings : RingSettings} {files : List FileChunks} {ringBuffers : Option Nat}

/-- The search only settles on rings that the budget pays for. -/
theorem bestShape_affordable {largest budget target : Nat} {sizes depths : List Nat}
    (hlargest : 0 < largest) (hle : largest ≤ budget) (htarget : 1 ≤ target)
    {best : Option (Best φ)}
    (hbest : ∀ old ∈ best, Affordable largest budget target old.2) :
    ∀ found ∈ bestShape quotient largest budget target sizes best depths,
      Affordable largest budget target found.2 := by
  induction depths generalizing best with
  | nil => exact hbest
  | cons depth depths ih =>
      have hshape : Affordable largest budget target
          (max largest (budget / depth), min target (budget / max largest (budget / depth))) :=
        affordable_of_size (le_max_left _ _) (hlargest.trans_le (le_max_left _ _))
          (max_le hle (Nat.div_le_self _ _)) htarget
      unfold bestShape
      simp only
      split
      · exact ih hbest
      · cases best with
        | none =>
            apply ih
            rintro _ ⟨⟩
            exact hshape
        | some old =>
            apply ih
            split
            · rintro _ ⟨⟩
              exact hshape
            · exact hbest

/-- The depth that a device ring aims at. -/
def RingSettings.deviceDepth (settings : RingSettings) (ringBuffers : Option Nat) : Nat :=
  (settings.requested ringBuffers).getD defaultRingBuffers

/-- Both rings aim at the same depth, unless a depth of zero is asked for. -/
theorem RingSettings.target_eq (settings : RingSettings)
    (hdepth : ∀ depth ∈ ringBuffers, 1 ≤ depth) :
    settings.target ringBuffers = settings.deviceDepth ringBuffers := by
  cases ringBuffers with
  | none => rfl
  | some depth =>
      have hpos := hdepth depth rfl
      obtain ⟨n, rfl⟩ := Nat.exists_eq_add_of_le' hpos
      rfl

/-- A ring of the host path, sized for the budget of a device. -/
theorem ringSizing_affordable {budget : Nat} {depth : Option Nat}
    (hlargest : largestRange files ≤ budget) :
    ∃ shape, ringSizing settings .limited files (some budget) depth = .ok shape ∧
      Affordable (largestRange files) budget (settings.target depth) shape ∧
      (totalOf files = 0 → shape = (0, 1)) := by
  have hbudget : ringBudget .limited files (some budget) =
      .ok (min budget (totalOf files)) := by
    unfold ringBudget
    rw [if_neg (by decide)]
    exact if_neg (not_lt.2 (by exact_mod_cast hlargest))
  obtain ⟨shape, hok, hsizes⟩ := @ringSizing_spec settings .limited files (some budget) depth _
    (by decide) hbudget
  obtain ⟨bytes, hbytes, hle⟩ := hsizes.limited rfl
  cases hbytes
  exact ⟨shape, hok, ⟨hsizes.size_le, hsizes.depth_pos, hsizes.depth_le, by exact_mod_cast hle⟩,
    hsizes.nothing⟩

/-- A device ring is affordable, and sizing it does not raise. -/
theorem deviceRingShape_spec (quotient : Nat → Nat → φ) (settings : RingSettings)
    (hdepth : ∀ depth ∈ ringBuffers, 1 ≤ depth) {budget : Nat}
    (hfloor : deviceRingFloor files ≤ budget) :
    ∃ shape, deviceRingShape quotient settings files budget ringBuffers = .ok shape ∧
      Affordable (largestRange files) budget (settings.deviceDepth ringBuffers) shape := by
  have hlargest : largestRange files ≤ budget := by
    unfold deviceRingFloor at hfloor
    omega
  have htarget := settings.target_eq hdepth
  have htargetPos : 1 ≤ settings.deviceDepth ringBuffers := by
    rw [← htarget]
    exact settings.target_pos ringBuffers
  have hhost : ∃ shape, ringSizing settings .limited files (some budget) ringBuffers =
      .ok shape ∧
      Affordable (largestRange files) budget (settings.deviceDepth ringBuffers) shape := by
    obtain ⟨shape, hok, hshape, -⟩ := @ringSizing_affordable settings files budget ringBuffers
      hlargest
    exact ⟨shape, hok, htarget ▸ hshape⟩
  unfold deviceRingShape
  simp only
  split
  · -- no range has a byte, so the depth that the host ring aims at does not matter
    rename_i hnothing
    have hzero : totalOf files = 0 := by
      cases hnothing with
      | inl hnone =>
          by_contra hne
          have hpos := totalOf_pos_iff.1 (Nat.pos_of_ne_zero hne)
          omega
      | inr hnone =>
          rw [totalOf_eq]
          refine List.sum_eq_zero fun size hsize => ?_
          by_contra hne
          have hmem : size ∈ (files.flatMap FileChunks.sizes).filter (0 < ·) :=
            List.mem_filter.2 ⟨hsize, by simpa using Nat.pos_of_ne_zero hne⟩
          rw [hnone] at hmem
          cases hmem
    obtain ⟨shape, hok, hshape, hsame⟩ := @ringSizing_affordable settings files budget none
      hlargest
    refine ⟨shape, hok, hshape.size_le, hshape.depth_pos, ?_, hshape.bytes_le⟩
    rw [hsame hzero]
    exact htargetPos
  · rename_i hsome
    have hpos : 0 < largestRange files := Nat.pos_of_ne_zero fun h => hsome (.inl h)
    split
    · exact hhost
    · split
      · exact hhost
      · rename_i hdeep
        have hdeepest : 2 ≤ min (settings.deviceDepth ringBuffers) (budget / largestRange files) :=
          Nat.not_lt.1 hdeep
        split
        · -- a depth that was asked for is used, if the budget pays for it
          refine ⟨_, rfl, le_max_left _ _, by omega, min_le_left _ _, ?_⟩
          have hsize : largestRange files ≤
              budget / min (settings.deviceDepth ringBuffers) (budget / largestRange files) := by
            rw [Nat.le_div_iff_mul_le (by omega)]
            exact (Nat.mul_le_mul_left _ (min_le_right _ _)).trans (Nat.mul_div_le _ _)
          change min (settings.deviceDepth ringBuffers) (budget / largestRange files) *
            max (largestRange files) (budget /
              min (settings.deviceDepth ringBuffers) (budget / largestRange files)) ≤ budget
          rw [max_eq_right hsize]
          exact Nat.mul_div_le _ _
        · rename_i hunset
          have hnone : ringBuffers = none := by
            cases ringBuffers with
            | none => rfl
            | some depth => exact absurd rfl hunset
          have hall := @bestShape_affordable φ _ _ quotient _ _ _
            ((files.flatMap FileChunks.sizes).filter (0 < ·))
            (candidateDepths (min (settings.deviceDepth ringBuffers)
              (budget / largestRange files))) hpos hlargest htargetPos none (by simp)
          split
          · rw [hnone] at hhost ⊢
            exact hhost
          · rename_i best hbest
            exact ⟨best.2, rfl, hall best hbest⟩

/-- A ring is sized exactly when the device has room for two of the largest range. -/
theorem deviceRingSizing_spec (quotient : Nat → Nat → φ) (settings : RingSettings)
    (hdepth : ∀ depth ∈ ringBuffers, 1 ≤ depth) (free : Nat) :
    ((deviceRingBudget settings free files = 0 ∨
        deviceRingBudget settings free files < 2 * largestRange files) ∧
      deviceRingSizing quotient settings (some free) files ringBuffers = .ok none) ∨
    (¬ (deviceRingBudget settings free files = 0 ∨
        deviceRingBudget settings free files < 2 * largestRange files) ∧
      ∃ shape, deviceRingSizing quotient settings (some free) files ringBuffers =
        .ok (some shape) ∧
        Affordable (largestRange files) (deviceRingBudget settings free files)
          (settings.deviceDepth ringBuffers) shape) := by
  unfold deviceRingSizing
  simp only [deviceRingFloor]
  by_cases hsmall : deviceRingBudget settings free files = 0 ∨
      deviceRingBudget settings free files < 2 * largestRange files
  · exact .inl ⟨hsmall, if_pos hsmall⟩
  · right
    have hfloor : deviceRingFloor files ≤ deviceRingBudget settings free files :=
      Nat.not_lt.1 fun h => hsmall (.inr h)
    obtain ⟨shape, hok, hshape⟩ := deviceRingShape_spec quotient settings hdepth hfloor
    refine ⟨hsmall, shape, ?_, hshape⟩
    exact (if_neg hsmall).trans (by rw [hok]; rfl)

end Device

/-! ## Both rings -/

/--
A limited ring is refused exactly without room for the largest range.  Each ring that is made
holds the largest range in each buffer, is no deeper than what was asked for, and stays inside its
budget.
-/
theorem ring_sizing_bounds {φ : Type*} [LinearOrder φ] [Zero φ] (quotient : Nat → Nat → φ)
    (settings : RingSettings) (files : List FileChunks) (ringBuffers : Option Nat)
    (hdepth : ∀ depth ∈ ringBuffers, 1 ≤ depth) :
    (∀ limit, (∃ e, ringSizing settings .limited files limit ringBuffers = .error e) ↔
      ∀ bytes ∈ limit, bytes < largestRange files) ∧
    (∀ mode limit shape, mode ≠ .largestChunk →
      ringSizing settings mode files limit ringBuffers = .ok shape →
      ∃ budget, ringBudget mode files limit = .ok budget ∧
        Sizes settings mode files limit ringBuffers budget shape) ∧
    (∀ limit, ∃ shape, ringSizing settings .unlimited files limit ringBuffers = .ok shape) ∧
    (∀ free, deviceRingSizing quotient settings free files ringBuffers = .ok none ↔
      ∀ bytes ∈ free, deviceRingBudget settings bytes files = 0 ∨
        deviceRingBudget settings bytes files < 2 * largestRange files) ∧
    (∀ free shape, deviceRingSizing quotient settings free files ringBuffers = .ok (some shape) →
      ∃ bytes, free = some bytes ∧
        Affordable (largestRange files) (deviceRingBudget settings bytes files)
          (settings.deviceDepth ringBuffers) shape) ∧
    (∀ free, ∃ answer, deviceRingSizing quotient settings free files ringBuffers = .ok answer) := by
  refine ⟨fun limit => ?_, fun mode limit shape hmode hok => ?_, fun limit => ?_,
    fun free => ?_, fun free shape hok => ?_, fun free => ?_⟩
  · constructor
    · rintro ⟨e, herror⟩ bytes hbytes
      cases hbytes
      by_contra hroom
      have hbudget : ringBudget .limited files (some bytes) =
          .ok (min bytes.toNat (totalOf files)) := by
        unfold ringBudget
        rw [if_neg (by decide)]
        exact if_neg hroom
      obtain ⟨shape, hok, -⟩ := @ringSizing_spec settings .limited files (some bytes) ringBuffers
        _ (by decide) hbudget
      cases herror.symm.trans hok
    · intro hsmall
      cases limit with
      | none => exact ⟨.noLimit, rfl⟩
      | some bytes =>
          refine ⟨.belowLargest bytes (largestRange files), ?_⟩
          unfold ringSizing ringBudget
          simp only [if_neg (by decide : ¬ MemoryCapMode.limited = .largestChunk),
            if_neg (by decide : ¬ MemoryCapMode.limited = .unlimited),
            if_pos (hsmall bytes rfl)]
  · cases hbudget : ringBudget mode files limit with
    | error e =>
        unfold ringSizing at hok
        simp only [if_neg hmode, hbudget] at hok
        cases hok
    | ok budget =>
        obtain ⟨found, hfound, hsizes⟩ := @ringSizing_spec settings mode files limit ringBuffers
          budget hmode hbudget
        cases hfound.symm.trans hok
        exact ⟨budget, rfl, hsizes⟩
  · obtain ⟨shape, hok, -⟩ := @ringSizing_spec settings .unlimited files limit ringBuffers
      (totalOf files) (by decide) rfl
    exact ⟨shape, hok⟩
  · cases free with
    | none => simp [deviceRingSizing]
    | some free =>
        cases @deviceRingSizing_spec φ _ _ files ringBuffers quotient settings hdepth free with
        | inl hnone => simpa [hnone.2] using hnone.1
        | inr hsome =>
            obtain ⟨hroom, shape, hok, -⟩ := hsome
            simpa [hok] using hroom
  · cases free with
    | none => cases hok
    | some free =>
        cases @deviceRingSizing_spec φ _ _ files ringBuffers quotient settings hdepth free with
        | inl hnone => cases hnone.2.symm.trans hok
        | inr hsome =>
            obtain ⟨-, found, hfound, hshape⟩ := hsome
            cases hfound.symm.trans hok
            exact ⟨free, rfl, hshape⟩
  · cases free with
    | none => exact ⟨none, rfl⟩
    | some free =>
        cases @deviceRingSizing_spec φ _ _ files ringBuffers quotient settings hdepth free with
        | inl hnone => exact ⟨none, hnone.2⟩
        | inr hsome =>
            obtain ⟨-, found, hfound, -⟩ := hsome
            exact ⟨some found, hfound⟩

/-- Without any bytes the ring has one buffer, although the budget pays for none. -/
theorem ring_sizing_nothing_to_read :
    ringSizing ⟨none, 8, by decide, 1 / 2, by norm_num, by norm_num⟩ .limited [] (some 0)
        (some 4) = .ok (0, 1) ∧
      spanned .limited [] (some 0) 0 4 = none ∧ ringBudget .limited [] (some 0) = .ok 0 ∧
      ¬ IsGreatest {depth | ∃ size, largestRange [] ≤ size ∧ depth = min 4 (0 / size)} 1 := by
  refine ⟨rfl, rfl, rfl, ?_⟩
  rintro ⟨⟨size, -, hdepth⟩, -⟩
  rw [Nat.zero_div] at hdepth
  omega

/-- Ranges of six, three and five bytes in two files. -/
def sixThreeFive : List FileChunks :=
  [⟨0, "a", [7], [6], rfl⟩, ⟨1, "b", [2, 5], [3, 5], rfl⟩]

/-- Half of the free memory of a device may be used, from eight bytes on. -/
def halfOfDevice : RingSettings :=
  ⟨none, 8, Nat.zero_lt_succ 7, 1 / 2, by norm_num, by norm_num⟩

/-- A limit of thirteen bytes pays for two buffers of six, and one of five for none; a device with
forty free bytes pays for two buffers of six, and one that cannot be measured for none. -/
theorem ring_sizing_bounds_sixThreeFive :
    ringSizing halfOfDevice .limited sixThreeFive (some 13) (some 4) = .ok (6, 2) ∧
      (∃ budget, ringBudget .limited sixThreeFive (some 13) = .ok budget ∧
        Sizes halfOfDevice .limited sixThreeFive (some 13) (some 4) budget (6, 2)) ∧
      (∃ e, ringSizing halfOfDevice .limited sixThreeFive (some 5) (some 4) = .error e) ∧
      deviceRingSizing (fun a b => (a : ℚ) / b) halfOfDevice (some 40) sixThreeFive (some 4) =
        .ok (some (6, 2)) ∧
      (∃ bytes, some 40 = some bytes ∧
        Affordable 6 (deviceRingBudget halfOfDevice bytes sixThreeFive)
          (halfOfDevice.deviceDepth (some 4)) (6, 2)) ∧
      deviceRingSizing (fun a b => (a : ℚ) / b) halfOfDevice none sixThreeFive (some 4) =
        .ok none := by
  have hbounds := ring_sizing_bounds (fun a b => (a : ℚ) / b) halfOfDevice sixThreeFive (some 4)
    (by decide)
  obtain ⟨hrefused, hsizes, -, hnone, hdevice, -⟩ := hbounds
  have hring : ringSizing halfOfDevice .limited sixThreeFive (some 13) (some 4) = .ok (6, 2) := rfl
  have hring' : deviceRingSizing (fun a b => (a : ℚ) / b) halfOfDevice (some 40) sixThreeFive
      (some 4) = .ok (some (6, 2)) := by
    decide +kernel
  refine ⟨hring, hsizes .limited (some 13) (6, 2) (by decide) hring, (hrefused (some 5)).2 ?_,
    hring', hdevice (some 40) (6, 2) hring', (hnone none).2 (by simp)⟩
  intro bytes hbytes
  cases hbytes
  decide

end FileStreamer
end ModelStreamer
