import ModelStreamer.Streamer.Request

/-!
# Coalescing ranges into contiguous transfers

{lit}`Assigner::coalesce` walks the ranges of each file in the caller's order and merges a
range into the transfer before it when the two are adjacent in the file and in the
destination.  A transfer keeps the sizes of the ranges it absorbed, so nothing is lost: the
ranges can be read back from it with two cursors.

Main results:

- Theorem {lit}`coalesce_spec`: on ranges that fit, coalescing succeeds, the transfers
  expand to the caller's ranges in the caller's order, and every transfer is well formed.
-/

namespace ModelStreamer
namespace Streamer

open Common Lib

/-! ## Transfers -/

/-- {lit}`FileReadTask`: one worker's slice of a transfer. -/
structure FileReadTask where
  workloadIndex : Nat
  originalFileIndex : Nat
  offsetInFile : Nat
  size : Nat
  destination : Addr
deriving DecidableEq, Repr

/-- {lit}`ContiguousTransfer`: ranges adjacent in both the file and the destination. -/
structure ContiguousTransfer where
  fileIndex : Nat
  offset : Nat
  size : Nat
  destination : Addr
  firstRangeIndex : Nat
  rangeSizes : List Nat
  tasks : List FileReadTask
deriving DecidableEq, Repr

/-- The largest {lit}`size_t`. -/
def sizeMax : Nat := 2 ^ 64 - 1

/--
The loop state of {lit}`Assigner::coalesce`.  {lit}`openIndex` is the index of the transfer
open for extension; the number of transfers means that none is open.
-/
structure CoalesceState where
  transfers : List ContiguousTransfer
  totalBytes : Nat
  openIndex : Nat
deriving DecidableEq, Repr

/-- A new transfer that holds the one range. -/
def openedTransfer (fileIndex i : Nat) (range : ReadRange) : ContiguousTransfer :=
  { fileIndex, offset := range.offset, size := range.size, destination := range.dst,
    firstRangeIndex := i, rangeSizes := [range.size], tasks := [] }

/-- The range starts where the transfer ends, in the file and in memory. -/
def ContiguousTransfer.adjacent (current : ContiguousTransfer) (range : ReadRange) : Bool :=
  wordAdd 64 current.offset current.size = range.offset &&
    ptrAdd current.destination current.size = range.dst

/-- The transfer with the range merged into it. -/
def ContiguousTransfer.extend (current : ContiguousTransfer) (range : ReadRange) :
    ContiguousTransfer :=
  { current with
    size := wordAdd 64 current.size range.size
    rangeSizes := current.rangeSizes ++ [range.size] }

/-- One turn of the inner loop of {lit}`Assigner::coalesce`. -/
def coalesceRange (fileIndex i : Nat) (range : ReadRange) (s : CoalesceState) :
    Except Failure CoalesceState :=
  if s.totalBytes > sizeMax - range.size then
    .error (.exception .invalidParameterError)
  else
    let opened : CoalesceState :=
      { transfers := s.transfers ++ [openedTransfer fileIndex i range]
        totalBytes := s.totalBytes + range.size
        openIndex := s.transfers.length }
    match s.transfers[s.openIndex]? with
    | some current =>
        if current.adjacent range then
          .ok
            { s with
              transfers := s.transfers.set s.openIndex (current.extend range)
              totalBytes := s.totalBytes + range.size }
        else
          .ok opened
    | none => .ok opened

/-- The loop over the ranges of one file, from range index {lit}`i` on. -/
def coalesceRanges (fileIndex : Nat) :
    Nat → List ReadRange → CoalesceState → Except Failure CoalesceState
  | _, [], s => .ok s
  | i, range :: ranges, s => do
      let s ← coalesceRange fileIndex i range s
      coalesceRanges fileIndex (i + 1) ranges s

/-- The loop over the files; no transfer is open when a file starts. -/
def coalesceFiles : Nat → List FileRanges → CoalesceState → Except Failure CoalesceState
  | _, [], s => .ok s
  | fileIndex, file :: files, s => do
      let s ← coalesceRanges fileIndex 0 file.ranges { s with openIndex := s.transfers.length }
      coalesceFiles (fileIndex + 1) files s

/-- {lit}`Assigner::coalesce`: the transfers and the byte total of the request. -/
def coalesce (request : List FileRanges) : Except Failure CoalesceState :=
  coalesceFiles 0 request { transfers := [], totalBytes := 0, openIndex := 0 }

/-! ## What a transfer stands for -/

/-- A range of the request together with the place the caller gave it. -/
structure PlacedRange where
  fileIndex : Nat
  index : Nat
  range : ReadRange
deriving DecidableEq, Repr

/-- The ranges of one file with their places, from index {lit}`i` on. -/
def placedRanges (fileIndex : Nat) : Nat → List ReadRange → List PlacedRange
  | _, [] => []
  | i, range :: ranges => ⟨fileIndex, i, range⟩ :: placedRanges fileIndex (i + 1) ranges

/-- All ranges of the request in the caller's order, from file index {lit}`k` on. -/
def placedFiles : Nat → List FileRanges → List PlacedRange
  | _, [] => []
  | k, file :: files => placedRanges k 0 file.ranges ++ placedFiles (k + 1) files

/-- The places of a file's ranges count up from the first index. -/
theorem mem_placedRanges {k i : Nat} {ranges : List ReadRange} {placed : PlacedRange} :
    placed ∈ placedRanges k i ranges ↔
      placed.fileIndex = k ∧ i ≤ placed.index ∧
        ranges[placed.index - i]? = some placed.range := by
  induction ranges generalizing i with
  | nil => simp [placedRanges]
  | cons range ranges ih =>
      simp only [placedRanges, List.mem_cons, ih]
      constructor
      · rintro (rfl | ⟨hfile, hle, hget⟩)
        · simp
        · refine ⟨hfile, by omega, ?_⟩
          rw [show placed.index - i = placed.index - (i + 1) + 1 by omega]
          simpa using hget
      · rintro ⟨hfile, hle, hget⟩
        by_cases hi : placed.index = i
        · left
          rw [hi, Nat.sub_self, List.getElem?_cons_zero, Option.some.injEq] at hget
          cases placed
          simp_all
        · right
          refine ⟨hfile, by omega, ?_⟩
          rw [show placed.index - i = placed.index - (i + 1) + 1 by omega] at hget
          simpa using hget

/-- A range of the request has a place, and every place is a range of the request. -/
theorem mem_placedFiles {k : Nat} {files : List FileRanges} {placed : PlacedRange} :
    placed ∈ placedFiles k files ↔
      k ≤ placed.fileIndex ∧ ∃ file, files[placed.fileIndex - k]? = some file ∧
        file.ranges[placed.index]? = some placed.range := by
  induction files generalizing k with
  | nil => simp [placedFiles]
  | cons file files ih =>
      simp only [placedFiles, List.mem_append, mem_placedRanges, ih, Nat.sub_zero,
        Nat.zero_le, true_and]
      constructor
      · rintro (⟨hfile, hget⟩ | ⟨hle, f, hf, hget⟩)
        · exact ⟨by omega, file, by simp [hfile], hget⟩
        · refine ⟨by omega, f, ?_, hget⟩
          rw [show placed.fileIndex - k = placed.fileIndex - (k + 1) + 1 by omega]
          simpa using hf
      · rintro ⟨hle, f, hf, hget⟩
        by_cases hk : placed.fileIndex = k
        · left
          rw [hk, Nat.sub_self, List.getElem?_cons_zero, Option.some.injEq] at hf
          exact ⟨hk, hf ▸ hget⟩
        · right
          refine ⟨by omega, f, ?_, hget⟩
          rw [show placed.fileIndex - k = placed.fileIndex - (k + 1) + 1 by omega] at hf
          simpa using hf

/-- The ranges read back from their sizes with a file cursor and a destination cursor. -/
def expandSizes (fileIndex : Nat) : Nat → Nat → Addr → List Nat → List PlacedRange
  | _, _, _, [] => []
  | index, offset, dst, n :: ns =>
      ⟨fileIndex, index, ⟨offset, n, dst⟩⟩ ::
        expandSizes fileIndex (index + 1) (offset + n) (ptrAdd dst n) ns

/-- The ranges a transfer was coalesced from. -/
def ContiguousTransfer.expand (t : ContiguousTransfer) : List PlacedRange :=
  expandSizes t.fileIndex t.firstRangeIndex t.offset t.destination t.rangeSizes

/-- The invariant of a coalesced transfer that has not been divided yet. -/
structure ContiguousTransfer.WellFormed (t : ContiguousTransfer) : Prop where
  size_eq : t.size = t.rangeSizes.sum
  sizes_ne_nil : t.rangeSizes ≠ []
  stop_lt : t.offset + t.size < 2 ^ 63
  tasks_eq : t.tasks = []

/-- Expanding a longer list of sizes continues where the shorter one stopped. -/
theorem expandSizes_append (fileIndex index offset : Nat) (dst : Addr) (ms ns : List Nat) :
    expandSizes fileIndex index offset dst (ms ++ ns) =
      expandSizes fileIndex index offset dst ms ++
        expandSizes fileIndex (index + ms.length) (offset + ms.sum) (ptrAdd dst ms.sum) ns := by
  induction ms generalizing index offset dst with
  | nil => simp [expandSizes]
  | cons m ms ih =>
      simp only [List.cons_append, expandSizes, ih, List.length_cons, List.sum_cons,
        ptrAdd_ptrAdd]
      rw [Nat.add_assoc index 1, Nat.add_comm 1 ms.length, Nat.add_assoc offset m]

@[simp]
theorem expand_openedTransfer (fileIndex i : Nat) (range : ReadRange) :
    (openedTransfer fileIndex i range).expand = [⟨fileIndex, i, range⟩] :=
  rfl

/-- Merging an adjacent range adds exactly that range to what the transfer stands for. -/
theorem expand_extend {t : ContiguousTransfer} {range : ReadRange} (ht : t.WellFormed)
    (hadj : t.adjacent range = true) :
    (t.extend range).expand =
      t.expand ++ [⟨t.fileIndex, t.firstRangeIndex + t.rangeSizes.length, range⟩] := by
  have hstop := ht.stop_lt
  have hlt : t.offset + t.size < 2 ^ 64 := by omega
  simp only [ContiguousTransfer.adjacent, wordAdd_of_lt hlt, Bool.and_eq_true,
    decide_eq_true_eq] at hadj
  obtain ⟨hoffset, hdst⟩ := hadj
  simp only [ContiguousTransfer.expand, ContiguousTransfer.extend, expandSizes_append,
    ← ht.size_eq, hoffset, hdst, expandSizes]

/-- Merging an adjacent range that fits keeps a transfer well formed. -/
theorem ContiguousTransfer.WellFormed.extend {t : ContiguousTransfer} {range : ReadRange}
    (ht : t.WellFormed)
    (hadj : t.adjacent range = true) (hrange : range.offset + range.size < 2 ^ 63) :
    (t.extend range).WellFormed := by
  have hstop := ht.stop_lt
  have hlt : t.offset + t.size < 2 ^ 64 := by omega
  simp only [ContiguousTransfer.adjacent, wordAdd_of_lt hlt, Bool.and_eq_true,
    decide_eq_true_eq] at hadj
  have hsum : t.size + range.size < 2 ^ 64 := by omega
  constructor
  · simp only [ContiguousTransfer.extend, wordAdd_of_lt hsum, List.sum_append,
      List.sum_singleton, ← ht.size_eq]
  · simp [ContiguousTransfer.extend]
  · simp only [ContiguousTransfer.extend, wordAdd_of_lt hsum]
    omega
  · exact ht.tasks_eq

/-- A transfer that holds one range that fits is well formed. -/
theorem openedTransfer_wellFormed (fileIndex i : Nat) {range : ReadRange}
    (hrange : range.offset + range.size < 2 ^ 63) :
    (openedTransfer fileIndex i range).WellFormed := by
  constructor
  · simp [openedTransfer]
  · simp [openedTransfer]
  · exact hrange
  · rfl

/-- The byte total of a list of placed ranges. -/
def totalSize (ranges : List PlacedRange) : Nat :=
  (ranges.map fun placed => placed.range.size).sum

@[simp]
theorem totalSize_append (xs ys : List PlacedRange) :
    totalSize (xs ++ ys) = totalSize xs + totalSize ys := by
  simp [totalSize]

@[simp]
theorem totalSize_cons (x : PlacedRange) (xs : List PlacedRange) :
    totalSize (x :: xs) = x.range.size + totalSize xs := by
  simp [totalSize]

@[simp]
theorem totalSize_nil : totalSize [] = 0 :=
  rfl

/-- A well-formed transfer has the size of the ranges it stands for. -/
theorem totalSize_expand {t : ContiguousTransfer} (ht : t.WellFormed) :
    totalSize t.expand = t.size := by
  have hsizes : ∀ (ns : List Nat) (index offset : Nat) (dst : Addr),
      totalSize (expandSizes t.fileIndex index offset dst ns) = ns.sum := by
    intro ns
    induction ns with
    | nil => intros; rfl
    | cons n ns ih => intro index offset dst; simp [expandSizes, ih]
  rw [ht.size_eq]
  exact hsizes _ _ _ _

/-! ## The loop invariant -/

/--
The state of the loop when {lit}`expanded` are the ranges walked so far and the next range
is number {lit}`i` of file {lit}`fileIndex`.  The open transfer, if there is one, is the
last transfer and ends with the range walked last.
-/
structure CoalesceInv (fileIndex i : Nat) (expanded : List PlacedRange)
    (s : CoalesceState) : Prop where
  expand_eq : s.transfers.flatMap ContiguousTransfer.expand = expanded
  wellFormed : ∀ t ∈ s.transfers, t.WellFormed
  total_eq : s.totalBytes = totalSize expanded
  open_cases : s.openIndex = s.transfers.length ∨
    ∃ done current, s.transfers = done ++ [current] ∧ s.openIndex = done.length ∧
      current.fileIndex = fileIndex ∧ current.firstRangeIndex + current.rangeSizes.length = i

/-- Opening a new transfer for the range keeps the invariant. -/
theorem CoalesceInv.opened {fileIndex i : Nat} {expanded : List PlacedRange}
    {s : CoalesceState} (h : CoalesceInv fileIndex i expanded s) {range : ReadRange}
    (hrange : range.offset + range.size < 2 ^ 63) :
    CoalesceInv fileIndex (i + 1) (expanded ++ [⟨fileIndex, i, range⟩])
      { transfers := s.transfers ++ [openedTransfer fileIndex i range]
        totalBytes := s.totalBytes + range.size
        openIndex := s.transfers.length } := by
  constructor
  · simp [h.expand_eq]
  · intro t ht
    rcases List.mem_append.1 ht with hmem | hmem
    · exact h.wellFormed t hmem
    · obtain rfl := List.mem_singleton.1 hmem
      exact openedTransfer_wellFormed fileIndex i hrange
  · simp [h.total_eq]
  · exact Or.inr ⟨s.transfers, _, rfl, rfl, rfl, rfl⟩

/-- Merging the range into the open transfer keeps the invariant. -/
theorem CoalesceInv.extended {fileIndex i : Nat} {expanded : List PlacedRange}
    {s : CoalesceState} (h : CoalesceInv fileIndex i expanded s) {range : ReadRange}
    (hrange : range.offset + range.size < 2 ^ 63) {done : List ContiguousTransfer}
    {current : ContiguousTransfer} (htransfers : s.transfers = done ++ [current])
    (hopen : s.openIndex = done.length) (hfile : current.fileIndex = fileIndex)
    (hindex : current.firstRangeIndex + current.rangeSizes.length = i)
    (hadj : current.adjacent range = true) :
    CoalesceInv fileIndex (i + 1) (expanded ++ [⟨fileIndex, i, range⟩])
      { s with
        transfers := s.transfers.set s.openIndex (current.extend range)
        totalBytes := s.totalBytes + range.size } := by
  have hcurrent : current.WellFormed := h.wellFormed current (by simp [htransfers])
  have hset : s.transfers.set s.openIndex (current.extend range) =
      done ++ [current.extend range] := by
    rw [htransfers, hopen, List.set_append_right _ _ (le_refl _)]
    simp
  constructor
  · have hexpand := h.expand_eq
    simp only [htransfers, List.flatMap_append, List.flatMap_singleton] at hexpand
    simp only [hset, List.flatMap_append, List.flatMap_singleton,
      expand_extend hcurrent hadj, ← List.append_assoc, hexpand, hfile, hindex]
  · intro t ht
    rw [hset] at ht
    rcases List.mem_append.1 ht with hmem | hmem
    · exact h.wellFormed t (by simp [htransfers, hmem])
    · obtain rfl := List.mem_singleton.1 hmem
      exact hcurrent.extend hadj hrange
  · simp [h.total_eq]
  · refine Or.inr ⟨done, current.extend range, hset, hopen, hfile, ?_⟩
    simp only [ContiguousTransfer.extend, List.length_append, List.length_singleton]
    omega

/-- One range that fits is always absorbed, into the open transfer or into a new one. -/
theorem coalesceRange_inv {fileIndex i : Nat} {expanded : List PlacedRange}
    {s : CoalesceState} (h : CoalesceInv fileIndex i expanded s) {range : ReadRange}
    (hrange : range.offset + range.size < 2 ^ 63)
    (htotal : totalSize expanded + range.size < 2 ^ 64) :
    ∃ s', coalesceRange fileIndex i range s = .ok s' ∧
      CoalesceInv fileIndex (i + 1) (expanded ++ [⟨fileIndex, i, range⟩]) s' := by
  have hguard : ¬ s.totalBytes > sizeMax - range.size := by
    have htotal_eq := h.total_eq
    unfold sizeMax
    omega
  simp only [coalesceRange, if_neg hguard]
  rcases h.open_cases with hnone | ⟨done, current, htransfers, hopen, hfile, hindex⟩
  · have hget : s.transfers[s.openIndex]? = none := by simp [hnone]
    rw [hget]
    exact ⟨_, rfl, h.opened hrange⟩
  · have hget : s.transfers[s.openIndex]? = some current := by simp [htransfers, hopen]
    rw [hget]
    by_cases hadj : current.adjacent range = true
    · simp only [hadj, if_true]
      exact ⟨_, rfl, h.extended hrange htransfers hopen hfile hindex hadj⟩
    · simp only [hadj]
      exact ⟨_, rfl, h.opened hrange⟩

/-- The ranges of one file are absorbed one after the other. -/
theorem coalesceRanges_inv {fileIndex i : Nat} {expanded : List PlacedRange}
    {s : CoalesceState} (ranges : List ReadRange)
    (h : CoalesceInv fileIndex i expanded s)
    (hranges : ∀ range ∈ ranges, range.offset + range.size < 2 ^ 63)
    (htotal : totalSize (expanded ++ placedRanges fileIndex i ranges) < 2 ^ 64) :
    ∃ s', coalesceRanges fileIndex i ranges s = .ok s' ∧
      CoalesceInv fileIndex (i + ranges.length)
        (expanded ++ placedRanges fileIndex i ranges) s' := by
  induction ranges generalizing i expanded s with
  | nil => exact ⟨s, rfl, by simpa [placedRanges] using h⟩
  | cons range ranges ih =>
      have hsplit : expanded ++ placedRanges fileIndex i (range :: ranges) =
          (expanded ++ [⟨fileIndex, i, range⟩]) ++ placedRanges fileIndex (i + 1) ranges := by
        simp [placedRanges]
      have hfirst : totalSize expanded + range.size < 2 ^ 64 := by
        rw [hsplit] at htotal
        simp only [totalSize_append, totalSize_cons, totalSize_nil] at htotal
        omega
      obtain ⟨s₁, hs₁, hinv₁⟩ := coalesceRange_inv h (hranges range (by simp)) hfirst
      obtain ⟨s₂, hs₂, hinv₂⟩ :=
        ih hinv₁ (fun r hr => hranges r (by simp [hr])) (hsplit ▸ htotal)
      refine ⟨s₂, ?_, ?_⟩
      · simp only [coalesceRanges, hs₁]
        exact hs₂
      · rw [hsplit, List.length_cons, Nat.add_comm ranges.length 1, ← Nat.add_assoc]
        exact hinv₂

/-- The files are absorbed one after the other, whatever the file before left open. -/
theorem coalesceFiles_inv {k k₀ i₀ : Nat} {expanded : List PlacedRange} {s : CoalesceState}
    (files : List FileRanges) (h : CoalesceInv k₀ i₀ expanded s)
    (hranges : ∀ file ∈ files, ∀ range ∈ file.ranges, range.offset + range.size < 2 ^ 63)
    (htotal : totalSize (expanded ++ placedFiles k files) < 2 ^ 64) :
    ∃ s' k' i', coalesceFiles k files s = .ok s' ∧
      CoalesceInv k' i' (expanded ++ placedFiles k files) s' := by
  induction files generalizing k k₀ i₀ expanded s with
  | nil => exact ⟨s, k₀, i₀, rfl, by simpa [placedFiles] using h⟩
  | cons file files ih =>
      have hsplit : expanded ++ placedFiles k (file :: files) =
          (expanded ++ placedRanges k 0 file.ranges) ++ placedFiles (k + 1) files := by
        simp [placedFiles]
      rw [hsplit] at htotal ⊢
      have hreset : CoalesceInv k 0 expanded { s with openIndex := s.transfers.length } :=
        ⟨h.expand_eq, h.wellFormed, h.total_eq, Or.inl rfl⟩
      have hfirst : totalSize (expanded ++ placedRanges k 0 file.ranges) < 2 ^ 64 := by
        rw [totalSize_append] at htotal
        omega
      obtain ⟨s₁, hs₁, hinv₁⟩ :=
        coalesceRanges_inv file.ranges hreset (hranges file (by simp)) hfirst
      obtain ⟨s₂, k', i', hs₂, hinv₂⟩ :=
        ih hinv₁ (fun f hf => hranges f (by simp [hf])) htotal
      refine ⟨s₂, k', i', ?_, hinv₂⟩
      simp only [coalesceFiles, hs₁]
      exact hs₂

/-- What coalescing promises about its transfers. -/
structure Coalesced (request : List FileRanges) (s : CoalesceState) : Prop where
  expand_eq : s.transfers.flatMap ContiguousTransfer.expand = placedFiles 0 request
  wellFormed : ∀ t ∈ s.transfers, t.WellFormed
  total_eq : s.totalBytes = (s.transfers.map ContiguousTransfer.size).sum
  total_lt : s.totalBytes < 2 ^ 64

/-- The ranges of a request end below {lit}`2 ^ 63` and its bytes are countable. -/
structure RequestFits (request : List FileRanges) : Prop where
  range_stop : ∀ file ∈ request, ∀ range ∈ file.ranges, range.offset + range.size < 2 ^ 63
  total : totalSize (placedFiles 0 request) < 2 ^ 64

/-- The sizes of well-formed transfers add up to the ranges they stand for. -/
theorem sum_size_eq_totalSize {transfers : List ContiguousTransfer}
    (h : ∀ t ∈ transfers, t.WellFormed) :
    (transfers.map ContiguousTransfer.size).sum =
      totalSize (transfers.flatMap ContiguousTransfer.expand) := by
  induction transfers with
  | nil => rfl
  | cons t ts ih =>
      have ht : t.WellFormed := h t (by simp)
      simp only [List.map_cons, List.sum_cons, List.flatMap_cons, totalSize_append,
        totalSize_expand ht, ih fun t' ht' => h t' (by simp [ht'])]

/-- Coalescing a request that fits succeeds and loses nothing of it. -/
theorem coalesce_spec {request : List FileRanges} (h : RequestFits request) :
    ∃ s, coalesce request = .ok s ∧ Coalesced request s := by
  have hinit : CoalesceInv 0 0 [] { transfers := [], totalBytes := 0, openIndex := 0 } :=
    ⟨rfl, by simp, rfl, Or.inl rfl⟩
  obtain ⟨s, k, i, hs, hinv⟩ :=
    coalesceFiles_inv (k := 0) request hinit h.range_stop (by simpa using h.total)
  have hexpand : s.transfers.flatMap ContiguousTransfer.expand = placedFiles 0 request := by
    simpa using hinv.expand_eq
  have htotal : s.totalBytes = totalSize (placedFiles 0 request) := by
    simpa using hinv.total_eq
  refine ⟨s, hs, hexpand, hinv.wellFormed, ?_, ?_⟩
  · rw [htotal, sum_size_eq_totalSize hinv.wellFormed, hexpand]
  · rw [htotal]
    exact h.total

end Streamer
end ModelStreamer
