import Mathlib.Algebra.BigOperators.Group.List.Basic
import ModelStreamer.Safetensors.Metadata

/-!
# Accepted headers

The checks of a header look at one tensor and at two neighbours at a time.  Together they
accept a header exactly when its tensors cover the data section, and the order of the keys
decides nothing but the order of tensors without bytes.

Main results:

- Theorem {lit}`make_isOk_iff`: what is accepted.
- Theorem {lit}`header_accepted_iff_tiles`: the same with the order, the end of the data and
  the ranges of both loads.
-/

namespace ModelStreamer
namespace Safetensors

open Lib

/-! ## Valid headers -/

/-- A shape stores this many torch elements; {lit}`F4` packs two values along the last axis. -/
def StoresElements (dtype : Dtype) (shape : List Nat) (elements : Nat) : Prop :=
  if dtype = .f4 then ∃ init half, shape = init ++ [2 * half] ∧ elements = init.prod * half
  else elements = shape.prod

/-- The storage shape exists and has the bytes that the offsets reserve. -/
def HeaderOk (supported : Dtype → Bool) (header : TensorHeader) : Prop :=
  supported header.dtype = true ∧ ∃ start stop elements,
    header.dataOffsets = some (start, stop) ∧
    StoresElements header.dtype header.shape elements ∧
    ((elements * header.dtype.itemsize : Nat) : Int) = stop - start ∧ 0 ≤ stop - start

/-- The entries of a header that are tensors. -/
def tensorEntries (blob : Blob) : Blob :=
  blob.filter fun entry => entry.1 ≠ metadataKey

/-- The ranges that the tensors of a header occupy. -/
def dataRanges (blob : Blob) : List (Int × Int) :=
  (tensorEntries blob).filterMap fun entry => entry.2.dataOffsets

/-- Every tensor is consistent, and together they tile the data section. -/
def ValidHeader (supported : Dtype → Bool) (blob : Blob) : Prop :=
  (∀ entry ∈ tensorEntries blob, HeaderOk supported entry.2) ∧
    ∃ total, Covers Prod.fst Prod.snd 0 total (dataRanges blob)

/-- The start and the end of a tensor. -/
def SafetensorMetadata.start (tensor : SafetensorMetadata) : Int :=
  tensor.offsets.start

def SafetensorMetadata.stop (tensor : SafetensorMetadata) : Int :=
  tensor.offsets.stop

/-! ## One tensor -/

/-- The metadata of an entry whose offsets are there. -/
def tensorOf (entry : String × TensorHeader) : SafetensorMetadata :=
  { name := entry.1
    shape := entry.2.shape
    dtype := entry.2.dtype
    offsets := ⟨(entry.2.dataOffsets.getD (0, 0)).1, (entry.2.dataOffsets.getD (0, 0)).2⟩ }

/-- The storage shape of a tensor. -/
theorem getStorageShape_ok_iff {tensor : SafetensorMetadata} {elements : Nat} :
    (∃ shape, tensor.getStorageShape = .ok shape ∧ elements = shape.prod) ↔
      StoresElements tensor.dtype tensor.shape elements := by
  unfold SafetensorMetadata.getStorageShape StoresElements
  by_cases hpacked : tensor.dtype = .f4
  · have htwo : tensor.dtype.valuesPerElement = 2 := by rw [hpacked]; rfl
    simp only [htwo]
    rw [if_neg (by decide), if_pos hpacked]
    cases hlast : tensor.shape.getLast? with
    | none =>
        have hnil : tensor.shape = [] := List.getLast?_eq_none_iff.1 hlast
        simp [hnil]
    | some last =>
        obtain ⟨init, hshape⟩ := List.getLast?_eq_some_iff.1 hlast
        have hdrop : tensor.shape.dropLast = init := by rw [hshape, List.dropLast_concat]
        simp only
        constructor
        · rintro ⟨shape, hok, rfl⟩
          split_ifs at hok with hodd
          cases hok
          refine ⟨init, last / 2, ?_, ?_⟩
          · rw [hshape]
            congr 2
            omega
          · rw [hdrop, List.prod_append, List.prod_singleton]
        · rintro ⟨init', half, hsplit, rfl⟩
          rw [hshape] at hsplit
          obtain ⟨rfl, heq⟩ := List.append_inj' hsplit rfl
          have hhalf : last = 2 * half := by simpa using heq
          rw [if_neg (by omega)]
          refine ⟨_, rfl, ?_⟩
          rw [hdrop, List.prod_append, List.prod_singleton, hhalf,
            Nat.mul_div_cancel_left half (by decide)]
  · have hone : tensor.dtype.valuesPerElement = 1 := by
      cases hcase : tensor.dtype <;> simp_all [Dtype.valuesPerElement]
    simp [hone, hpacked]

/-- A tensor passes its own check exactly when its header is consistent. -/
theorem make_eq_ok_iff {supported : Dtype → Bool} {entry : String × TensorHeader}
    {tensor : SafetensorMetadata} :
    SafetensorMetadata.make supported entry.1 entry.2 = .ok tensor ↔
      HeaderOk supported entry.2 ∧ tensor = tensorOf entry := by
  unfold SafetensorMetadata.make HeaderOk
  cases hoffsets : entry.2.dataOffsets with
  | none => simp
  | some pair =>
      obtain ⟨start, stop⟩ := pair
      simp only [Option.some.injEq, Prod.mk.injEq]
      have htensor : tensorOf entry =
          SafetensorMetadata.mk entry.1 entry.2.shape entry.2.dtype ⟨start, stop⟩ := by
        simp [tensorOf, hoffsets]
      rw [htensor]
      generalize hmade :
        SafetensorMetadata.mk entry.1 entry.2.shape entry.2.dtype ⟨start, stop⟩ = made
      have hshape : made.shape = entry.2.shape := by rw [← hmade]
      have hdtype : made.dtype = entry.2.dtype := by rw [← hmade]
      have hdiff : made.offsets.getDiff = stop - start := by rw [← hmade]; rfl
      have hstorage := fun elements => @getStorageShape_ok_iff made elements
      simp only [hshape, hdtype] at hstorage
      unfold SafetensorMetadata.validateShapeConsistency SafetensorMetadata.getElementSize
      simp only [hdtype, hdiff]
      cases hcase : made.getStorageShape with
      | error error =>
          have hnone : ∀ elements, ¬ StoresElements entry.2.dtype entry.2.shape elements := by
            intro elements helements
            obtain ⟨shape, hok, -⟩ := (hstorage elements).2 helements
            rw [hcase] at hok
            cases hok
          constructor
          · intro h
            simp [bind, Except.bind] at h
          · rintro ⟨⟨-, _, _, elements, -, helements, -⟩, -⟩
            exact absurd helements (hnone elements)
      | ok shape =>
          have hiff : ∀ elements, StoresElements entry.2.dtype entry.2.shape elements ↔
              elements = shape.prod := by
            intro elements
            rw [← hstorage elements, hcase]
            constructor
            · rintro ⟨shape', hok, rfl⟩
              cases hok
              rfl
            · exact fun h => ⟨shape, rfl, h⟩
          by_cases hsupported : supported entry.2.dtype = true
          · simp only [bind, Except.bind, hsupported, if_true, true_and]
            split_ifs with hbytes
            · constructor
              · intro h
                cases h
              · rintro ⟨⟨s, e, elements, ⟨rfl, rfl⟩, helements, heq, -⟩, -⟩
                rw [(hiff elements).1 helements] at heq
                exact absurd heq hbytes
            · have heq : ((shape.prod * entry.2.dtype.itemsize : Nat) : Int) = stop - start :=
                not_not.1 hbytes
              constructor
              · intro h
                cases h
                refine ⟨⟨start, stop, shape.prod, ⟨rfl, rfl⟩, (hiff _).2 rfl, heq, ?_⟩, rfl⟩
                rw [← heq]
                exact Int.natCast_nonneg _
              · rintro ⟨-, rfl⟩
                rfl
          · simp [bind, Except.bind, hsupported]

/-- A header whose tensors all pass their own check. -/
theorem collectTensors_eq_ok_iff {supported : Dtype → Bool} {blob : Blob}
    {tensors : List SafetensorMetadata} :
    collectTensors supported blob = .ok tensors ↔
      (∀ entry ∈ tensorEntries blob, HeaderOk supported entry.2) ∧
        tensors = (tensorEntries blob).map tensorOf := by
  induction blob generalizing tensors with
  | nil => simp [collectTensors, tensorEntries, eq_comm]
  | cons entry blob ih =>
      obtain ⟨name, header⟩ := entry
      by_cases hname : name ≠ metadataKey
      · have hentries : tensorEntries ((name, header) :: blob) =
            (name, header) :: tensorEntries blob := by
          simp [tensorEntries, hname]
        rw [hentries]
        simp only [collectTensors, hname, not_false_eq_true, if_true, ne_eq, bind, Except.bind]
        constructor
        · intro h
          cases hmake : SafetensorMetadata.make supported name header with
          | error error =>
              rw [hmake] at h
              cases h
          | ok tensor =>
              rw [hmake] at h
              cases hrest : collectTensors supported blob with
              | error error =>
                  rw [hrest] at h
                  cases h
              | ok rest =>
                  rw [hrest] at h
                  cases h
                  obtain ⟨hok, rfl⟩ := (@make_eq_ok_iff _ (name, header) _).1 hmake
                  obtain ⟨hall, rfl⟩ := ih.1 hrest
                  refine ⟨fun entry hentry => ?_, rfl⟩
                  rcases List.mem_cons.1 hentry with rfl | hmem
                  · exact hok
                  · exact hall entry hmem
        · rintro ⟨hall, rfl⟩
          have hmake := (@make_eq_ok_iff _ (name, header) _).2
            ⟨hall _ List.mem_cons_self, rfl⟩
          have hrest := ih.2 ⟨fun entry hentry => hall entry (List.mem_cons_of_mem _ hentry), rfl⟩
          rw [hmake, hrest]
          rfl
      · have hentries : tensorEntries ((name, header) :: blob) = tensorEntries blob := by
          simp [tensorEntries, hname]
        rw [hentries, collectTensors, if_neg hname]
        exact ih

/-! ## Neighbours -/

/-- The tensors follow each other without a gap, from the first one on. -/
def FollowEachOther (tensors : List SafetensorMetadata) : Prop :=
  ∀ first, tensors.head? = some first → ∃ total,
    Contiguous SafetensorMetadata.start SafetensorMetadata.stop first.start total tensors

/-- The check of two neighbours. -/
theorem checkNext_eq_ok_iff {current : SafetensorMetadata} {next : Option SafetensorMetadata} :
    checkNext current next = .ok () ↔ ∀ tensor, next = some tensor → tensor.start = current.stop := by
  cases next with
  | none => simp [checkNext]
  | some next =>
      have hend : current.offsets.start + current.getBytesize = current.stop := by
        simp only [SafetensorMetadata.getBytesize, Offsets.getDiff, SafetensorMetadata.stop]
        omega
      simp only [checkNext, hend, Option.some.injEq, forall_eq', SafetensorMetadata.start]
      split_ifs with hover hgap
      · refine iff_of_false (by simp) ?_
        omega
      · refine iff_of_false (by simp) ?_
        omega
      · refine iff_of_true rfl ?_
        omega

/-- Tensors follow each other when the next one starts where the current one ends. -/
theorem followEachOther_cons {current : SafetensorMetadata} {tensors : List SafetensorMetadata} :
    FollowEachOther (current :: tensors) ↔
      (∀ next, tensors.head? = some next → next.start = current.stop) ∧
        FollowEachOther tensors := by
  unfold FollowEachOther
  simp only [List.head?_cons, Option.some.injEq, forall_eq', contiguous_cons, true_and]
  cases tensors with
  | nil => simp
  | cons next rest =>
      simp only [List.head?_cons, Option.some.injEq, forall_eq', contiguous_cons, true_and]
      constructor
      · rintro ⟨total, hnext, hrest⟩
        exact ⟨hnext, total, hrest⟩
      · rintro ⟨hnext, total, hrest⟩
        exact ⟨total, hnext, hrest⟩

/-- The checks of the sorted tensors. -/
theorem checkTensors_eq_ok_iff {tensors : List SafetensorMetadata} {sizes : List Int} :
    checkTensors tensors = .ok sizes ↔
      (∀ tensor ∈ tensors, tensor.start ≤ tensor.stop) ∧ FollowEachOther tensors ∧
        sizes = tensors.map SafetensorMetadata.getBytesize := by
  induction tensors generalizing sizes with
  | nil => simp [checkTensors, FollowEachOther, eq_comm]
  | cons current tensors ih =>
      rw [followEachOther_cons, ← checkNext_eq_ok_iff, List.forall_mem_cons]
      unfold checkTensors
      by_cases hafter : current.offsets.start > current.offsets.stop
      · rw [if_pos hafter]
        refine iff_of_false (by simp) ?_
        rintro ⟨⟨hle, -⟩, -⟩
        simp only [SafetensorMetadata.start, SafetensorMetadata.stop] at hle
        omega
      · have hcurrent : current.start ≤ current.stop := Int.not_lt.1 hafter
        rw [if_neg hafter]
        simp only [bind, Except.bind, hcurrent, true_and]
        cases hnext : checkNext current tensors.head? with
        | error error => simp
        | ok done =>
            cases hrest : checkTensors tensors with
            | error error =>
                refine iff_of_false (by simp) ?_
                rintro ⟨hle, ⟨-, hfollow⟩, -⟩
                rw [ih.2 ⟨hle, hfollow, rfl⟩] at hrest
                cases hrest
            | ok rest =>
                obtain ⟨hle, hfollow, rfl⟩ := ih.1 hrest
                simp only [Except.ok.injEq, List.map_cons, true_and]
                constructor
                · rintro rfl
                  exact ⟨hle, hfollow, rfl⟩
                · rintro ⟨-, -, rfl⟩
                  rfl

/-! ## The header -/

/-- The sorted tensors of a header. -/
def sortedTensors (blob : Blob) : List SafetensorMetadata :=
  ((tensorEntries blob).map tensorOf).mergeSort sortKey

/-- The key of the sort is the start, then the size. -/
theorem sortKey_iff {a b : SafetensorMetadata} :
    sortKey a b = true ↔
      Precedes SafetensorMetadata.start SafetensorMetadata.stop a b := by
  simp only [sortKey, Bool.or_eq_true, Bool.and_eq_true, decide_eq_true_eq]
  rfl

theorem sortKey_trans (a b c : SafetensorMetadata) (hab : sortKey a b = true)
    (hbc : sortKey b c = true) : sortKey a c = true := by
  rw [sortKey_iff] at *
  unfold Precedes at *
  omega

theorem sortKey_total (a b : SafetensorMetadata) : (sortKey a b || sortKey b a) = true := by
  rw [Bool.or_eq_true, sortKey_iff, sortKey_iff]
  unfold Precedes
  omega

theorem sortedTensors_pairwise (blob : Blob) :
    (sortedTensors blob).Pairwise
      (Precedes SafetensorMetadata.start SafetensorMetadata.stop) := by
  have hsorted := List.pairwise_mergeSort sortKey_trans sortKey_total
    ((tensorEntries blob).map tensorOf)
  exact hsorted.imp fun h => sortKey_iff.1 h

/-- A consistent tensor does not end before it starts. -/
theorem HeaderOk.start_le {supported : Dtype → Bool} {entry : String × TensorHeader}
    (h : HeaderOk supported entry.2) : (tensorOf entry).start ≤ (tensorOf entry).stop := by
  obtain ⟨-, start, stop, elements, hoffsets, -, -, hle⟩ := h
  simp only [tensorOf, hoffsets, Option.getD_some, SafetensorMetadata.start,
    SafetensorMetadata.stop]
  omega

/-- What an accepted header gives. -/
theorem make_eq_ok_iff_contiguous {supported : Dtype → Bool} {blob : Blob} {offset : Int}
    {file : SafetensorsMetadata} :
    SafetensorsMetadata.make supported blob offset = .ok file ↔
      (∀ entry ∈ tensorEntries blob, HeaderOk supported entry.2) ∧
      (∃ total, Contiguous SafetensorMetadata.start SafetensorMetadata.stop 0 total
        (sortedTensors blob)) ∧
      file =
        { offset
          tensorsMetadata := sortedTensors blob
          readSizes := (sortedTensors blob).map SafetensorMetadata.getBytesize } := by
  unfold SafetensorsMetadata.make
  simp only [bind, Except.bind]
  cases hcollect : collectTensors supported blob with
  | error error =>
      refine iff_of_false (by simp) ?_
      rintro ⟨hall, -⟩
      rw [collectTensors_eq_ok_iff.2 ⟨hall, rfl⟩] at hcollect
      cases hcollect
  | ok tensors =>
      obtain ⟨hall, rfl⟩ := collectTensors_eq_ok_iff.1 hcollect
      have hsorted : ((tensorEntries blob).map tensorOf).mergeSort sortKey = sortedTensors blob :=
        rfl
      have hle : ∀ tensor ∈ sortedTensors blob, tensor.start ≤ tensor.stop := by
        intro tensor htensor
        obtain ⟨entry, hentry, rfl⟩ := List.mem_map.1 (List.mem_mergeSort.1 htensor)
        exact (hall entry hentry).start_le
      simp only [hsorted]
      have hfirst : checkFirst (sortedTensors blob).head? = .ok () ↔
          ∀ first, (sortedTensors blob).head? = some first → first.start = 0 := by
        cases (sortedTensors blob).head? with
        | none => simp [checkFirst]
        | some first => simp [checkFirst, SafetensorMetadata.start]
      have hcontiguous : (∃ total, Contiguous SafetensorMetadata.start SafetensorMetadata.stop 0
          total (sortedTensors blob)) ↔
          checkFirst (sortedTensors blob).head? = .ok () ∧
            FollowEachOther (sortedTensors blob) := by
        rw [hfirst]
        unfold FollowEachOther
        cases sortedTensors blob with
        | nil => simp
        | cons first rest => simp
      rw [hcontiguous]
      cases hcase : checkFirst (sortedTensors blob).head? with
      | error error => simp
      | ok done =>
          cases hcheck : checkTensors (sortedTensors blob) with
          | error error =>
              refine iff_of_false (by simp) ?_
              rintro ⟨-, ⟨-, hfollow⟩, -⟩
              rw [checkTensors_eq_ok_iff.2 ⟨hle, hfollow, rfl⟩] at hcheck
              cases hcheck
          | ok sizes =>
              obtain ⟨-, hfollow, rfl⟩ := checkTensors_eq_ok_iff.1 hcheck
              simp only [Except.ok.injEq, true_and]
              constructor
              · rintro rfl
                exact ⟨hall, hfollow, rfl⟩
              · rintro ⟨-, -, rfl⟩
                rfl

/-! ## Tilings -/

/-- The range of a consistent tensor is the range of its entry. -/
theorem dataRanges_eq {supported : Dtype → Bool} {blob : Blob}
    (h : ∀ entry ∈ tensorEntries blob, HeaderOk supported entry.2) :
    dataRanges blob =
      ((tensorEntries blob).map tensorOf).map fun tensor => (tensor.start, tensor.stop) := by
  unfold dataRanges
  rw [List.map_map, ← List.filterMap_eq_map]
  refine List.filterMap_congr fun entry hentry => ?_
  obtain ⟨-, start, stop, elements, hoffsets, -⟩ := h entry hentry
  simp [tensorOf, hoffsets, SafetensorMetadata.start, SafetensorMetadata.stop]

/-- Ranges cover a span exactly when the tensors with these ranges do. -/
theorem covers_map_iff {tensors : List SafetensorMetadata} {a b : Int} :
    Covers Prod.fst Prod.snd a b (tensors.map fun tensor => (tensor.start, tensor.stop)) ↔
      Covers SafetensorMetadata.start SafetensorMetadata.stop a b tensors := by
  have hcount : ∀ p, (tensors.map fun tensor => (tensor.start, tensor.stop)).countP
      (Holds Prod.fst Prod.snd p) =
        tensors.countP (Holds SafetensorMetadata.start SafetensorMetadata.stop p) := by
    intro p
    rw [List.countP_map]
    rfl
  constructor
  · intro h
    refine ⟨h.le, fun tensor htensor => ?_, fun p hap hpb => ?_, fun x hx hempty y hy => ?_⟩
    · exact h.bounds (tensor.start, tensor.stop) (List.mem_map_of_mem htensor)
    · rw [← hcount]
      exact h.once p hap hpb
    · exact h.seam (x.start, x.stop) (List.mem_map_of_mem hx) hempty (y.start, y.stop)
        (List.mem_map_of_mem hy)
  · intro h
    refine ⟨h.le, fun range hrange => ?_, fun p hap hpb => ?_, fun x hx hempty y hy => ?_⟩
    · obtain ⟨tensor, htensor, rfl⟩ := List.mem_map.1 hrange
      exact h.bounds tensor htensor
    · rw [hcount]
      exact h.once p hap hpb
    · obtain ⟨tensor, htensor, rfl⟩ := List.mem_map.1 hx
      obtain ⟨other, hother, rfl⟩ := List.mem_map.1 hy
      exact h.seam tensor htensor hempty other hother

/-- The sorted tensors of consistent entries are contiguous exactly when the ranges tile. -/
theorem contiguous_iff_covers {supported : Dtype → Bool} {blob : Blob} {total : Int}
    (h : ∀ entry ∈ tensorEntries blob, HeaderOk supported entry.2) :
    Contiguous SafetensorMetadata.start SafetensorMetadata.stop 0 total (sortedTensors blob) ↔
      Covers Prod.fst Prod.snd 0 total (dataRanges blob) := by
  have hperm : (sortedTensors blob).Perm ((tensorEntries blob).map tensorOf) :=
    List.mergeSort_perm _ _
  rw [dataRanges_eq h, covers_map_iff]
  constructor
  · intro hcontiguous
    refine (covers_of_contiguous hcontiguous fun tensor htensor => ?_).perm hperm
    obtain ⟨entry, hentry, rfl⟩ := List.mem_map.1 (hperm.mem_iff.1 htensor)
    exact (h entry hentry).start_le
  · intro hcovers
    exact contiguous_of_covers (hcovers.perm hperm.symm) (sortedTensors_pairwise blob)

/-- A header is accepted exactly when it is valid. -/
theorem make_isOk_iff {supported : Dtype → Bool} {blob : Blob} {offset : Int} :
    (∃ file, SafetensorsMetadata.make supported blob offset = .ok file) ↔
      ValidHeader supported blob := by
  simp only [make_eq_ok_iff_contiguous]
  constructor
  · rintro ⟨file, hall, ⟨total, hcontiguous⟩, -⟩
    exact ⟨hall, total, (contiguous_iff_covers hall).1 hcontiguous⟩
  · rintro ⟨hall, total, hcovers⟩
    exact ⟨_, hall, ⟨total, (contiguous_iff_covers hall).2 hcovers⟩, rfl⟩

/-! ## The order of the keys -/

theorem tensorEntries_perm {blob blob' : Blob} (h : blob.Perm blob') :
    (tensorEntries blob).Perm (tensorEntries blob') :=
  h.filter _

/-- Whether a header is valid does not depend on the order of its keys. -/
theorem ValidHeader.perm {supported : Dtype → Bool} {blob blob' : Blob}
    (h : ValidHeader supported blob) (hperm : blob.Perm blob') : ValidHeader supported blob' := by
  obtain ⟨hall, total, hcovers⟩ := h
  refine ⟨fun entry hentry => hall entry ((tensorEntries_perm hperm).mem_iff.2 hentry), total, ?_⟩
  exact hcovers.perm ((tensorEntries_perm hperm).filterMap _)

/-- The starts and sizes of the sorted tensors do not depend on the order of the keys. -/
theorem map_key_sortedTensors {blob blob' : Blob} (hperm : blob.Perm blob') :
    (sortedTensors blob).map (fun tensor => (tensor.start, tensor.getBytesize)) =
      (sortedTensors blob').map fun tensor => (tensor.start, tensor.getBytesize) := by
  have hpairwise : ∀ blob : Blob,
      ((sortedTensors blob).map fun tensor => (tensor.start, tensor.getBytesize)).Pairwise
        fun a b => a.1 < b.1 ∨ a.1 = b.1 ∧ a.2 ≤ b.2 := by
    intro blob
    exact List.pairwise_map.2 (sortedTensors_pairwise blob)
  have hkeys : ((sortedTensors blob).map fun tensor => (tensor.start, tensor.getBytesize)).Perm
      ((sortedTensors blob').map fun tensor => (tensor.start, tensor.getBytesize)) := by
    refine List.Perm.map _ ?_
    refine (List.mergeSort_perm _ _).trans ?_
    exact ((tensorEntries_perm hperm).map _).trans (List.mergeSort_perm _ _).symm
  refine hkeys.eq_of_pairwise (fun a b _ _ hab hba => ?_) (hpairwise blob) (hpairwise blob')
  apply Prod.ext
  · omega
  · omega

/-- Two tensors of a valid header with bytes and the same start are the same. -/
theorem eq_of_start_eq {total : Int} {tensors : List SafetensorMetadata}
    (h : Covers SafetensorMetadata.start SafetensorMetadata.stop 0 total tensors)
    {x y : SafetensorMetadata} (hx : x ∈ tensors) (hy : y ∈ tensors)
    (hstart : x.start = y.start) (hxbytes : x.getBytesize ≠ 0) (hybytes : y.getBytesize ≠ 0) :
    x = y := by
  have hxb := h.bounds x hx
  have hyb := h.bounds y hy
  simp only [SafetensorMetadata.getBytesize, Offsets.getDiff, SafetensorMetadata.start,
    SafetensorMetadata.stop] at *
  refine eq_of_countP_eq_one (h.once x.offsets.start (by omega) (by omega)) hx hy ?_ ?_
  · rw [holds_iff]
    simp only [SafetensorMetadata.start, SafetensorMetadata.stop]
    omega
  · rw [holds_iff]
    simp only [SafetensorMetadata.start, SafetensorMetadata.stop]
    omega

/-! ## The ranges that are read -/

/-- Sizes of contiguous tensors, laid back to back, give back their offsets. -/
theorem contiguousOffsets_eq {tensors : List SafetensorMetadata} {a b : Int} (offset : Int)
    (h : Contiguous SafetensorMetadata.start SafetensorMetadata.stop a b tensors) :
    contiguousOffsets (offset + a) (tensors.map SafetensorMetadata.getBytesize) =
      tensors.map fun tensor => offset + tensor.offsets.start := by
  induction tensors generalizing a with
  | nil => rfl
  | cons tensor tensors ih =>
      obtain ⟨hstart, hrest⟩ := h
      have hnext : offset + a + tensor.getBytesize = offset + tensor.stop := by
        simp only [SafetensorMetadata.getBytesize, Offsets.getDiff, SafetensorMetadata.start,
          SafetensorMetadata.stop] at *
        omega
      rw [List.map_cons, contiguousOffsets, hnext, ih hrest, List.map_cons, ← hstart]
      rfl

/-- The range of the file that holds a tensor. -/
def SafetensorsMetadata.rangeOf (file : SafetensorsMetadata) (tensor : SafetensorMetadata) :
    Int × Int :=
  (file.offset + tensor.offsets.start, tensor.getBytesize)

/--
The tensors of two accepted headers in the same place: they have the same start and size, and
are the same unless they have no bytes.
-/
def SameUpToEmpty (tensor other : SafetensorMetadata) : Prop :=
  tensor.start = other.start ∧ tensor.getBytesize = other.getBytesize ∧
    (tensor.getBytesize ≠ 0 → tensor = other)

/--
A header is accepted exactly when every tensor is consistent and the tensors tile the data
section, whatever the order of its keys; the last tensor ends where the data section does; the
ranges of the load without a filter and of the load with one are those of the tensors; and
the order of the keys only decides the order of tensors without bytes.
-/
theorem header_accepted_iff_tiles (supported : Dtype → Bool) (blob : Blob) (offset : Int) :
    ((∃ file, SafetensorsMetadata.make supported blob offset = .ok file) ↔
      ValidHeader supported blob) ∧
    (∀ file, SafetensorsMetadata.make supported blob offset = .ok file →
      (∃ total, Covers Prod.fst Prod.snd 0 total (dataRanges blob) ∧
        ∀ last, file.tensorsMetadata.getLast? = some last → last.offsets.stop = total) ∧
      contiguousOffsets file.offset file.readSizes =
        file.tensorsMetadata.map (fun tensor => offset + tensor.offsets.start) ∧
      file.unfilteredRanges = file.tensorsMetadata.map file.rangeOf ∧
      ∀ tensorNames, file.filteredRanges tensorNames =
        (file.tensorsMetadata.filter fun tensor => tensor.name ∈ tensorNames).map
          file.rangeOf) ∧
    ∀ blob', blob.Perm blob' →
      ((∃ file, SafetensorsMetadata.make supported blob offset = .ok file) ↔
        ∃ file, SafetensorsMetadata.make supported blob' offset = .ok file) ∧
      ∀ file file', SafetensorsMetadata.make supported blob offset = .ok file →
        SafetensorsMetadata.make supported blob' offset = .ok file' →
        file.tensorsMetadata.Perm file'.tensorsMetadata ∧
        List.Forall₂ SameUpToEmpty file.tensorsMetadata file'.tensorsMetadata := by
  refine ⟨make_isOk_iff, ?_, ?_⟩
  · intro file hfile
    obtain ⟨hall, ⟨total, hcontiguous⟩, rfl⟩ := make_eq_ok_iff_contiguous.1 hfile
    have hoffsets := contiguousOffsets_eq offset hcontiguous
    rw [Int.add_zero] at hoffsets
    refine ⟨⟨total, (contiguous_iff_covers hall).1 hcontiguous, fun last hlast => ?_⟩, hoffsets,
      ?_, fun tensorNames => ?_⟩
    · obtain ⟨hne, rfl⟩ := List.mem_getLast?_eq_getLast hlast
      exact hcontiguous.stop_getLast hne
    · simp only [SafetensorsMetadata.unfilteredRanges, hoffsets, List.zip_map']
      rfl
    · simp only [SafetensorsMetadata.filteredRanges, SafetensorsMetadata.keptMetadata,
        List.zip_map']
      rfl
  · intro blob' hperm
    refine ⟨?_, ?_⟩
    · rw [make_isOk_iff, make_isOk_iff]
      exact ⟨fun h => h.perm hperm, fun h => h.perm hperm.symm⟩
    · intro file file' hfile hfile'
      obtain ⟨hall, ⟨total, hcontiguous⟩, rfl⟩ := make_eq_ok_iff_contiguous.1 hfile
      obtain ⟨hall', -, rfl⟩ := make_eq_ok_iff_contiguous.1 hfile'
      have hsame : (sortedTensors blob).Perm (sortedTensors blob') := by
        refine (List.mergeSort_perm _ _).trans ?_
        exact ((tensorEntries_perm hperm).map _).trans (List.mergeSort_perm _ _).symm
      refine ⟨hsame, ?_⟩
      have hcovers : Covers SafetensorMetadata.start SafetensorMetadata.stop 0 total
          (sortedTensors blob) := by
        refine covers_of_contiguous hcontiguous fun tensor htensor => ?_
        obtain ⟨entry, hentry, rfl⟩ := List.mem_map.1 (List.mem_mergeSort.1 htensor)
        exact (hall entry hentry).start_le
      have hkeys := map_key_sortedTensors hperm
      have hlength : (sortedTensors blob).length = (sortedTensors blob').length :=
        hsame.length_eq
      refine List.forall₂_iff_get.2 ⟨hlength, fun i hi hi' => ?_⟩
      have hkey := congrArg (fun keys => keys[i]?) hkeys
      simp only [List.getElem?_map, List.getElem?_eq_getElem hi, List.getElem?_eq_getElem hi',
        Option.map_some, Option.some.injEq, Prod.mk.injEq] at hkey
      refine ⟨hkey.1, hkey.2, fun hbytes => ?_⟩
      have hmem : (sortedTensors blob').get ⟨i, hi'⟩ ∈ sortedTensors blob :=
        hsame.mem_iff.2 (List.get_mem _ _)
      exact eq_of_start_eq hcovers (List.get_mem _ _) hmem hkey.1 hbytes
        (fun hzero => hbytes (hkey.2.trans hzero))

end Safetensors
end ModelStreamer
