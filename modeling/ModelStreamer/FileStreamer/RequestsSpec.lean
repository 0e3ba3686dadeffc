import Mathlib.Data.List.Induction
import ModelStreamer.FileStreamer.Requests

/-!
# What the requests of a stream cover

Main results:

- Theorem {lit}`nextRequest_spec`: a request takes the next ranges of the stream, at least one
  and no more than fit the buffer, and the iterator keeps the rest.
- Theorem {lit}`placeRanges_spec`: the addresses of the ranges lie in the slot.
-/

namespace ModelStreamer
namespace FileStreamer

open Distributed Lib

/-! ## The ranges of a stream -/

/-- A range of a stream: its file, its place there, and what to read. -/
structure RangeInfo where
  fileId : Int
  index : Nat
  offset : Nat
  size : Nat
deriving DecidableEq, Repr

/-- Ranges of one file, the first of which has index {lit}`base`. -/
def locate (id : Int) (base : Nat) (pairs : List (Nat × Nat)) : List RangeInfo :=
  (pairs.zipIdx base).map fun entry => ⟨id, entry.2, entry.1.1, entry.1.2⟩

/-- All ranges of the files, in list order. -/
def allRanges (files : List FileChunks) : List RangeInfo :=
  files.flatMap fun file => locate file.id 0 (file.offsets.zip file.sizes)

/-- The ranges that a file iterator has not handed out. -/
def FileChunksIterator.left (it : FileChunksIterator) : List RangeInfo :=
  locate it.file.id it.nextIndex ((it.file.offsets.zip it.file.sizes).drop it.nextIndex)

/-- The ranges that no request has taken. -/
def rangesLeft (q : List FileChunksIterator) : List RangeInfo :=
  q.flatMap FileChunksIterator.left

/-- The ranges of a request. -/
def FilesRequest.located (request : FilesRequest) : List RangeInfo :=
  (request.files.zip request.rangeBase).flatMap fun entry =>
    locate entry.1.id entry.2 (entry.1.offsets.zip entry.1.sizes)

@[simp]
theorem locate_nil (id : Int) (base : Nat) : locate id base [] = [] :=
  rfl

/-- Ranges that follow others count on. -/
theorem locate_append (id : Int) (base : Nat) (xs ys : List (Nat × Nat)) :
    locate id base (xs ++ ys) = locate id base xs ++ locate id (base + xs.length) ys := by
  simp [locate, List.zipIdx_append]

@[simp]
theorem length_locate (id : Int) (base : Nat) (pairs : List (Nat × Nat)) :
    (locate id base pairs).length = pairs.length := by
  simp [locate]

/-- The sizes of the ranges. -/
theorem map_size_locate (id : Int) (base : Nat) (pairs : List (Nat × Nat)) :
    (locate id base pairs).map RangeInfo.size = pairs.map Prod.snd := by
  induction pairs generalizing base with
  | nil => rfl
  | cons pair pairs ih =>
      simp only [locate, List.zipIdx_cons, List.map_cons, List.cons.injEq, true_and]
      exact ih (base + 1)

/-- The ranges of a file have its sizes. -/
theorem map_snd_zip (file : FileChunks) :
    (file.offsets.zip file.sizes).map Prod.snd = file.sizes := by
  rw [List.map_snd_zip]
  exact le_of_eq file.parallel.symm

/-- A file has as many ranges as sizes. -/
theorem length_zip (file : FileChunks) :
    (file.offsets.zip file.sizes).length = file.sizes.length := by
  simp [file.parallel]

/-! ## Taking ranges from a file -/

/-- What fits the rest of the budget fits under the limit. -/
theorem countFitting_eq (limit used : Nat) (sizes : List Nat) :
    countFitting ((limit : Int) - used) sizes = fitLength limit used sizes := by
  induction sizes generalizing used with
  | nil => rfl
  | cons size sizes ih =>
      have hrest : (limit : Int) - used - size = (limit : Int) - (used + size : Nat) := by
        omega
      by_cases hfits : used + size ≤ limit
      · rw [countFitting, fitLength, if_pos hfits, if_pos (by omega), hrest, ih]
      · rw [countFitting, fitLength, if_neg hfits, if_neg (by omega)]

/-- What {lit}`next_chunks` hands out and what it keeps. -/
structure TakesNext (limit used : Nat) (it : FileChunksIterator) (file : FileChunks)
    (it' : FileChunksIterator) : Prop where
  id_eq : file.id = it.file.id
  file_eq : it'.file = it.file
  nextIndex_eq : it'.nextIndex = it.nextIndex + file.sizes.length
  nextIndex_le : it'.nextIndex ≤ it.file.sizes.length
  left_eq : locate file.id it.nextIndex (file.offsets.zip file.sizes) ++ it'.left = it.left
  fits : used ≤ limit → used + file.totalSize ≤ limit
  full : it'.isFinished = false →
    ∃ range ranges, it'.left = range :: ranges ∧ limit < used + file.totalSize + range.size

/-- A slice of a file is a slice of its ranges. -/
theorem zip_fileSlice (file : FileChunks) (start n : Nat) :
    (fileSlice file start (start + n)).offsets.zip (fileSlice file start (start + n)).sizes =
      ((file.offsets.zip file.sizes).drop start).take n := by
  simp only [fileSlice, List.drop_take, Nat.add_sub_cancel_left, List.zip, List.take_zipWith,
    List.drop_zipWith]

/-- {lit}`next_chunks` takes the longest run that fits. -/
theorem nextChunks_spec (limit used : Nat) (it : FileChunksIterator)
    (hindex : it.nextIndex ≤ it.file.sizes.length) :
    TakesNext limit used it (it.nextChunks ((limit : Int) - used)).1
      (it.nextChunks ((limit : Int) - used)).2 := by
  unfold FileChunksIterator.nextChunks
  rw [countFitting_eq]
  generalize hn : fitLength limit used (it.file.sizes.drop it.nextIndex) = n
  have hle : n ≤ it.file.sizes.length - it.nextIndex := by
    have hfit := fitLength_le limit used (it.file.sizes.drop it.nextIndex)
    rw [hn, List.length_drop] at hfit
    exact hfit
  have hsizes : (fileSlice it.file it.nextIndex (it.nextIndex + n)).sizes =
      (it.file.sizes.drop it.nextIndex).take n := by
    simp only [fileSlice, List.drop_take, Nat.add_sub_cancel_left]
  have hlength : (fileSlice it.file it.nextIndex (it.nextIndex + n)).sizes.length = n := by
    rw [hsizes, List.length_take, List.length_drop]
    omega
  refine ⟨rfl, rfl, ?_, ?_, ?_, ?_, ?_⟩
  · rw [hlength]
  · change it.nextIndex + n ≤ it.file.sizes.length
    omega
  · rw [zip_fileSlice]
    have hcut := List.take_append_drop n ((it.file.offsets.zip it.file.sizes).drop it.nextIndex)
    have htaken : (((it.file.offsets.zip it.file.sizes).drop it.nextIndex).take n).length = n := by
      rw [List.length_take, List.length_drop, length_zip]
      omega
    unfold FileChunksIterator.left
    rw [← List.drop_drop]
    conv_rhs => rw [← hcut, locate_append, htaken]
    rfl
  · intro hused
    unfold FileChunks.totalSize
    rw [hsizes, ← hn]
    exact sum_take_fitLength _ hused
  · intro hfinished
    have hlt : it.nextIndex + n < it.file.sizes.length := by
      simpa [FileChunksIterator.isFinished] using hfinished
    have hover := @sum_take_succ_fitLength limit used (it.file.sizes.drop it.nextIndex)
      (by rw [hn, List.length_drop]; omega)
    rw [hn] at hover
    have hindex' : it.nextIndex + n < (it.file.offsets.zip it.file.sizes).length := by
      rw [length_zip]
      exact hlt
    have hleft : FileChunksIterator.left { it with nextIndex := it.nextIndex + n } =
        locate it.file.id (it.nextIndex + n)
          ((it.file.offsets.zip it.file.sizes)[it.nextIndex + n] ::
            (it.file.offsets.zip it.file.sizes).drop (it.nextIndex + n + 1)) := by
      unfold FileChunksIterator.left
      rw [List.drop_eq_getElem_cons hindex']
    refine ⟨_, _, hleft, ?_⟩
    simp only [List.getElem_zip]
    unfold FileChunks.totalSize
    rw [hsizes]
    have hdrop : n < (it.file.sizes.drop it.nextIndex).length := by
      rw [List.length_drop]
      omega
    rw [List.take_succ_eq_append_getElem hdrop, List.sum_append, List.sum_singleton,
      List.getElem_drop] at hover
    omega

/-! ## Packing a request -/

/-- The iterators of a queue know how many of their ranges were assigned. -/
structure QueueOk (assigned : Int → Nat) (q : List FileChunksIterator) : Prop where
  index_le : ∀ it ∈ q, it.nextIndex ≤ it.file.sizes.length
  assigned_eq : ∀ it ∈ q, assigned it.file.id = it.nextIndex
  distinct : (q.map fun it => it.file.id).Nodup

/-- The parts of a request belong together. -/
structure RequestOk (request : FilesRequest) : Prop where
  rangeBase_length : request.rangeBase.length = request.files.length
  fileBase_eq : ∀ i < request.files.length, request.fileBase.getD i 0 =
    ((request.files.take i).map fun file => file.sizes.length).sum
  fileBase_length : request.fileBase.length = request.files.length
  numRanges_eq : request.numRanges = (request.files.map fun file => file.sizes.length).sum
  nonempty : ∀ file ∈ request.files, file.sizes ≠ []

/-- A request without files. -/
theorem requestOk_empty : RequestOk .empty where
  rangeBase_length := rfl
  fileBase_eq := fun i hi => absurd hi (Nat.not_lt_zero i)
  fileBase_length := rfl
  numRanges_eq := rfl
  nonempty := fun _ hfile => absurd hfile List.not_mem_nil

/-- A file that is appended keeps the parts together. -/
theorem RequestOk.append {request : FilesRequest} (h : RequestOk request) {file : FileChunks}
    (base : Nat) (hne : file.sizes ≠ []) : RequestOk (request.append file base) where
  rangeBase_length := by simp [FilesRequest.append, h.rangeBase_length]
  fileBase_eq := fun i hi => by
    simp only [FilesRequest.append, List.length_append, List.length_singleton] at hi ⊢
    by_cases hlast : i = request.files.length
    · subst hlast
      rw [List.getD_eq_getElem?_getD,
        List.getElem?_append_right (le_of_eq h.fileBase_length), h.fileBase_length]
      simp [h.numRanges_eq]
    · have hlt : i < request.files.length := by omega
      have hbase := h.fileBase_eq i hlt
      rw [List.getD_eq_getElem?_getD] at hbase ⊢
      rw [List.getElem?_append_left (by rw [h.fileBase_length]; exact hlt),
        List.take_append_of_le_length (le_of_lt hlt)]
      exact hbase
  fileBase_length := by simp [FilesRequest.append, h.fileBase_length]
  numRanges_eq := by simp [FilesRequest.append, h.numRanges_eq]
  nonempty := fun other hother => by
    simp only [FilesRequest.append, List.mem_append, List.mem_singleton] at hother
    cases hother with
    | inl hold => exact h.nonempty other hold
    | inr hnew =>
        rw [hnew]
        exact hne

/-- The ranges of a request after a file was appended. -/
theorem located_append {request : FilesRequest} (h : RequestOk request) (file : FileChunks)
    (base : Nat) :
    (request.append file base).located =
      request.located ++ locate file.id base (file.offsets.zip file.sizes) := by
  unfold FilesRequest.located FilesRequest.append
  rw [List.zip_append h.rangeBase_length.symm]
  simp

/-- The bytes of some ranges. -/
def totalBytes (ranges : List RangeInfo) : Nat :=
  (ranges.map RangeInfo.size).sum

/-- The bytes of the ranges of a file. -/
theorem totalBytes_locate (file : FileChunks) (base : Nat) :
    totalBytes (locate file.id base (file.offsets.zip file.sizes)) = file.totalSize := by
  rw [totalBytes, map_size_locate, map_snd_zip, FileChunks.totalSize]

/-- The bytes of two lists of ranges. -/
theorem totalBytes_append (xs ys : List RangeInfo) :
    totalBytes (xs ++ ys) = totalBytes xs + totalBytes ys := by
  simp [totalBytes]

/-- What packing makes of a request and a queue. -/
structure Packs (limit : Nat) (request : FilesRequest) (q : List FileChunksIterator)
    (result : FilesRequest × (Int → Nat) × List FileChunksIterator) : Prop where
  requestOk : RequestOk result.1
  queueOk : QueueOk result.2.1 result.2.2
  cover : result.1.located ++ rangesLeft result.2.2 = request.located ++ rangesLeft q
  fits : totalBytes result.1.located ≤ limit
  full : rangesLeft result.2.2 = [] ∨ ∃ range ranges,
    rangesLeft result.2.2 = range :: ranges ∧ limit < totalBytes result.1.located + range.size

/-- The head of a queue is replaced by what it became. -/
theorem QueueOk.replace {assigned : Int → Nat} {it it' : FileChunksIterator}
    {q : List FileChunksIterator} {file : FileChunks} {limit used : Nat}
    (h : QueueOk assigned (it :: q)) (htake : TakesNext limit used it file it') :
    QueueOk (Function.update assigned file.id (assigned file.id + file.sizes.length))
      (it' :: q) where
  index_le := fun other hother => by
    cases List.mem_cons.1 hother with
    | inl hhead =>
        rw [hhead, htake.file_eq]
        exact htake.nextIndex_le
    | inr htail => exact h.index_le other (List.mem_cons_of_mem _ htail)
  assigned_eq := fun other hother => by
    have hself := h.assigned_eq it List.mem_cons_self
    have hdistinct := h.distinct
    rw [List.map_cons, List.nodup_cons] at hdistinct
    cases List.mem_cons.1 hother with
    | inl hhead =>
        rw [hhead, htake.file_eq, htake.nextIndex_eq, htake.id_eq, Function.update_self, hself]
    | inr htail =>
        have hne : other.file.id ≠ file.id := by
          intro heq
          apply hdistinct.1
          rw [← htake.id_eq, ← heq]
          exact List.mem_map.2 ⟨other, htail, rfl⟩
        rw [Function.update_of_ne hne]
        exact h.assigned_eq other (List.mem_cons_of_mem _ htail)
  distinct := by
    have hdistinct := h.distinct
    rw [List.map_cons] at hdistinct ⊢
    rw [htake.file_eq]
    exact hdistinct

/-- A queue without its head. -/
theorem QueueOk.tail {assigned : Int → Nat} {it : FileChunksIterator}
    {q : List FileChunksIterator} (h : QueueOk assigned (it :: q)) : QueueOk assigned q where
  index_le := fun other hother => h.index_le other (List.mem_cons_of_mem _ hother)
  assigned_eq := fun other hother => h.assigned_eq other (List.mem_cons_of_mem _ hother)
  distinct := by
    have hdistinct := h.distinct
    rw [List.map_cons, List.nodup_cons] at hdistinct
    exact hdistinct.2

/-- A file that is finished has nothing left. -/
theorem left_of_isFinished {it : FileChunksIterator} (h : it.isFinished = true) :
    it.left = [] := by
  have hle : it.file.sizes.length ≤ it.nextIndex := by
    simpa [FileChunksIterator.isFinished] using h
  unfold FileChunksIterator.left
  rw [List.drop_eq_nil_of_le (by rw [length_zip]; exact hle)]
  rfl

/-- Packing goes on until nothing is left or the next range does not fit. -/
theorem packRequest_spec {limit turns used : Nat} {request : FilesRequest}
    {assigned : Int → Nat} {q : List FileChunksIterator} (hturns : packingTurns q ≤ turns)
    (hrequest : RequestOk request) (hq : QueueOk assigned q)
    (hused : totalBytes request.located = used) (hfits : used ≤ limit) :
    Packs limit request q (packRequest limit turns used request assigned q) := by
  induction turns generalizing used request assigned q with
  | zero =>
      cases q with
      | nil =>
          exact ⟨hrequest, hq, rfl, by simpa [packRequest, hused] using hfits, .inl rfl⟩
      | cons it q => simp [packingTurns] at hturns
  | succ turns ih =>
      cases q with
      | nil =>
          exact ⟨hrequest, hq, rfl, by simpa [packRequest, hused] using hfits, .inl rfl⟩
      | cons it q =>
          have htake := nextChunks_spec limit used it (hq.index_le it List.mem_cons_self)
          have hassigned := hq.assigned_eq it List.mem_cons_self
          simp only [packRequest]
          generalize (it.nextChunks ((limit : Int) - used)).1 = file at htake ⊢
          generalize (it.nextChunks ((limit : Int) - used)).2 = it' at htake ⊢
          have hreplaced := hq.replace htake
          have hleft : rangesLeft (it :: q) =
              locate file.id it.nextIndex (file.offsets.zip file.sizes) ++
                (it'.left ++ rangesLeft q) := by
            rw [← List.append_assoc, htake.left_eq]
            rfl
          have hqueue : ∀ assigned', QueueOk assigned' (it' :: q) →
              QueueOk assigned' (if it'.isFinished then q else it' :: q) := by
            intro assigned' h
            split_ifs
            · exact h.tail
            · exact h
          have hrest : rangesLeft (if it'.isFinished then q else it' :: q) =
              it'.left ++ rangesLeft q := by
            split_ifs with hfinished
            · rw [left_of_isFinished hfinished, List.nil_append]
            · rfl
          by_cases hnone : file.sizes = []
          · have hsame : Function.update assigned file.id
                (assigned file.id + file.sizes.length) = assigned := by
              rw [hnone, List.length_nil, Nat.add_zero, Function.update_eq_self]
            rw [hsame] at hreplaced
            rw [hnone, List.zip_nil_right, locate_nil, List.nil_append] at hleft
            rw [if_pos hnone]
            by_cases hfinished : it'.isFinished = true
            · -- the file has no range left, so packing goes on with the next one
              rw [if_pos hfinished]
              have hnext := hqueue assigned hreplaced
              rw [if_pos hfinished] at hnext hrest ⊢
              have hless : packingTurns q ≤ turns := by
                simp only [packingTurns, List.map_cons, List.sum_cons] at hturns ⊢
                omega
              have hrec := ih hless hrequest hnext hused hfits
              exact ⟨hrec.requestOk, hrec.queueOk, by rw [hrec.cover, hleft, ← hrest], hrec.fits,
                hrec.full⟩
            · -- the next range does not fit
              rw [if_neg hfinished]
              obtain ⟨range, ranges, hhead, hover⟩ := htake.full (by simpa using hfinished)
              have hzero : file.totalSize = 0 := by simp [FileChunks.totalSize, hnone]
              refine ⟨hrequest, hqueue assigned hreplaced, ?_, by rw [hused]; exact hfits, ?_⟩
              · rw [hrest, hleft]
              · refine .inr ⟨range, ranges ++ rangesLeft q, ?_, ?_⟩
                · rw [hrest, hhead, List.cons_append]
                · rw [hused]
                  omega
          · rw [if_neg hnone]
            have hcount : 0 < file.sizes.length := List.length_pos_iff.2 hnone
            have hless : packingTurns (if it'.isFinished then q else it' :: q) ≤ turns := by
              have hnext := htake.nextIndex_eq
              have hle := htake.nextIndex_le
              have hfile := htake.file_eq
              split_ifs
              · simp only [packingTurns, List.map_cons, List.sum_cons] at hturns ⊢
                omega
              · simp only [packingTurns, List.map_cons, List.sum_cons, hfile] at hturns ⊢
                omega
            have hlocated := located_append hrequest file (assigned file.id)
            have hbytes : totalBytes (request.append file (assigned file.id)).located =
                used + file.totalSize := by
              rw [hlocated, totalBytes_append, totalBytes_locate, hused]
            have hrec := ih hless (hrequest.append (assigned file.id) hnone)
              (hqueue _ hreplaced) hbytes (htake.fits hfits)
            refine ⟨hrec.requestOk, hrec.queueOk, ?_, hrec.fits, hrec.full⟩
            rw [hrec.cover, hlocated, hrest, hleft, htake.id_eq, hassigned, List.append_assoc]

/-- The ranges of a request fit its files. -/
theorem RequestOk.files_eq_nil {request : FilesRequest} (h : RequestOk request) :
    request.files = [] ↔ request.located = [] := by
  unfold FilesRequest.located
  constructor
  · intro hnil
    rw [hnil]
    rfl
  · intro hnil
    by_contra hne
    obtain ⟨file, files, hfiles⟩ := List.exists_cons_of_ne_nil hne
    have hlength := h.rangeBase_length
    rw [hfiles, List.length_cons] at hlength
    obtain ⟨base, bases, hbases⟩ := List.exists_cons_of_length_eq_add_one hlength
    have hsizes := h.nonempty file (by rw [hfiles]; exact List.mem_cons_self)
    rw [hfiles, hbases] at hnil
    have hhead : locate file.id base (file.offsets.zip file.sizes) = [] := by
      simp only [List.zip_cons_cons, List.flatMap_cons, List.append_eq_nil_iff] at hnil
      exact hnil.1
    have hzero := congrArg List.length hhead
    rw [length_locate, length_zip] at hzero
    exact hsizes (List.eq_nil_of_length_eq_zero hzero)

/-- The iterator is in order. -/
def FilesRequestsIterator.Ok (it : FilesRequestsIterator) : Prop :=
  QueueOk it.assignedRanges it.q

/--
A request takes the next ranges of the stream, at least one and no more than fit; without a
request nothing is left.
-/
theorem nextRequest_spec {it : FilesRequestsIterator} (h : it.Ok)
    (hsizes : ∀ range ∈ rangesLeft it.q, range.size ≤ it.memoryLimit) :
    it.nextRequest.2.Ok ∧ it.nextRequest.2.memoryLimit = it.memoryLimit ∧
    match it.nextRequest.1 with
    | none => rangesLeft it.q = [] ∧ rangesLeft it.nextRequest.2.q = []
    | some request => RequestOk request ∧ request.located ≠ [] ∧
        request.located ++ rangesLeft it.nextRequest.2.q = rangesLeft it.q ∧
        totalBytes request.located ≤ it.memoryLimit := by
  have hpack := packRequest_spec (le_refl (packingTurns it.q)) requestOk_empty h
    (show totalBytes FilesRequest.empty.located = 0 from rfl) (Nat.zero_le it.memoryLimit)
  have hempty : FilesRequest.empty.located = [] := rfl
  unfold FilesRequestsIterator.nextRequest
  generalize packRequest it.memoryLimit (packingTurns it.q) 0 .empty it.assignedRanges it.q =
    result at hpack ⊢
  obtain ⟨request, assigned, q⟩ := result
  have hcover := hpack.cover
  rw [hempty, List.nil_append] at hcover
  refine ⟨hpack.queueOk, rfl, ?_⟩
  by_cases hfiles : request.files = []
  · have hnone : request.located = [] := hpack.requestOk.files_eq_nil.1 hfiles
    simp only at hcover
    rw [hnone, List.nil_append] at hcover
    simp only [if_pos hfiles]
    cases hpack.full with
    | inl hleft => exact ⟨hcover.symm.trans hleft, hleft⟩
    | inr hover =>
        -- a range that is left fits an empty request
        obtain ⟨range, ranges, hleft, hlt⟩ := hover
        have hfits := hsizes range (by rw [← hcover, hleft]; exact List.mem_cons_self)
        simp only [hnone] at hlt
        change it.memoryLimit < 0 + range.size at hlt
        omega
  · simp only [if_neg hfiles]
    exact ⟨hpack.requestOk, fun hnone => hfiles (hpack.requestOk.files_eq_nil.2 hnone),
      hcover, hpack.fits⟩

/-- A part of a file keeps its name and its path. -/
def PartOf (files : List FileChunks) (part : FileChunks) : Prop :=
  ∃ file ∈ files, part.id = file.id ∧ part.path = file.path

/-- Packing takes parts of the files of the queue. -/
theorem packRequest_parts {files : List FileChunks} {limit turns used : Nat}
    {request : FilesRequest} {assigned : Int → Nat} {q : List FileChunksIterator}
    (hrequest : ∀ part ∈ request.files, PartOf files part) (hq : ∀ it ∈ q, it.file ∈ files) :
    (∀ part ∈ (packRequest limit turns used request assigned q).1.files, PartOf files part) ∧
      ∀ it ∈ (packRequest limit turns used request assigned q).2.2, it.file ∈ files := by
  induction turns generalizing used request assigned q with
  | zero => exact ⟨hrequest, hq⟩
  | succ turns ih =>
      cases q with
      | nil => exact ⟨hrequest, hq⟩
      | cons it q =>
          unfold packRequest
          generalize hnext : it.nextChunks ((limit : Int) - used) = next
          obtain ⟨part, it'⟩ := next
          obtain ⟨hpart, hit'⟩ := Prod.mk.inj hnext
          have hself := hq it List.mem_cons_self
          have htail : ∀ other ∈ q, other.file ∈ files := fun other hother =>
            hq other (List.mem_cons_of_mem _ hother)
          have hq' : ∀ other ∈ (if it'.isFinished = true then q else it' :: q),
              other.file ∈ files := by
            split_ifs
            · exact htail
            · intro other hother
              cases List.mem_cons.1 hother with
              | inl heq =>
                  rw [heq, ← hit']
                  exact hself
              | inr hmem => exact htail other hmem
          simp only
          by_cases hempty : part.sizes = []
          · rw [if_pos hempty]
            by_cases hfinished : it'.isFinished = true
            · rw [if_pos hfinished]
              exact ih hrequest hq'
            · rw [if_neg hfinished]
              exact ⟨hrequest, hq'⟩
          · rw [if_neg hempty]
            apply ih ?_ hq'
            intro other hother
            cases List.mem_append.1 hother with
            | inl hold => exact hrequest other hold
            | inr hnew =>
                rw [List.mem_singleton.1 hnew, ← hpart]
                exact ⟨it.file, hself, rfl, rfl⟩

/-- A request takes parts of the files of the queue. -/
theorem nextRequest_parts {files : List FileChunks} {it : FilesRequestsIterator}
    (hq : ∀ entry ∈ it.q, entry.file ∈ files) :
    (∀ request ∈ it.nextRequest.1, ∀ part ∈ request.files, PartOf files part) ∧
      ∀ entry ∈ it.nextRequest.2.q, entry.file ∈ files := by
  have hparts := @packRequest_parts files it.memoryLimit (packingTurns it.q) 0 .empty
    it.assignedRanges it.q (fun _ h => absurd h List.not_mem_nil) hq
  unfold FilesRequestsIterator.nextRequest
  refine ⟨fun request hrequest => ?_, hparts.2⟩
  simp only at hrequest
  split_ifs at hrequest
  · cases hrequest
  · rw [← Option.some.inj hrequest]
    exact hparts.1

/-- A new iterator is in order, and every range is left. -/
theorem make_ok (limit : Nat) {files : List FileChunks}
    (hids : (files.map FileChunks.id).Nodup) :
    (FilesRequestsIterator.make limit files).Ok ∧
      rangesLeft (FilesRequestsIterator.make limit files).q = allRanges files := by
  refine ⟨⟨?_, ?_, ?_⟩, ?_⟩
  · intro it hit
    simp only [FilesRequestsIterator.make, List.mem_map] at hit
    obtain ⟨file, -, rfl⟩ := hit
    exact Nat.zero_le _
  · intro it hit
    simp only [FilesRequestsIterator.make, List.mem_map] at hit
    obtain ⟨file, -, rfl⟩ := hit
    rfl
  · simpa [FilesRequestsIterator.make, Function.comp_def] using hids
  · simp [rangesLeft, FilesRequestsIterator.make, List.flatMap_map, allRanges,
      FileChunksIterator.left]

/-! ## The names of the ranges -/

/-- What a response of a request is about. -/
def FilesRequest.info (request : FilesRequest) (name : Nat × Nat) : RangeInfo :=
  { fileId := (request.files.getD name.1 noFile).id
    index := request.globalRangeIndex name.1 name.2
    offset := (request.files.getD name.1 noFile).offsets.getD name.2 0
    size := (request.files.getD name.1 noFile).sizes.getD name.2 0 }

/-- The numbers of ranges of the files of a request. -/
def FilesRequest.counts (request : FilesRequest) : List Nat :=
  request.files.map fun file => file.sizes.length

/-- A list is read by index. -/
theorem flatMap_eq_range {α β : Type*} (xs : List α) (d : α) (f : α → List β) :
    xs.flatMap f = (List.range xs.length).flatMap fun i => f (xs.getD i d) := by
  induction xs with
  | nil => rfl
  | cons x xs ih =>
      rw [List.flatMap_cons, List.length_cons, List.range_succ_eq_map, List.flatMap_cons,
        List.flatMap_map, ih]
      rfl

/-- Ranges of one file are read by index. -/
theorem locate_eq_range (id : Int) (base : Nat) (file : FileChunks) :
    locate id base (file.offsets.zip file.sizes) =
      (List.range file.sizes.length).map fun r =>
        ⟨id, base + r, file.offsets.getD r 0, file.sizes.getD r 0⟩ := by
  apply List.ext_getElem
  · rw [length_locate, length_zip, List.length_map, List.length_range]
  · intro i hi hi'
    have hsize : i < file.sizes.length := by simpa using hi'
    have hoffset : i < file.offsets.length := by
      rw [file.parallel]
      exact hsize
    simp [locate, hsize, hoffset]

/-- The names of the ranges are read by file and index. -/
theorem rangeNames_eq_range (counts : List Nat) :
    rangeNames counts = (List.range counts.length).flatMap fun i =>
      (List.range (counts.getD i 0)).map fun r => (i, r) := by
  unfold rangeNames
  rw [flatMap_eq_range _ (0, 0), List.length_zipIdx]
  apply List.flatMap_congr
  intro i hi
  have hlt : i < counts.length := List.mem_range.1 hi
  simp [List.getD_eq_getElem?_getD, hlt]

/-- The responses are about the ranges of the request, in order. -/
theorem map_info_rangeNames {request : FilesRequest} (h : RequestOk request) :
    (rangeNames request.counts).map request.info = request.located := by
  rw [rangeNames_eq_range]
  unfold FilesRequest.located
  rw [flatMap_eq_range (request.files.zip request.rangeBase) (noFile, 0), List.map_flatMap]
  have hlength : (request.files.zip request.rangeBase).length = request.counts.length := by
    simp [FilesRequest.counts, h.rangeBase_length]
  rw [hlength]
  apply List.flatMap_congr
  intro i hi
  have hlt : i < request.files.length := by simpa [FilesRequest.counts] using hi
  have hbase : i < request.rangeBase.length := by
    rw [h.rangeBase_length]
    exact hlt
  have hzip : (request.files.zip request.rangeBase).getD i (noFile, 0) =
      (request.files.getD i noFile, request.rangeBase.getD i 0) := by
    simp [List.getD_eq_getElem?_getD, hlt, hbase]
  have hcount : request.counts.getD i 0 = (request.files.getD i noFile).sizes.length := by
    simp [FilesRequest.counts, List.getD_eq_getElem?_getD, hlt]
  rw [hzip, hcount, locate_eq_range, List.map_map]
  rfl

/-- Numbers that go on from file to file are all numbers. -/
theorem flatMap_range_offsets (counts : List Nat) :
    ((List.range counts.length).flatMap fun i =>
      (List.range (counts.getD i 0)).map fun r => (counts.take i).sum + r) =
        List.range counts.sum := by
  induction counts using List.reverseRecOn with
  | nil => rfl
  | append_singleton counts count ih =>
      rw [List.length_append, List.length_singleton, List.range_succ, List.flatMap_append,
        List.flatMap_singleton, List.sum_append, List.sum_singleton, List.range_add]
      congr 1
      · rw [← ih]
        apply List.flatMap_congr
        intro i hi
        have hlt : i < counts.length := List.mem_range.1 hi
        rw [List.take_append_of_le_length (le_of_lt hlt)]
        simp [List.getD_eq_getElem?_getD, List.getElem?_append_left hlt]
      · simp [List.getD_eq_getElem?_getD]

/-- The flat index numbers the ranges of a request. -/
theorem map_flatIndex_rangeNames {request : FilesRequest} (h : RequestOk request) :
    (rangeNames request.counts).map (fun name => request.flatIndex name.1 name.2) =
      List.range request.numRanges := by
  rw [h.numRanges_eq]
  change _ = List.range request.counts.sum
  rw [← flatMap_range_offsets, rangeNames_eq_range, List.map_flatMap]
  apply List.flatMap_congr
  intro i hi
  have hlt : i < request.files.length := by simpa [FilesRequest.counts] using hi
  rw [List.map_map]
  apply List.map_congr_left
  intro r _
  change request.fileBase.getD i 0 + r = (request.counts.take i).sum + r
  rw [h.fileBase_eq i hlt, FilesRequest.counts, List.map_take]

/-- A response of a request is about the range at its flat index. -/
theorem located_flatIndex {request : FilesRequest} (h : RequestOk request) {name : Nat × Nat}
    (hname : name ∈ rangeNames request.counts) :
    request.located[request.flatIndex name.1 name.2]? = some (request.info name) := by
  obtain ⟨k, hk⟩ := List.mem_iff_getElem?.1 hname
  have hflat := congrArg (fun xs : List Nat => xs[k]?) (map_flatIndex_rangeNames h)
  have hinfo := congrArg (fun xs : List RangeInfo => xs[k]?) (map_info_rangeNames h)
  simp only [List.getElem?_map, hk, Option.map_some] at hflat hinfo
  obtain ⟨hlt, hget⟩ := List.getElem?_eq_some_iff.1 hflat.symm
  rw [List.getElem_range] at hget
  rw [← hget]
  exact hinfo.symm

/-- There are as many names as ranges. -/
theorem length_rangeNames {request : FilesRequest} (h : RequestOk request) :
    (rangeNames request.counts).length = request.numRanges := by
  simpa using congrArg List.length (map_flatIndex_rangeNames h)

/-- A request has as many ranges as it counts. -/
theorem length_located {request : FilesRequest} (h : RequestOk request) :
    request.located.length = request.numRanges := by
  rw [← map_info_rangeNames h, List.length_map, length_rangeNames h]

/-- What is placed are the ranges of the request. -/
theorem ranges_eq {request : FilesRequest} (h : RequestOk request) :
    request.ranges = request.located.map fun range => (range.offset, range.size) := by
  have hlocate : ∀ (id : Int) (base : Nat) (pairs : List (Nat × Nat)),
      (locate id base pairs).map (fun range => (range.offset, range.size)) = pairs := by
    intro id base pairs
    induction pairs generalizing base with
    | nil => rfl
    | cons pair pairs ih =>
        simp only [locate, List.zipIdx_cons, List.map_cons, List.cons.injEq, true_and]
        exact ih (base + 1)
  unfold FilesRequest.ranges FilesRequest.located
  rw [List.map_flatMap]
  simp only [hlocate]
  have hfst : (request.files.zip request.rangeBase).map Prod.fst = request.files := by
    rw [List.map_fst_zip]
    exact le_of_eq h.rangeBase_length.symm
  conv_lhs => rw [← hfst, List.flatMap_map]

/-! ## Placing a request -/

/-- The addresses of a request lie in a row below the limit. -/
theorem placeRanges_spec {aligned : Bool} {directBlock limit cursor : Nat}
    {ranges : List (Nat × Nat)} {dsts : List Nat}
    (h : placeRanges aligned directBlock limit cursor ranges = some dsts) :
    dsts.length = ranges.length ∧ ∀ (i : Nat) (dst : Nat) (range : Nat × Nat),
      dsts[i]? = some dst → ranges[i]? = some range → cursor ≤ dst ∧ dst + range.2 ≤ limit := by
  induction ranges generalizing cursor dsts with
  | nil =>
      cases h
      exact ⟨rfl, fun i dst range hdst => by simp at hdst⟩
  | cons head ranges ih =>
      obtain ⟨offset, size⟩ := head
      simp only [placeRanges] at h
      generalize hcursor : (if aligned then
        cursor + (((offset : Int) - cursor) % directBlock).toNat else cursor) = cursor' at h
      have hle : cursor ≤ cursor' := by
        rw [← hcursor]
        split_ifs <;> omega
      split_ifs at h with hover
      obtain ⟨rest, hrest, rfl⟩ := Option.map_eq_some_iff.1 h
      obtain ⟨hlength, hplaces⟩ := ih hrest
      refine ⟨by simp [hlength], fun i dst range hdst hrange => ?_⟩
      cases i with
      | zero =>
          simp only [List.getElem?_cons_zero, Option.some.injEq] at hdst hrange
          subst hdst hrange
          exact ⟨hle, by simpa using hover⟩
      | succ i =>
          simp only [List.getElem?_cons_succ] at hdst hrange
          obtain ⟨hlow, hhigh⟩ := hplaces i dst range hdst hrange
          exact ⟨by omega, hhigh⟩

/-- Ranges that fit are packed one after another. -/
theorem placeRanges_tight {directBlock limit cursor : Nat} {ranges : List (Nat × Nat)}
    (hfits : cursor + (ranges.map Prod.snd).sum ≤ limit) :
    ∃ dsts, placeRanges false directBlock limit cursor ranges = some dsts := by
  induction ranges generalizing cursor with
  | nil => exact ⟨[], rfl⟩
  | cons head ranges ih =>
      obtain ⟨offset, size⟩ := head
      simp only [List.map_cons, List.sum_cons] at hfits
      obtain ⟨dsts, hdsts⟩ := @ih (cursor + size) (by omega)
      refine ⟨cursor :: dsts, ?_⟩
      simp only [placeRanges, Bool.false_eq_true, if_false]
      rw [if_neg (by omega), hdsts]
      rfl

end FileStreamer
end ModelStreamer
