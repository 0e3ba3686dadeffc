import ModelStreamer.FileStreamer.RequestStream
import ModelStreamer.FileStreamer.RingSizing

/-!
# The planner of a ring

{lit}`_requests_needed` counts the requests of a stream without packing them, by bisection in
the running totals.

Main results:

- Theorem {lit}`requestsNeeded_eq`: the count is the number of greedy parts.
- Theorem {lit}`length_requests`: so is the number of requests that are packed, whatever the
  ids of the files.
- Theorem {lit}`spanWholeStream_spec`: the buffer found is the least that is large enough.
- Theorem {lit}`ring_planner_counts_requests`: the planner counts what the packer does.
-/

namespace ModelStreamer
namespace FileStreamer

open Distributed Lib

/-! ## Counting by bisection -/

/-- The sizes of all ranges, in the order in which they are packed. -/
def allSizes (files : List FileChunks) : List Nat :=
  files.flatMap FileChunks.sizes

/-- How many requests greedy packing makes of the sizes. -/
def partCount (bufferSize : Nat) (sizes : List Nat) : Nat :=
  (greedyParts id bufferSize sizes).length

@[simp]
theorem partCount_nil (bufferSize : Nat) : partCount bufferSize [] = 0 := by
  rw [partCount, greedyParts_nil]
  rfl

/-- Sizes that are left need one request, and those for what does not fit it. -/
theorem partCount_of_ne_nil {bufferSize : Nat} {sizes : List Nat} (hne : sizes ≠ [])
    (hfits : ∀ size ∈ sizes, size ≤ bufferSize) :
    partCount bufferSize sizes =
      partCount bufferSize (sizes.drop (fitting id bufferSize sizes)) + 1 := by
  rw [partCount, @greedyParts_of_ne_nil _ id bufferSize sizes hne hfits]
  rfl

/-- The bisection finds the end of what fits. -/
theorem bisectRight_fitting {sizes : List Nat} (bufferSize : Nat) {index : Nat}
    (hindex : index ≤ sizes.length) :
    bisectRight (prefixSums sizes) ((prefixSums sizes).getD index 0 + bufferSize) - 1 =
      index + fitting id bufferSize (sizes.drop index) := by
  rw [bisectRight_prefixSums hindex, Nat.add_sub_cancel, fitting, List.map_id]

/-- The loop counts the requests that are left, while the cap allows. -/
theorem requestsNeededFrom_eq {sizes : List Nat} {bufferSize cap : Nat}
    (hfits : ∀ size ∈ sizes, size ≤ bufferSize) {index requests : Nat}
    (hindex : index ≤ sizes.length) (hrequests : requests ≤ cap) :
    requestsNeededFrom (prefixSums sizes) bufferSize cap index requests =
      if requests + partCount bufferSize (sizes.drop index) ≤ cap then
        some (requests + partCount bufferSize (sizes.drop index))
      else none := by
  have hlength : (prefixSums sizes).length = sizes.length + 1 := length_runningTotals 0 sizes
  induction hleft : sizes.length - index using Nat.strong_induction_on
    generalizing index requests with
  | h n ih =>
      rw [requestsNeededFrom, hlength, Nat.add_sub_cancel]
      simp only [bisectRight_fitting bufferSize hindex]
      by_cases hlt : index < sizes.length
      · have hne : sizes.drop index ≠ [] := by
          intro hnil
          have hlen := List.drop_eq_nil_iff.1 hnil
          omega
        have hrest : ∀ size ∈ sizes.drop index, size ≤ bufferSize := fun size hsize =>
          hfits size (List.mem_of_mem_drop hsize)
        have hpos := @fitting_pos _ id bufferSize _ hne hrest
        have hle := fitting_le id bufferSize (sizes.drop index)
        rw [List.length_drop] at hle
        rw [dif_pos hlt, dif_neg (by omega), partCount_of_ne_nil hne hrest, List.drop_drop]
        by_cases hcap : cap < requests + 1
        · rw [if_pos hcap, if_neg (by omega)]
        · rw [if_neg hcap, ih _ (by omega) (by omega) (by omega) rfl]
          have hsame : ∀ k, requests + 1 + k = requests + (k + 1) := fun k => by omega
          rw [hsame]
      · have hend : sizes.drop index = [] := List.drop_eq_nil_of_le (Nat.not_lt.1 hlt)
        rw [dif_neg hlt, hend, partCount_nil, Nat.add_zero, if_pos hrequests]

/-- The planner counts the requests, up to the cap. -/
theorem requestsNeeded_eq {files : List FileChunks} {bufferSize : Nat}
    (hfits : ∀ size ∈ allSizes files, size ≤ bufferSize) (cap : Nat) :
    requestsNeeded (packingPrefix files) bufferSize cap =
      if partCount bufferSize (allSizes files) ≤ cap then
        some (partCount bufferSize (allSizes files))
      else none := by
  have hloop := requestsNeededFrom_eq hfits (Nat.zero_le _) (Nat.zero_le cap)
  rw [List.drop_zero, Nat.zero_add] at hloop
  exact hloop

/-! ## Counting by packing -/

/-- The sizes of the ranges of a request. -/
def FilesRequest.sizes (request : FilesRequest) : List Nat :=
  allSizes request.files

/-- The sizes of the ranges that no request has taken. -/
def sizesLeft (q : List FileChunksIterator) : List Nat :=
  (rangesLeft q).map RangeInfo.size

/-- No iterator of the queue is past the end of its file. -/
def IndicesOk (q : List FileChunksIterator) : Prop :=
  ∀ it ∈ q, it.nextIndex ≤ it.file.sizes.length

/-- What packing makes of the sizes of a request and a queue. -/
structure PacksSizes (limit : Nat) (request : FilesRequest) (q : List FileChunksIterator)
    (result : FilesRequest × (Int → Nat) × List FileChunksIterator) : Prop where
  indicesOk : IndicesOk result.2.2
  nonempty : ∀ file ∈ result.1.files, file.sizes ≠ []
  cover : result.1.sizes ++ sizesLeft result.2.2 = request.sizes ++ sizesLeft q
  fits : result.1.sizes.sum ≤ limit
  full : ∀ size ∈ (sizesLeft result.2.2).head?, limit < result.1.sizes.sum + size

/-- The sizes that a file iterator keeps follow those that it hands out. -/
theorem sizes_takesNext {limit used : Nat} {it it' : FileChunksIterator} {file : FileChunks}
    (htake : TakesNext limit used it file it') :
    it.left.map RangeInfo.size = file.sizes ++ it'.left.map RangeInfo.size := by
  rw [← htake.left_eq, List.map_append, map_size_locate, map_snd_zip]

/-- Packing takes sizes until the next one does not fit; the ids of the files do not matter. -/
theorem packRequest_sizes {limit turns used : Nat} {request : FilesRequest}
    {assigned : Int → Nat} {q : List FileChunksIterator} (hturns : packingTurns q ≤ turns)
    (hrequest : ∀ file ∈ request.files, file.sizes ≠ []) (hq : IndicesOk q)
    (hused : request.sizes.sum = used) (hfits : used ≤ limit) :
    PacksSizes limit request q (packRequest limit turns used request assigned q) := by
  have hnothing : ∀ {request : FilesRequest} {used : Nat},
      (∀ file ∈ request.files, file.sizes ≠ []) → request.sizes.sum = used → used ≤ limit →
      ∀ assigned, PacksSizes limit request [] (request, assigned, []) := by
    intro request used hrequest hused hfits assigned
    exact ⟨fun _ hit => absurd hit List.not_mem_nil, hrequest, rfl, hused ▸ hfits,
      fun _ hsize => by cases hsize⟩
  induction turns generalizing used request assigned q with
  | zero =>
      cases q with
      | nil => exact hnothing hrequest hused hfits assigned
      | cons it q => simp [packingTurns] at hturns
  | succ turns ih =>
      cases q with
      | nil => exact hnothing hrequest hused hfits assigned
      | cons it q =>
          have htake := nextChunks_spec limit used it (hq it List.mem_cons_self)
          simp only [packRequest]
          generalize (it.nextChunks ((limit : Int) - used)).1 = file at htake ⊢
          generalize (it.nextChunks ((limit : Int) - used)).2 = it' at htake ⊢
          have hqueue : IndicesOk (if it'.isFinished then q else it' :: q) := by
            have hrest : IndicesOk q := fun other hother =>
              hq other (List.mem_cons_of_mem _ hother)
            split
            · exact hrest
            · intro other hother
              cases List.mem_cons.1 hother with
              | inl hhead =>
                  rw [hhead, htake.file_eq]
                  exact htake.nextIndex_le
              | inr htail => exact hrest other htail
          have hrest : sizesLeft (if it'.isFinished then q else it' :: q) =
              it'.left.map RangeInfo.size ++ sizesLeft q := by
            split
            · rename_i hfinished
              rw [left_of_isFinished hfinished]
              rfl
            · exact List.map_append
          have hleft : sizesLeft (it :: q) =
              file.sizes ++ (it'.left.map RangeInfo.size ++ sizesLeft q) := by
            rw [← List.append_assoc, ← sizes_takesNext htake]
            exact List.map_append
          by_cases hnone : file.sizes = []
          · rw [hnone, List.nil_append, ← hrest] at hleft
            have hcover := congrArg (request.sizes ++ ·) hleft.symm
            rw [if_pos hnone]
            by_cases hfinished : it'.isFinished = true
            · -- the file has no range left, so packing goes on with the next one
              rw [if_pos hfinished]
              have hless : packingTurns (if it'.isFinished then q else it' :: q) ≤ turns := by
                rw [if_pos hfinished]
                simp only [packingTurns, List.map_cons, List.sum_cons] at hturns ⊢
                omega
              have hrec := @ih _ _ assigned _ hless hrequest hqueue hused hfits
              exact ⟨hrec.indicesOk, hrec.nonempty, hrec.cover.trans hcover, hrec.fits,
                hrec.full⟩
            · -- the next range does not fit
              obtain ⟨range, ranges, hhead, hover⟩ := htake.full (by simpa using hfinished)
              rw [if_neg hfinished]
              refine ⟨hqueue, hrequest, hcover, hused ▸ hfits, ?_⟩
              intro size hsize
              rw [hrest, hhead] at hsize
              cases hsize
              have hzero : file.totalSize = 0 := by simp [FileChunks.totalSize, hnone]
              simp only [hused]
              omega
          · rw [if_neg hnone]
            have happend : (request.append file (assigned file.id)).sizes =
                request.sizes ++ file.sizes := by
              simp [FilesRequest.sizes, allSizes, FilesRequest.append]
            have hrec := @ih (used + file.totalSize) (request.append file (assigned file.id))
              (Function.update assigned file.id (assigned file.id + file.sizes.length))
              (if it'.isFinished then q else it' :: q) ?_ ?_ hqueue ?_ (htake.fits hfits)
            · refine ⟨hrec.indicesOk, hrec.nonempty, ?_, hrec.fits, hrec.full⟩
              rw [hrec.cover, happend, hrest, hleft, List.append_assoc]
            · have hcount : 0 < file.sizes.length := List.length_pos_iff.2 hnone
              have hnext := htake.nextIndex_eq
              have hle := htake.nextIndex_le
              have hfile := htake.file_eq
              split
              · simp only [packingTurns, List.map_cons, List.sum_cons] at hturns ⊢
                omega
              · simp only [packingTurns, List.map_cons, List.sum_cons, hfile] at hturns ⊢
                omega
            · intro other hother
              cases List.mem_append.1 hother with
              | inl hold => exact hrequest other hold
              | inr hnew =>
                  rw [List.mem_singleton.1 hnew]
                  exact hnone
            · rw [happend, List.sum_append, hused]
              rfl

/-- A request takes the sizes that fit, and leaves the others. -/
theorem nextRequest_sizes {it : FilesRequestsIterator} (h : IndicesOk it.q)
    (hfits : ∀ size ∈ sizesLeft it.q, size ≤ it.memoryLimit) :
    IndicesOk it.nextRequest.2.q ∧
    match it.nextRequest.1 with
    | none => sizesLeft it.q = []
    | some request => sizesLeft it.q ≠ [] ∧
        request.sizes =
          (sizesLeft it.q).take (fitting id it.memoryLimit (sizesLeft it.q)) ∧
        sizesLeft it.nextRequest.2.q =
          (sizesLeft it.q).drop (fitting id it.memoryLimit (sizesLeft it.q)) := by
  have hpack := @packRequest_sizes it.memoryLimit _ 0 .empty it.assignedRanges it.q
    (le_refl (packingTurns it.q)) (fun _ hfile => absurd hfile List.not_mem_nil) h rfl
    (Nat.zero_le _)
  unfold FilesRequestsIterator.nextRequest
  generalize packRequest it.memoryLimit (packingTurns it.q) 0 .empty it.assignedRanges it.q =
    result at hpack ⊢
  obtain ⟨request, assigned, q⟩ := result
  have hcover : request.sizes ++ sizesLeft q = sizesLeft it.q := hpack.cover
  refine ⟨hpack.indicesOk, ?_⟩
  have hfull : fitting id it.memoryLimit (sizesLeft it.q) = request.sizes.length := by
    have hsum : (request.sizes.map id).sum ≤ it.memoryLimit := by
      rw [List.map_id]
      exact hpack.fits
    rw [← hcover]
    apply fitting_append hsum
    rw [List.map_id]
    exact hpack.full
  by_cases hfiles : request.files = []
  · simp only [if_pos hfiles]
    by_contra hne
    have hnone : request.sizes = [] := by
      unfold FilesRequest.sizes
      rw [hfiles]
      rfl
    have hpos := @fitting_pos _ id it.memoryLimit _ hne hfits
    rw [hfull, hnone] at hpos
    exact absurd hpos (Nat.lt_irrefl 0)
  · simp only [if_neg hfiles]
    refine ⟨?_, ?_, ?_⟩
    · intro hnil
      rw [hnil, List.append_eq_nil_iff] at hcover
      obtain ⟨file, files, hcons⟩ := List.exists_cons_of_ne_nil hfiles
      have hmem : file ∈ request.files := by
        rw [hcons]
        exact List.mem_cons_self
      exact hpack.nonempty file hmem (List.flatMap_eq_nil_iff.1 hcover.1 file hmem)
    · rw [hfull, ← hcover, List.take_left]
    · rw [hfull, ← hcover, List.drop_left]

/-- The requests that the iterator yields before it answers {lit}`None`. -/
def Yields (bufferSize : Nat) (files : List FileChunks) (requests : List FilesRequest) : Prop :=
  ∃ calls, (FilesRequestsIterator.make bufferSize files).requests calls = some requests

/-- The iterator yields one list of requests. -/
theorem Yields.unique {bufferSize : Nat} {files : List FileChunks} {xs ys : List FilesRequest}
    (hx : Yields bufferSize files xs) (hy : Yields bufferSize files ys) : xs = ys := by
  obtain ⟨calls, hcalls⟩ := hx
  obtain ⟨more, hmore⟩ := hy
  cases Nat.le_total calls more with
  | inl hle => exact Option.some.inj ((requests_of_le hcalls hle).symm.trans hmore)
  | inr hle => exact Option.some.inj (hcalls.symm.trans (requests_of_le hmore hle))

/-- All sizes are left in a new iterator. -/
theorem sizesLeft_make (bufferSize : Nat) (files : List FileChunks) :
    sizesLeft (FilesRequestsIterator.make bufferSize files).q = allSizes files := by
  simp only [sizesLeft, rangesLeft, FilesRequestsIterator.make, List.flatMap_map,
    List.map_flatMap, FileChunksIterator.left, List.drop_zero, map_size_locate, map_snd_zip]
  rfl

/-- The iterator yields as many requests as greedy packing needs. -/
theorem length_requests {bufferSize : Nat} {files : List FileChunks}
    (hfits : ∀ size ∈ allSizes files, size ≤ bufferSize) :
    ∃ requests, Yields bufferSize files requests ∧
      requests.length = partCount bufferSize (allSizes files) := by
  have hleft := sizesLeft_make bufferSize files
  have hindices : IndicesOk (FilesRequestsIterator.make bufferSize files).q := by
    intro it hit
    obtain ⟨file, -, rfl⟩ := List.mem_map.1 hit
    exact Nat.zero_le _
  have hrun := @requests_greedy Nat id bufferSize
    (fun it => IndicesOk it.q ∧ it.memoryLimit = bufferSize) (fun _ => True)
    (fun it => sizesLeft it.q) FilesRequest.sizes fun it h hsizes => by
      obtain ⟨hit, rfl⟩ := h
      obtain ⟨hok, hnext⟩ := nextRequest_sizes hit hsizes
      refine ⟨⟨hok, rfl⟩, ?_⟩
      cases hrequest : it.nextRequest.1 with
      | none =>
          rw [hrequest] at hnext
          exact hnext
      | some request =>
          rw [hrequest] at hnext
          exact ⟨trivial, hnext⟩
  have hcalls := Nat.lt_succ_self (allSizes files).length
  rw [← hleft] at hcalls hfits
  obtain ⟨requests, hrequests, -, hparts⟩ := hrun ⟨hindices, rfl⟩ hfits hcalls
  refine ⟨requests, ⟨_, hrequests⟩, ?_⟩
  have hlength := congrArg List.length hparts
  rw [List.length_map, hleft] at hlength
  exact hlength

/-! ## The planner and the packer -/

/-- The largest range bounds the sizes of all ranges. -/
theorem largestRange_le_iff {files : List FileChunks} {bufferSize : Nat} :
    largestRange files ≤ bufferSize ↔ ∀ size ∈ allSizes files, size ≤ bufferSize := by
  unfold largestRange
  rw [foldr_max_le_iff, List.forall_mem_map]
  constructor
  · intro h size hsize
    obtain ⟨file, hfile, hmem⟩ := List.mem_flatMap.1 hsize
    exact foldr_max_le_iff.1 (h file hfile) size hmem
  · intro h file hfile
    apply foldr_max_le_iff.2
    exact fun size hsize => h size (List.mem_flatMap.2 ⟨file, hfile, hsize⟩)

/-- The requests that are yielded are counted by greedy packing. -/
theorem Yields.length_eq {bufferSize : Nat} {files : List FileChunks}
    {requests : List FilesRequest} (h : Yields bufferSize files requests)
    (hlargest : largestRange files ≤ bufferSize) :
    requests.length = partCount bufferSize (allSizes files) := by
  obtain ⟨others, hothers, hlength⟩ := length_requests (largestRange_le_iff.1 hlargest)
  rw [h.unique hothers]
  exact hlength

/-- The planner finds a number exactly when the cap allows. -/
theorem requestsNeeded_isSome_iff {files : List FileChunks} {bufferSize cap : Nat}
    (hlargest : largestRange files ≤ bufferSize) :
    (requestsNeeded (packingPrefix files) bufferSize cap).isSome = true ↔
      partCount bufferSize (allSizes files) ≤ cap := by
  rw [requestsNeeded_eq (largestRange_le_iff.1 hlargest)]
  split
  · rename_i hle
    simp [hle]
  · rename_i hgt
    simp [hgt]

/-- A larger buffer never needs more requests. -/
theorem partCount_anti {files : List FileChunks} {small large : Nat}
    (hlargest : largestRange files ≤ small) (hle : small ≤ large) :
    partCount large (allSizes files) ≤ partCount small (allSizes files) :=
  @length_greedyParts_anti _ id small large _ (largestRange_le_iff.1 hlargest) hle

/-- The buffer found is the least that packs the stream into few enough requests. -/
theorem spanWholeStream_spec {files : List FileChunks} {low : Nat}
    (hlargest : largestRange files ≤ low) (high target : Nat) :
    match spanWholeStream files low high target with
    | none => ∀ size, low ≤ size → size ≤ high →
        target < partCount size (allSizes files)
    | some (size, requests) => (low ≤ size ∧ size ≤ high) ∧
        requests = partCount size (allSizes files) ∧ requests ≤ target ∧
        ∀ other, low ≤ other → other < size → target < partCount other (allSizes files) := by
  unfold spanWholeStream
  by_cases hempty : high < low
  · rw [if_pos hempty]
    intro size hlow hhigh
    omega
  · have hle : low ≤ high := Nat.not_lt.1 hempty
    have htest : ∀ size, low ≤ size →
        ((requestsNeeded (packingPrefix files) size target).isSome = true ↔
          partCount size (allSizes files) ≤ target) := fun size hsize =>
      requestsNeeded_isSome_iff (hlargest.trans hsize)
    rw [if_neg hempty]
    simp only
    by_cases hhigh : requestsNeeded (packingPrefix files) high target = none
    · rw [if_pos hhigh]
      intro size hlow hsize
      have hfails : ¬ partCount high (allSizes files) ≤ target := by
        rw [← htest high hle, hhigh]
        exact Bool.false_ne_true
      exact (Nat.not_le.1 hfails).trans_le (partCount_anti (hlargest.trans hlow) hsize)
    · rw [if_neg hhigh]
      have hpass := Option.isSome_iff_ne_none.2 hhigh
      obtain ⟨hbounds, hfound, hbelow⟩ := searchLeast_spec low high
        (fun m n hm hmn _ h => by
          rw [htest n (hm.trans hmn)]
          exact (partCount_anti (hlargest.trans hm) hmn).trans ((htest m hm).1 h))
        hle hpass
      generalize searchLeast (fun size => (requestsNeeded (packingPrefix files) size
        target).isSome) low high = found at hbounds hfound hbelow ⊢
      have hcount := (htest found hbounds.1).1 hfound
      rw [requestsNeeded_eq (largestRange_le_iff.1 (hlargest.trans hbounds.1)), if_pos hcount]
      refine ⟨hbounds, rfl, hcount, fun other hlow hlt => ?_⟩
      have hfails := hbelow other hlow hlt
      rw [← Bool.not_eq_true, htest other hlow] at hfails
      exact Nat.not_le.1 hfails

/--
The planner counts the requests that the packer yields, larger buffers never need more, and
the span search finds the least buffer that needs few enough, if there is one.
-/
theorem ring_planner_counts_requests (files : List FileChunks) :
    (∀ bufferSize, largestRange files ≤ bufferSize →
      ∃ requests, Yields bufferSize files requests ∧
        ∀ cap, requestsNeeded (packingPrefix files) bufferSize cap =
          if requests.length ≤ cap then some requests.length else none) ∧
    (∀ small large few many, largestRange files ≤ small → small ≤ large →
      Yields large files few → Yields small files many → few.length ≤ many.length) ∧
    (∀ low high target, largestRange files ≤ low →
      (spanWholeStream files low high target = none ↔
        ∀ size requests, low ≤ size → size ≤ high → Yields size files requests →
          target < requests.length) ∧
      ∀ size count, spanWholeStream files low high target = some (size, count) →
        low ≤ size ∧ size ≤ high ∧ count ≤ target ∧
        (∀ requests, Yields size files requests → requests.length = count) ∧
        ∀ other requests, low ≤ other → other < size → Yields other files requests →
          target < requests.length) := by
  refine ⟨?_, ?_, ?_⟩
  · intro bufferSize hlargest
    obtain ⟨requests, hyields, hlength⟩ := length_requests (largestRange_le_iff.1 hlargest)
    refine ⟨requests, hyields, fun cap => ?_⟩
    rw [hlength]
    exact requestsNeeded_eq (largestRange_le_iff.1 hlargest) cap
  · intro small large few many hlargest hle hfew hmany
    rw [hfew.length_eq (hlargest.trans hle), hmany.length_eq hlargest]
    exact partCount_anti hlargest hle
  · intro low high target hlargest
    have hspec := spanWholeStream_spec hlargest high target
    cases hspan : spanWholeStream files low high target with
    | none =>
        rw [hspan] at hspec
        refine ⟨⟨fun _ size requests hlow hhigh hyields => ?_, fun _ => rfl⟩, nofun⟩
        rw [hyields.length_eq (hlargest.trans hlow)]
        exact hspec size hlow hhigh
    | some found =>
        obtain ⟨size, count⟩ := found
        rw [hspan] at hspec
        obtain ⟨⟨hlow, hhigh⟩, hcount, htarget, hbelow⟩ := hspec
        refine ⟨⟨nofun, fun hall => ?_⟩, ?_⟩
        · obtain ⟨requests, hyields, hlength⟩ :=
            length_requests (largestRange_le_iff.1 (hlargest.trans hlow))
          have hover := hall size requests hlow hhigh hyields
          omega
        · intro size' count' heq
          cases heq
          refine ⟨hlow, hhigh, htarget, fun requests hyields => ?_, ?_⟩
          · rw [hyields.length_eq (hlargest.trans hlow), hcount]
          · intro other requests hother hlt hyields
            rw [hyields.length_eq (hlargest.trans hother)]
            exact hbelow other hother hlt

/-- Ranges of six, three and five bytes need three buffers of six, and eight bytes are the least that
two buffers need. -/
theorem ring_planner_counts_requests_sixThreeFive :
    let files : List FileChunks := [⟨0, "a", [7], [6], rfl⟩, ⟨1, "b", [2, 5], [3, 5], rfl⟩]
    (∃ requests, Yields 6 files requests ∧ requests.length = 3 ∧
      requestsNeeded (packingPrefix files) 6 3 = some 3 ∧
      requestsNeeded (packingPrefix files) 6 2 = none) ∧
    spanWholeStream files 6 14 2 = some (8, 2) ∧
    (∀ requests, Yields 8 files requests → requests.length = 2) ∧
    (∀ requests, Yields 7 files requests → 2 < requests.length) ∧
    spanWholeStream files 6 7 2 = none := by
  intro files
  have hlargest : largestRange files ≤ 6 := by decide
  obtain ⟨hcounts, -, hspan⟩ := ring_planner_counts_requests files
  obtain ⟨requests, hyields, hneeded⟩ := hcounts 6 hlargest
  have hthree : requestsNeeded (packingPrefix files) 6 3 = some 3 := by decide +kernel
  have htwo : requestsNeeded (packingPrefix files) 6 2 = none := by decide +kernel
  have hlength : requests.length = 3 := by
    have hcap := (hneeded 3).symm.trans hthree
    by_cases hle : requests.length ≤ 3
    · rw [if_pos hle] at hcap
      exact Option.some.inj hcap
    · rw [if_neg hle] at hcap
      cases hcap
  have hleast : spanWholeStream files 6 14 2 = some (8, 2) := by decide +kernel
  have hfound := (hspan 6 14 2 hlargest).2 8 2 hleast
  obtain ⟨-, -, -, height, hbelow⟩ := hfound
  refine ⟨⟨requests, hyields, hlength, hthree, htwo⟩, hleast, height,
    fun more hmore => hbelow 7 more (by decide) (by decide) hmore, ?_⟩
  exact (hspan 6 7 2 hlargest).1.2 fun size more hlow hhigh hmore =>
    hbelow size more hlow (by omega) hmore

end FileStreamer
end ModelStreamer
