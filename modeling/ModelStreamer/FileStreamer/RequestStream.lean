import ModelStreamer.FileStreamer.RequestsSpec
import ModelStreamer.Lib.GreedyParts

/-!
# The requests of a whole stream

{lit}`next_request` is called until it answers {lit}`None`.

Main results:

- Theorem {lit}`requests_spec`: the requests are the greedy parts of the ranges.
- Theorem {lit}`requests_pack_the_stream`: they cover the stream in order, each is full, and
  the indices of a response lead back to the range it is about.
-/

namespace ModelStreamer
namespace FileStreamer

open Distributed Lib

/-! ## All requests -/

/-- Call {lit}`next_request` until it answers {lit}`None`, at most so many times. -/
def FilesRequestsIterator.requests : Nat → FilesRequestsIterator → Option (List FilesRequest)
  | 0, _ => none
  | calls + 1, it =>
      match it.nextRequest with
      | (none, _) => some []
      | (some request, it') => (it'.requests calls).map (request :: ·)

/-- A range that is left does not fit the request. -/
theorem nextRequest_full {it : FilesRequestsIterator} (h : it.Ok) {request : FilesRequest}
    (hrequest : it.nextRequest.1 = some request) :
    ∀ range ∈ (rangesLeft it.nextRequest.2.q).head?,
      it.memoryLimit < totalBytes request.located + range.size := by
  have hpack := packRequest_spec (le_refl (packingTurns it.q)) requestOk_empty h
    (show totalBytes FilesRequest.empty.located = 0 from rfl) (Nat.zero_le it.memoryLimit)
  unfold FilesRequestsIterator.nextRequest at hrequest ⊢
  generalize packRequest it.memoryLimit (packingTurns it.q) 0 .empty it.assignedRanges it.q =
    result at hpack hrequest ⊢
  obtain ⟨packed, assigned, q⟩ := result
  simp only at hrequest ⊢
  split at hrequest
  · cases hrequest
  · rw [← Option.some.inj hrequest]
    intro range hrange
    cases hpack.full with
    | inl hleft =>
        rw [hleft] at hrange
        cases hrange
    | inr hover =>
        obtain ⟨next, ranges, hleft, hlt⟩ := hover
        rw [hleft] at hrange
        cases hrange
        exact hlt

/-- A request takes the ranges that fit, and leaves the others. -/
theorem nextRequest_takes {it : FilesRequestsIterator} (h : it.Ok)
    (hsizes : ∀ range ∈ rangesLeft it.q, range.size ≤ it.memoryLimit) {request : FilesRequest}
    (hrequest : it.nextRequest.1 = some request) :
    request.located =
        (rangesLeft it.q).take (fitting RangeInfo.size it.memoryLimit (rangesLeft it.q)) ∧
      rangesLeft it.nextRequest.2.q =
        (rangesLeft it.q).drop (fitting RangeInfo.size it.memoryLimit (rangesLeft it.q)) := by
  have hspec := (nextRequest_spec h hsizes).2.2
  rw [hrequest] at hspec
  obtain ⟨-, -, hcover, hfits⟩ := hspec
  have hlength : fitting RangeInfo.size it.memoryLimit (rangesLeft it.q) =
      request.located.length := by
    rw [← hcover]
    exact fitting_append hfits (nextRequest_full h hrequest)
  rw [hlength, ← hcover]
  exact ⟨List.take_left.symm, List.drop_left.symm⟩

/--
Requests that take what fits of the items that are left, and leave the others, are the greedy
parts of the items.
-/
theorem requests_greedy {β : Type*} {weight : β → Nat} {limit : Nat}
    {P : FilesRequestsIterator → Prop} {Q : FilesRequest → Prop}
    {left : FilesRequestsIterator → List β} {view : FilesRequest → List β}
    (hstep : ∀ it, P it → (∀ item ∈ left it, weight item ≤ limit) → P it.nextRequest.2 ∧
      match it.nextRequest.1 with
      | none => left it = []
      | some request => Q request ∧ left it ≠ [] ∧
          view request = (left it).take (fitting weight limit (left it)) ∧
          left it.nextRequest.2 = (left it).drop (fitting weight limit (left it)))
    {calls : Nat} {it : FilesRequestsIterator} (h : P it)
    (hfits : ∀ item ∈ left it, weight item ≤ limit) (hcalls : (left it).length < calls) :
    ∃ requests, it.requests calls = some requests ∧ (∀ request ∈ requests, Q request) ∧
      requests.map view = greedyParts weight limit (left it) := by
  induction calls generalizing it with
  | zero => exact absurd hcalls (Nat.not_lt_zero _)
  | succ calls ih =>
      obtain ⟨hnext, hcase⟩ := hstep it h hfits
      unfold FilesRequestsIterator.requests
      cases hrequest : it.nextRequest.1 with
      | none =>
          rw [hrequest] at hcase
          rw [show it.nextRequest = (none, it.nextRequest.2) from Prod.ext hrequest rfl]
          refine ⟨[], rfl, fun _ hmem => absurd hmem List.not_mem_nil, ?_⟩
          rw [hcase, greedyParts_nil]
          rfl
      | some request =>
          rw [hrequest] at hcase
          rw [show it.nextRequest = (some request, it.nextRequest.2) from Prod.ext hrequest rfl]
          obtain ⟨hQ, hne, hview, hleft⟩ := hcase
          have hshort : (left it.nextRequest.2).length < calls := by
            have hpos := fitting_pos hne hfits
            have hlen := List.length_pos_iff.2 hne
            rw [hleft, List.length_drop]
            omega
          have hfits' : ∀ item ∈ left it.nextRequest.2, weight item ≤ limit := by
            intro item hitem
            rw [hleft] at hitem
            exact hfits item (List.mem_of_mem_drop hitem)
          obtain ⟨requests, hrequests, hall, hparts⟩ := ih hnext hfits' hshort
          refine ⟨request :: requests, ?_, ?_, ?_⟩
          · simp only [hrequests, Option.map_some]
          · intro other hother
            cases List.mem_cons.1 hother with
            | inl hhead =>
                rw [hhead]
                exact hQ
            | inr htail => exact hall other htail
          · rw [List.map_cons, hparts, greedyParts_of_ne_nil hne hfits, hview, hleft]

/-- The requests are the greedy parts of the ranges. -/
theorem requests_spec {calls : Nat} {it : FilesRequestsIterator} (h : it.Ok)
    (hsizes : ∀ range ∈ rangesLeft it.q, range.size ≤ it.memoryLimit)
    (hcalls : (rangesLeft it.q).length < calls) :
    ∃ requests, it.requests calls = some requests ∧ (∀ request ∈ requests, RequestOk request) ∧
      requests.map FilesRequest.located =
        greedyParts RangeInfo.size it.memoryLimit (rangesLeft it.q) := by
  refine @requests_greedy RangeInfo RangeInfo.size it.memoryLimit
    (fun other => other.Ok ∧ other.memoryLimit = it.memoryLimit) RequestOk
    (fun other => rangesLeft other.q) FilesRequest.located ?_ calls it ⟨h, rfl⟩ hsizes hcalls
  rintro other ⟨hother, hlimit⟩ hfits
  rw [← hlimit] at hfits ⊢
  obtain ⟨hok, hsame, hnext⟩ := nextRequest_spec hother hfits
  refine ⟨⟨hok, hsame⟩, ?_⟩
  cases hrequest : other.nextRequest.1 with
  | none =>
      rw [hrequest] at hnext
      exact hnext.1
  | some request =>
      rw [hrequest] at hnext
      obtain ⟨hrequestOk, hne, hcover, -⟩ := hnext
      refine ⟨hrequestOk, fun hnil => ?_, nextRequest_takes hother hfits hrequest⟩
      rw [hnil] at hcover
      exact hne (List.append_eq_nil_iff.1 hcover).1

/-- More calls than it takes change nothing. -/
theorem requests_of_le {calls more : Nat} {it : FilesRequestsIterator}
    {requests : List FilesRequest} (h : it.requests calls = some requests) (hle : calls ≤ more) :
    it.requests more = some requests := by
  induction calls generalizing it more requests with
  | zero => cases h
  | succ calls ih =>
      obtain ⟨more, rfl⟩ := Nat.exists_eq_succ_of_ne_zero
        (Nat.pos_iff_ne_zero.1 ((Nat.succ_pos calls).trans_le hle))
      unfold FilesRequestsIterator.requests at h ⊢
      split at h
      · exact h
      · obtain ⟨rest, hrest, rfl⟩ := Option.map_eq_some_iff.1 h
        simp only [ih hrest (Nat.le_of_succ_le_succ hle), Option.map_some]

/-! ## The indices of a response -/

/-- The flattened arrays of a request are those of its ranges. -/
theorem flatMap_offsets_sizes (request : FilesRequest) :
    request.files.flatMap FileChunks.offsets = request.ranges.map Prod.fst ∧
      request.files.flatMap FileChunks.sizes = request.ranges.map Prod.snd := by
  unfold FilesRequest.ranges
  rw [List.map_flatMap, List.map_flatMap]
  constructor
  · apply List.flatMap_congr
    intro file _
    rw [List.map_fst_zip]
    exact le_of_eq file.parallel
  · apply List.flatMap_congr
    intro file _
    rw [map_snd_zip]

/-- What the indices of a response lead back to. -/
structure NamesRange (files : List FileChunks) (request : FilesRequest) (fileIndex rangeIndex : Nat)
    (file part : FileChunks) (offset size : Nat) : Prop where
  file_mem : file ∈ files
  part_get : request.files[fileIndex]? = some part
  id_eq : part.id = file.id
  /-- {lit}`global_range_index` names the range in its file. -/
  global_offset : file.offsets[request.globalRangeIndex fileIndex rangeIndex]? = some offset
  global_size : file.sizes[request.globalRangeIndex fileIndex rangeIndex]? = some size
  part_offset : part.offsets[rangeIndex]? = some offset
  part_size : part.sizes[rangeIndex]? = some size
  /-- {lit}`flat_index` names the range in the flattened arrays. -/
  flat_offset : (request.files.flatMap FileChunks.offsets)[
    request.flatIndex fileIndex rangeIndex]? = some offset
  flat_size : (request.files.flatMap FileChunks.sizes)[
    request.flatIndex fileIndex rangeIndex]? = some size

/-- A range of the stream is where its index says. -/
theorem mem_allRanges {files : List FileChunks} {range : RangeInfo}
    (h : range ∈ allRanges files) : ∃ file ∈ files, file.id = range.fileId ∧
      file.offsets[range.index]? = some range.offset ∧
      file.sizes[range.index]? = some range.size := by
  obtain ⟨file, hfile, hrange⟩ := List.mem_flatMap.1 h
  rw [locate_eq_range] at hrange
  obtain ⟨r, hr, rfl⟩ := List.mem_map.1 hrange
  have hsize : r < file.sizes.length := List.mem_range.1 hr
  have hoffset : r < file.offsets.length := by
    rw [file.parallel]
    exact hsize
  exact ⟨file, hfile, rfl, by simp [hoffset], by simp [hsize]⟩

/-- The indices of a response of a request lead back to the range it is about. -/
theorem namesRange_of_mem {files : List FileChunks} {request : FilesRequest}
    (h : RequestOk request) (hsub : ∀ range ∈ request.located, range ∈ allRanges files)
    {name : Nat × Nat} (hname : name ∈ rangeNames request.counts) :
    ∃ file part offset size,
      NamesRange files request name.1 name.2 file part offset size := by
  have hflat := located_flatIndex h hname
  obtain ⟨file, hfile, hid, hoffset, hsize⟩ :=
    mem_allRanges (hsub _ (List.mem_of_getElem? hflat))
  have hranges : request.ranges[request.flatIndex name.1 name.2]? =
      some ((request.info name).offset, (request.info name).size) := by
    rw [ranges_eq h, List.getElem?_map, hflat]
    rfl
  rw [rangeNames_eq_range] at hname
  obtain ⟨i, hi, hrange⟩ := List.mem_flatMap.1 hname
  obtain ⟨r, hr, rfl⟩ := List.mem_map.1 hrange
  have hi : i < request.files.length := by simpa [FilesRequest.counts] using hi
  have hgetD : request.files.getD i noFile = request.files[i] := by
    simp [List.getD_eq_getElem?_getD, hi]
  have hr : r < request.files[i].sizes.length := by
    simpa [FilesRequest.counts, List.getD_eq_getElem?_getD, hi] using hr
  have hr' : r < request.files[i].offsets.length := by
    rw [request.files[i].parallel]
    exact hr
  have hpart : request.files[i]? = some request.files[i] := List.getElem?_eq_getElem hi
  refine ⟨file, request.files[i], (request.info (i, r)).offset, (request.info (i, r)).size, ?_⟩
  exact
    { file_mem := hfile
      part_get := hpart
      id_eq := by
        rw [hid, ← hgetD]
        rfl
      global_offset := hoffset
      global_size := hsize
      part_offset := by
        simp only [FilesRequest.info, hgetD]
        simp [hr']
      part_size := by
        simp only [FilesRequest.info, hgetD]
        simp [hr]
      flat_offset := by
        rw [(flatMap_offsets_sizes request).1, List.getElem?_map, hranges]
        rfl
      flat_size := by
        rw [(flatMap_offsets_sizes request).2, List.getElem?_map, hranges]
        rfl }

/-! ## The stream -/

/--
The requests hold the ranges of the files in order, none is empty and each takes as many ranges
as fit, and the indices of every response name the range that it is about.
-/
theorem requests_pack_the_stream {limit : Nat} {files : List FileChunks}
    (hids : (files.map FileChunks.id).Nodup)
    (hlimit : ∀ file ∈ files, ∀ size ∈ file.sizes, size ≤ limit) :
    ∃ requests, (∀ calls, (allRanges files).length < calls →
        (FilesRequestsIterator.make limit files).requests calls = some requests) ∧
      requests.flatMap FilesRequest.located = allRanges files ∧
      (∀ request ∈ requests, request.located ≠ [] ∧ totalBytes request.located ≤ limit ∧
        ∀ name ∈ rangeNames request.counts, ∃ file part offset size,
          NamesRange files request name.1 name.2 file part offset size) ∧
      requests.IsChain fun request next =>
        ∀ range ∈ next.located.head?, limit < totalBytes request.located + range.size := by
  obtain ⟨hok, hleft⟩ := make_ok limit hids
  have hsizes : ∀ range ∈ allRanges files, range.size ≤ limit := by
    intro range hrange
    obtain ⟨file, hfile, -, -, hsize⟩ := mem_allRanges hrange
    exact hlimit file hfile _ (List.mem_of_getElem? hsize)
  have hrun := @requests_spec ((allRanges files).length + 1) _ hok
    (by rw [hleft]; exact hsizes) (by rw [hleft]; exact Nat.lt_succ_self _)
  rw [hleft] at hrun
  obtain ⟨requests, hrequests, hall, (hparts : _ = greedyParts RangeInfo.size limit _)⟩ := hrun
  have hflat : requests.flatMap FilesRequest.located = allRanges files := by
    rw [List.flatMap_def, hparts, flatten_greedyParts hsizes]
  refine ⟨requests, fun calls hcalls => requests_of_le hrequests hcalls, hflat, ?_, ?_⟩
  · intro request hrequest
    have hmem : request.located ∈ greedyParts RangeInfo.size limit (allRanges files) := by
      rw [← hparts]
      exact List.mem_map_of_mem hrequest
    obtain ⟨hne, hsum⟩ := of_mem_greedyParts hsizes _ hmem
    refine ⟨hne, hsum, fun name hname => namesRange_of_mem (hall request hrequest) ?_ hname⟩
    intro range hrange
    rw [← hflat]
    exact List.mem_flatMap.2 ⟨request, hrequest, hrange⟩
  · have hchain := isChain_greedyParts hsizes
    rw [← hparts, List.isChain_map] at hchain
    exact hchain

/-- Two files, of which the first has no range and the second a range without bytes. -/
theorem requests_pack_the_stream_twoFiles :
    ∃ requests,
      (FilesRequestsIterator.make 5
        [⟨7, "a", [], [], rfl⟩, ⟨8, "b", [0, 4, 4], [4, 0, 3], rfl⟩]).requests 4 =
          some requests ∧
      requests.map FilesRequest.numRanges = [2, 1] ∧
      requests.flatMap FilesRequest.located = [⟨8, 0, 0, 4⟩, ⟨8, 1, 4, 0⟩, ⟨8, 2, 4, 3⟩] := by
  obtain ⟨requests, hcalls, hflat, -⟩ := @requests_pack_the_stream 5
    [⟨7, "a", [], [], rfl⟩, ⟨8, "b", [0, 4, 4], [4, 0, 3], rfl⟩] (by decide) (by decide)
  have hfour := hcalls 4 (by decide)
  refine ⟨requests, hfour, ?_, hflat⟩
  have hcounts := congrArg (Option.map (List.map FilesRequest.numRanges)) hfour
  exact (Option.some.inj hcounts).symm

end FileStreamer
end ModelStreamer
