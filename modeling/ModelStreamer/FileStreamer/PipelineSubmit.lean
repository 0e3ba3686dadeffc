import ModelStreamer.FileStreamer.PipelineSpec

/-!
# Submissions

Submitting the next request moves its ranges to the library and its slot out of the pool.
-/

namespace ModelStreamer
namespace FileStreamer

open Distributed Lib

/-! ## Submitting a request -/

section Submit

variable {ring : Ring} {files : List FileChunks} {requests : List FilesRequest} {s s' : Stream}

/-- The requests, when one more was submitted. -/
theorem getElem?_requests_concat {request other : FilesRequest} {k : Nat}
    (h : (requests ++ [request])[k]? = some other) :
    requests[k]? = some other ∨ (k = requests.length ∧ other = request) :=
  getElem?_concat_cases h

/-- Submitting moves the ranges of the request to the library. -/
theorem CoreOk.submit {request : FilesRequest} {index : Nat} {rest : List Payload}
    (h : CoreOk ring files requests s) (hrest : s.control.payloads = rest)
    {iterator : FilesRequestsIterator} (hiterator : iterator.Ok)
    (hlimit : iterator.memoryLimit = ring.bufferSize) (hok : RequestOk request)
    (hparts : ∀ part ∈ request.files, PartOf files part)
    (hqueue : ∀ it ∈ iterator.q, it.file ∈ files) (hne : 0 < request.numRanges)
    (hcover : request.located ++ rangesLeft iterator.q = rangesLeft s.iterator.q)
    (pool : SlotPool) (allocated : Nat) :
    CoreOk ring files (requests ++ [request])
      ({ s with iterator, pool, allocated }.submit request index rest) := by
  have hlength := h.library_length
  refine ⟨?_, ?_, hqueue, ?_, hiterator, hlimit, ?_, ?_, ?_, ?_, ?_⟩
  · intro other hother
    cases List.mem_append.1 hother with
    | inl hold => exact h.requestsOk other hold
    | inr hnew =>
        rw [List.mem_singleton.1 hnew]
        exact hok
  · intro other hother
    cases List.mem_append.1 hother with
    | inl hold => exact h.parts other hold
    | inr hnew =>
        rw [List.mem_singleton.1 hnew]
        exact hparts
  · intro other hother
    cases List.mem_append.1 hother with
    | inl hold => exact h.nonempty other hold
    | inr hnew =>
        rw [List.mem_singleton.1 hnew]
        exact hne
  · change (requests ++ [request]).flatMap _ ++ rangesLeft iterator.q = _
    rw [List.flatMap_append, List.flatMap_singleton, List.append_assoc, hcover]
    exact h.cover
  · simp [Stream.submit, hlength]
  · intro k other hother
    cases getElem?_requests_concat hother with
    | inl hold =>
        obtain ⟨unanswered, hgiven⟩ := h.library_eq k other hold
        exact ⟨unanswered, getElem?_concat_of_some hgiven _⟩
    | inr hnew =>
        obtain ⟨rfl, rfl⟩ := hnew
        refine ⟨rangeNames other.counts, ?_⟩
        simp only [Stream.submit, ← hlength, List.getElem?_concat_length]
        rfl
  · have hsame : ({ s with iterator, pool, allocated }.submit request index rest).held =
        s.held := by
      unfold Stream.held Stream.submit
      rw [hrest]
      rfl
    rw [hsame]
    change (unansweredOf (s.library ++ [request.submission]) ++
      (s.held ++ s.consumed).map Payload.ticket).Perm (ticketsOf (requests ++ [request]))
    rw [unansweredOf, tagged_concat, ticketsOf, tagged_concat, hlength]
    have hperm := h.tickets.append_right
      ((rangeNames request.counts).map fun name => (requests.length, name))
    refine List.Perm.trans ?_ hperm
    change (unansweredOf s.library ++ (rangeNames request.counts).map _ ++ _).Perm _
    rw [List.append_assoc, List.append_assoc]
    exact List.perm_append_comm.append_left _
  · intro payload hpayload
    have hold : payload ∈ s.held ++ s.consumed := by
      unfold Stream.held Stream.submit at hpayload
      unfold Stream.held
      rw [hrest]
      exact hpayload
    obtain ⟨other, hother, hdetails⟩ := (h.payloads payload hold).exists_request
    exact ⟨other, getElem?_concat_of_some hother _, hdetails⟩

/-- Nothing of a new submission was handed over. -/
theorem CoreOk.handedOver_new (h : CoreOk ring files requests s) :
    s.handedOver requests.length = 0 := by
  apply List.countP_eq_zero.2
  intro payload hpayload
  obtain ⟨request, hrequest, -⟩ :=
    (h.payloads payload (List.mem_append_right _ hpayload)).exists_request
  have hlt := (List.getElem?_eq_some_iff.1 hrequest).1
  simp only [decide_eq_true_eq]
  omega

/-- Being live, when one more request was submitted. -/
theorem isLive_concat {request : FilesRequest} (hnew : s.handedOver requests.length = 0)
    (hne : 0 < request.numRanges) (hover : ∀ k, s'.handedOver k = s.handedOver k) (k : Nat) :
    IsLive (requests ++ [request]) s' k ↔ k = requests.length ∨ IsLive requests s k := by
  unfold IsLive
  constructor
  · intro ⟨other, hother, hlt⟩
    cases getElem?_requests_concat hother with
    | inl hold => exact .inr ⟨other, hold, hover k ▸ hlt⟩
    | inr heq => exact .inl heq.1
  · intro hcases
    cases hcases with
    | inl heq =>
        subst heq
        exact ⟨request, List.getElem?_concat_length, by rw [hover, hnew]; exact hne⟩
    | inr hold =>
        obtain ⟨other, hother, hlt⟩ := hold
        exact ⟨other, getElem?_concat_of_some hother _, by rw [hover]; exact hlt⟩

/-- Submitting enters the request into the tables. -/
theorem CountOk.submit {request : FilesRequest} {index : Nat} {rest : List Payload}
    (h : CountOk requests s) (hcore : CoreOk ring files requests s)
    (hbuffers : s.buffers.length = requests.length) (hok : RequestOk request)
    (hne : 0 < request.numRanges) (iterator : FilesRequestsIterator) (pool : SlotPool)
    (allocated : Nat) :
    CountOk (requests ++ [request])
      ({ s with iterator, pool, allocated }.submit request index rest) := by
  have hlength := hcore.library_length
  have hnew := hcore.handedOver_new
  have hover : ∀ k, ({ s with iterator, pool, allocated }.submit request index rest).handedOver k =
      s.handedOver k := fun _ => rfl
  have hlive := isLive_concat hnew hne hover
  have hbeyond : requests[requests.length]? = none := List.getElem?_eq_none (le_refl _)
  have hkey : s.library.length ∉ s.live.keys := by
    intro hmem
    obtain ⟨other, hother⟩ := Table.mem_keys_iff.1 hmem
    have hrequest := ((h.live_iff _ _).1 hother).1
    rw [hlength, hbeyond] at hrequest
    cases hrequest
  have hkey' : s.library.length ∉ s.rangesNotYielded.keys := by
    intro hmem
    obtain ⟨n, hn⟩ := Table.mem_keys_iff.1 hmem
    obtain ⟨other, hrequest, -⟩ := (h.notYielded_iff _ _).1 hn
    rw [hlength, hbeyond] at hrequest
    cases hrequest
  refine ⟨?_, ?_, ?_, ?_, ?_, ?_⟩
  · exact Table.nodup_keys_concat h.live_nodup hkey request
  · intro k other
    change (s.live ++ [(s.library.length, request)]).lookup k = some other ↔ _
    rw [Table.lookup_concat hkey, hover, hlength]
    by_cases hk : k = requests.length
    · subst hk
      rw [if_pos rfl, List.getElem?_concat_length, hnew]
      constructor
      · intro heq
        rw [← Option.some.inj heq]
        exact ⟨rfl, hne⟩
      · exact fun hpair => hpair.1
    · rw [if_neg hk, h.live_iff]
      constructor
      · exact fun hpair => ⟨getElem?_concat_of_some hpair.1 _, hpair.2⟩
      · intro hpair
        cases getElem?_requests_concat hpair.1 with
        | inl hold => exact ⟨hold, hpair.2⟩
        | inr heq => exact absurd heq.1 hk
  · intro k n
    change (s.rangesNotYielded ++ [(s.library.length, request.numRanges)]).lookup k = some n ↔ _
    rw [Table.lookup_concat hkey', hover, hlength]
    by_cases hk : k = requests.length
    · subst hk
      rw [if_pos rfl, hnew]
      constructor
      · intro heq
        exact ⟨request, List.getElem?_concat_length, hne, (Option.some.inj heq).symm⟩
      · intro ⟨other, hother, _, hn⟩
        rw [List.getElem?_concat_length] at hother
        rw [Option.some.inj hother]
        exact congrArg some hn.symm
    · rw [if_neg hk, h.notYielded_iff]
      constructor
      · exact fun ⟨other, hother, hdetails⟩ => ⟨other, getElem?_concat_of_some hother _, hdetails⟩
      · intro ⟨other, hother, hdetails⟩
        cases getElem?_requests_concat hother with
        | inl hold => exact ⟨other, hold, hdetails⟩
        | inr heq => exact absurd heq.1 hk
  · intro k
    change k ∈ s.reportedDone ↔ _ ∧ ∃ given, (s.library ++ [request.submission])[k]? = some given ∧ _
    rw [hlive, h.done_iff]
    have hnames : request.submission.unanswered ≠ [] := by
      intro hnil
      have hcount := length_rangeNames hok
      change rangeNames request.counts = [] at hnil
      rw [hnil, List.length_nil] at hcount
      omega
    constructor
    · intro ⟨hold, given, hgiven, hnone⟩
      exact ⟨.inr hold, given, getElem?_concat_of_some hgiven _, hnone⟩
    · intro ⟨hcases, given, hgiven, hnone⟩
      cases getElem?_concat_cases hgiven with
      | inr heq =>
          rw [heq.2] at hnone
          exact absurd hnone hnames
      | inl hold =>
          refine ⟨?_, given, hold, hnone⟩
          cases hcases with
          | inl heq =>
              have hlt := (List.getElem?_eq_some_iff.1 hold).1
              omega
          | inr hlive' => exact hlive'
  · change s.outstanding + request.numRanges =
      ((unansweredOf (s.library ++ [request.submission])).length : Int)
    have hsub : request.submission.unanswered.length = request.numRanges :=
      length_rangeNames hok
    rw [h.outstanding_eq]
    unfold unansweredOf
    rw [tagged_concat, List.length_append, List.length_map, hsub]
    omega
  · intro k
    change (∃ i, (s.buffers ++ [some index])[k]? = some (some i)) ↔ _
    rw [hlive, ← h.buffers_iff]
    constructor
    · intro ⟨i, hi⟩
      cases getElem?_concat_cases hi with
      | inl hold => exact .inr ⟨i, hold⟩
      | inr heq => exact .inl (heq.1.trans hbuffers)
    · intro hcases
      cases hcases with
      | inl heq =>
          refine ⟨index, ?_⟩
          rw [heq, ← hbuffers]
          exact List.getElem?_concat_length
      | inr hold =>
          obtain ⟨i, hi⟩ := hold
          exact ⟨i, getElem?_concat_of_some hi _⟩

/-- What {lit}`take` does. -/
theorem take_spec {pool pool' : SlotPool} {fresh : Slot} {index : Nat}
    (h : pool.takeFresh fresh = some (index, pool')) :
    pool.free = index :: pool'.free ∧ pool'.pending = pool.pending ∧
      pool'.owned = pool.owned ∧ pool'.slots.length = pool.slots.length ∧
      (∀ i, i ≠ index → pool'.slots[i]? = pool.slots[i]?) ∧
      (∀ slot, pool'.slots[index]? = some (some slot) →
        slot = fresh ∨ pool.slots[index]? = some (some slot)) ∧
      (index < pool.slots.length → ∃ slot, pool'.slots[index]? = some (some slot)) := by
  cases hfree : pool.free with
  | nil =>
      rw [takeFresh_nil fresh hfree] at h
      cases h
  | cons head free =>
    rw [takeFresh_cons fresh hfree] at h
    cases h
    refine ⟨rfl, rfl, rfl, ?_, ?_, ?_, ?_⟩
    · simp only
      split_ifs
      · exact List.length_set
      · rfl
    · intro i hi
      simp only
      split_ifs
      · exact List.getElem?_set_ne (Ne.symm hi)
      · rfl
    · intro slot hslot
      simp only at hslot
      split_ifs at hslot with hnone
      · by_cases hlt : index < pool.slots.length
        · rw [List.getElem?_set_self hlt] at hslot
          exact .inl (Option.some.inj (Option.some.inj hslot)).symm
        · rw [List.getElem?_eq_none (by simpa using hlt)] at hslot
          cases hslot
      · exact .inr hslot
    · intro hlt
      simp only
      split_ifs with hnone
      · exact ⟨fresh, List.getElem?_set_self hlt⟩
      · rw [List.getD_eq_getElem?_getD, List.getElem?_eq_getElem hlt, Option.getD_some] at hnone
        obtain ⟨slot, hslot⟩ := Option.ne_none_iff_exists'.1 hnone
        exact ⟨slot, by rw [List.getElem?_eq_getElem hlt, hslot]⟩

/-- A slot that is under a live request is not idle. -/
theorem PoolOk.not_mem_idle (h : PoolOk ring requests s) {k i : Nat}
    (hk : s.buffers[k]? = some (some i)) : i ∉ s.pool.idle := by
  have hused : i ∈ s.buffers.filterMap id :=
    List.mem_filterMap.2 ⟨some i, List.mem_of_getElem? hk, rfl⟩
  have hdisjoint := (List.nodup_append'.1 h.nodup).2.2
  exact fun hidle => hdisjoint hidle hused

/-- A slot of the pool has a number below the depth of the ring. -/
theorem PoolOk.index_lt (h : PoolOk ring requests s) {i : Nat}
    (hi : i ∈ s.pool.idle ++ s.buffers.filterMap id) : i < ring.numBuffers :=
  List.mem_range.1 (h.indices.mem_iff.1 hi)

/-- Taking a slot for a request. -/
theorem PoolOk.submit {request : FilesRequest} {index : Nat} {rest : List Payload}
    {pool : SlotPool} {fresh : Slot} {slot : Slot} (h : PoolOk ring requests s)
    (hfresh : fresh.length = ring.slotSize) (htake : s.pool.takeFresh fresh = some (index, pool))
    (hslot : pool.slots[index]? = some (some slot)) (hplaced : Placed slot request)
    (iterator : FilesRequestsIterator) (allocated : Nat) :
    PoolOk ring (requests ++ [request])
      ({ s with iterator, pool, allocated }.submit request index rest) := by
  obtain ⟨hfree, hpending, howned, hlength, hother, hself, -⟩ := take_spec htake
  have hidle : s.pool.idle = index :: pool.idle := by
    unfold SlotPool.idle
    rw [hfree, hpending]
    rfl
  have hmem : index ∈ s.pool.idle := by
    rw [hidle]
    exact List.mem_cons_self
  refine ⟨?_, ?_, ?_, ?_, howned.trans h.owned_eq, hlength.trans h.slots_length, ?_, ?_, ?_, ?_,
    ?_, h.completed_lt, h.completed_nodup⟩
  · simp [Stream.submit, h.buffers_length]
  · simp [Stream.submit, h.slotOf_length]
  · change (pool.idle ++ (s.buffers ++ [some index]).filterMap id).Perm _
    refine List.Perm.trans ?_ h.indices
    rw [hidle, List.filterMap_append]
    change (pool.idle ++ (s.buffers.filterMap id ++ [index])).Perm _
    rw [← List.append_assoc]
    exact List.perm_append_singleton index (pool.idle ++ s.buffers.filterMap id)
  · intro k i hk
    change (s.slotOf ++ [index])[k]? = some i
    cases getElem?_concat_cases hk with
    | inl hold => exact getElem?_concat_of_some (h.slotOf_eq k i hold) _
    | inr hnew =>
        rw [hnew.1, h.buffers_length, ← h.slotOf_length, List.getElem?_concat_length]
        exact congrArg some (Option.some.inj hnew.2).symm
  · intro i other hi
    change pool.slots[i]? = some (some other) at hi
    by_cases heq : i = index
    · subst heq
      cases hself other hi with
      | inl hnew =>
          rw [hnew]
          exact hfresh
      | inr hold => exact h.slot_length i other hold
    · rw [hother i heq] at hi
      exact h.slot_length i other hi
  · intro k i other hk hrequest
    change (s.buffers ++ [some index])[k]? = some (some i) at hk
    change ∃ slot, pool.slots[i]? = some (some slot) ∧ _
    have hbuffers := h.buffers_length
    cases getElem?_concat_cases hk with
    | inl hold =>
        have hlt := (List.getElem?_eq_some_iff.1 hold).1
        have hne : i ≠ index := fun heq => h.not_mem_idle hold (heq ▸ hmem)
        cases getElem?_requests_concat hrequest with
        | inl hrequest' =>
            rw [hother i hne]
            exact h.placed k i other hold hrequest'
        | inr hnew => omega
    | inr hnew =>
        cases getElem?_requests_concat hrequest with
        | inl hrequest' =>
            have hlt := (List.getElem?_eq_some_iff.1 hrequest').1
            omega
        | inr hnew' =>
            rw [hnew'.2, Option.some.inj hnew.2]
            exact ⟨slot, hslot, hplaced⟩
  · intro guard hguard
    change _ ∨ ∃ i, (s.slotOf ++ [index])[guard.1]? = some i ∧ (i, guard.2) ∈ pool.pending
    rw [hpending]
    cases h.guards guard hguard with
    | inl hdone => exact .inl hdone
    | inr hmem =>
        obtain ⟨i, hi, hstill⟩ := hmem
        exact .inr ⟨i, getElem?_concat_of_some hi _, hstill⟩
  · intro hdevice k hk
    change (s.buffers ++ [some index])[k]? = some none at hk
    cases getElem?_concat_cases hk with
    | inl hold => exact h.guarded hdevice k hold
    | inr hnew => cases hnew.2
  · intro entry hentry
    change entry ∈ pool.pending at hentry
    rw [hpending] at hentry
    exact h.events entry hentry

/-- The order of the ranges does not depend on what is submitted. -/
theorem OrderOk.submit {request : FilesRequest} {index : Nat} {rest : List Payload}
    (h : OrderOk files s) (hrest : s.control.payloads = rest) (iterator : FilesRequestsIterator)
    (pool : SlotPool) (allocated : Nat) :
    OrderOk files ({ s with iterator, pool, allocated }.submit request index rest) := by
  refine ⟨h.ordinals, h.unordered, h.parked_nodup, h.parked_keys, h.missing, fun hordered => ?_⟩
  have hready := h.ready hordered
  rw [hrest] at hready
  exact hready

/-- When nothing is left, the iterator may be anything that has nothing left. -/
theorem StreamOk.exhausted {rest : List Payload} (h : StreamOk ring files requests s)
    (hrest : s.control.payloads = rest) {iterator : FilesRequestsIterator}
    (hiterator : iterator.Ok) (hlimit : iterator.memoryLimit = ring.bufferSize)
    (hqueue : ∀ it ∈ iterator.q, it.file ∈ files)
    (hbefore : rangesLeft s.iterator.q = []) (hafter : rangesLeft iterator.q = []) :
    StreamOk ring files requests { s with iterator, control := .handing rest } := by
  have hcore := h.core
  have hcover := hcore.cover
  refine ⟨⟨hcore.requestsOk, hcore.parts, hqueue, hcore.nonempty, hiterator, hlimit, ?_,
    hcore.library_length, hcore.library_eq, ?_, ?_⟩, ?_, ?_, ?_, ?_⟩
  · rw [hbefore] at hcover
    change _ ++ rangesLeft iterator.q = _
    rw [hafter]
    exact hcover
  · have htickets := hcore.tickets
    unfold Stream.held at htickets ⊢
    rw [hrest] at htickets
    exact htickets
  · have hpayloads := hcore.payloads
    unfold Stream.held at hpayloads ⊢
    rw [hrest] at hpayloads
    exact hpayloads
  · exact ⟨h.count.live_nodup, h.count.live_iff, h.count.notYielded_iff, h.count.done_iff,
      h.count.outstanding_eq, h.count.buffers_iff⟩
  · exact ⟨h.pool.buffers_length, h.pool.slotOf_length, h.pool.indices, h.pool.slotOf_eq,
      h.pool.owned_eq, h.pool.slots_length, h.pool.slot_length, h.pool.placed, h.pool.guards,
      h.pool.guarded, h.pool.events, h.pool.completed_lt, h.pool.completed_nodup⟩
  · refine ⟨h.order.ordinals, h.order.unordered, h.order.parked_nodup, h.order.parked_keys,
      h.order.missing, fun hordered => ?_⟩
    have hready := h.order.ready hordered
    rw [hrest] at hready
    exact hready
  · exact fun hne => absurd hafter hne

/-- What is submitted when the next request is built. -/
structure Submits (ring : Ring) (files : List FileChunks) (s : Stream) (request : FilesRequest)
    (index : Nat) (slot : Slot) (iterator : FilesRequestsIterator) (pool : SlotPool) : Prop where
  requestOk : RequestOk request
  parts : ∀ part ∈ request.files, PartOf files part
  queue : ∀ it ∈ iterator.q, it.file ∈ files
  nonempty : 0 < request.numRanges
  iteratorOk : iterator.Ok
  limit_eq : iterator.memoryLimit = ring.bufferSize
  cover : request.located ++ rangesLeft iterator.q = rangesLeft s.iterator.q
  takes : (s.pool.sweepPending s.completed).takeFresh ⟨ring.alloc s.allocated, ring.slotSize⟩ =
    some (index, pool)
  slot_eq : pool.slots[index]? = some (some slot)
  placed : Placed slot request

/-- A sweep before the next request is built changes nothing that matters. -/
theorem StreamOk.swept {rest : List Payload} (h : StreamOk ring files requests s)
    (hcontrol : s.control = .building rest) :
    StreamOk ring files requests { s with pool := s.pool.sweepPending s.completed } := by
  have hwhere := h.control
  unfold ControlOk at hwhere
  rw [hcontrol] at hwhere
  have hkeep := (sweepPending_spec s.pool s.completed).2.2.2.2.2
  refine h.same ⟨rfl, rfl, rfl, rfl, rfl, rfl, rfl, rfl, rfl, rfl⟩ (h.pool.sweep s.control) ?_
  unfold ControlOk
  rw [hcontrol]
  exact hkeep hwhere

/-- The next request is submitted, or nothing is left. -/
theorem StreamOk.building_cases {rest : List Payload} (h : StreamOk ring files requests s)
    (hsizes : ∀ range ∈ allRanges files, range.size ≤ ring.bufferSize)
    (hcontrol : s.control = .building rest) :
    (∃ iterator : FilesRequestsIterator, iterator.Ok ∧ iterator.memoryLimit = ring.bufferSize ∧
      (∀ it ∈ iterator.q, it.file ∈ files) ∧ rangesLeft s.iterator.q = [] ∧ rangesLeft iterator.q = [] ∧
      s.building ring rest = { s with pool := s.pool.sweepPending s.completed, iterator,
                                      control := .handing rest }) ∨
    ∃ request index slot iterator pool, Submits ring files s request index slot iterator pool ∧
      s.building ring rest =
        { s with iterator, pool, allocated := s.allocated + 1 }.submit request index rest := by
  have hswept := h.swept hcontrol
  have hfree : (s.pool.sweepPending s.completed).free ≠ [] := by
    have hwhere := hswept.control
    unfold ControlOk at hwhere
    rw [hcontrol] at hwhere
    exact hwhere
  have hleft : ∀ range ∈ rangesLeft s.iterator.q, range.size ≤ s.iterator.memoryLimit := by
    intro range hrange
    rw [h.core.limit_eq]
    apply hsizes range
    rw [← h.core.cover]
    exact List.mem_append_right _ hrange
  obtain ⟨hiterator, hlimit, hnext⟩ := nextRequest_spec h.core.iteratorOk hleft
  obtain ⟨hparts, hqueue⟩ := nextRequest_parts h.core.queue
  rw [h.core.limit_eq] at hlimit
  have hpos : decide (0 < (s.pool.sweepPending s.completed).free.length) = true := by
    simpa using List.length_pos_iff.2 hfree
  unfold Stream.building SlotPool.hasFree
  simp only [hpos, Bool.true_eq_false, if_false]
  cases hrequest : s.iterator.nextRequest.1 with
  | none =>
      rw [hrequest] at hnext
      exact .inl ⟨_, hiterator, hlimit, hqueue, hnext.1, hnext.2, rfl⟩
  | some request =>
      rw [hrequest] at hnext
      obtain ⟨hok, hnonempty, hcover, hfits⟩ := hnext
      rw [h.core.limit_eq] at hfits
      have hranges : 0 < request.numRanges := by
        rw [← length_located hok]
        exact List.length_pos_iff.2 hnonempty
      obtain ⟨index, free, hindex⟩ := List.exists_cons_of_ne_nil hfree
      obtain ⟨pool, htake⟩ : ∃ pool, (s.pool.sweepPending s.completed).takeFresh
          ⟨ring.alloc s.allocated, ring.slotSize⟩ = some (index, pool) := by
        rw [takeFresh_cons _ hindex]
        exact ⟨_, rfl⟩
      obtain ⟨-, -, -, hlength, -, hself, hexists⟩ := take_spec htake
      have hlt : index < (s.pool.sweepPending s.completed).slots.length := by
        rw [hswept.pool.slots_length]
        apply hswept.pool.index_lt
        apply List.mem_append_left
        change index ∈ (s.pool.sweepPending s.completed).free ++ _
        rw [hindex]
        exact List.mem_append_left _ List.mem_cons_self
      obtain ⟨slot, hslot⟩ := hexists hlt
      have hslotLength : slot.length = ring.slotSize := by
        cases hself slot hslot with
        | inl hfresh => rw [hfresh]
        | inr hold => exact hswept.pool.slot_length index slot hold
      have hget : pool.slot index = .ok slot := by
        unfold SlotPool.slot
        rw [List.getD_eq_getElem?_getD, hslot]
        rfl
      obtain ⟨dsts, hdsts, hplaced⟩ := destinations_spec ring hok hfits slot.address
      rw [← hslotLength] at hplaced
      have hok' : RequestOk { request with rangeDsts := dsts } :=
        ⟨hok.rangeBase_length, hok.fileBase_eq, hok.fileBase_length, hok.numRanges_eq,
          hok.nonempty⟩
      simp only [htake, hget, hdsts]
      exact .inr ⟨{ request with rangeDsts := dsts }, index, slot, _, pool,
        ⟨hok', hparts request hrequest, hqueue, hranges, hiterator, hlimit, hcover, htake, hslot,
          hplaced⟩, rfl⟩

/-- The next request is built and submitted, or nothing is left. -/
theorem StreamOk.building {rest : List Payload} (h : StreamOk ring files requests s)
    (hsizes : ∀ range ∈ allRanges files, range.size ≤ ring.bufferSize)
    (hcontrol : s.control = .building rest) :
    ∃ requests', StreamOk ring files requests' (s.building ring rest) := by
  have hpayloads : s.control.payloads = rest := by rw [hcontrol]; rfl
  have hswept := h.swept hcontrol
  cases h.building_cases hsizes hcontrol with
  | inl hnone =>
      obtain ⟨iterator, hiterator, hlimit, hqueue, hbefore, hafter, hbuilt⟩ := hnone
      rw [hbuilt]
      exact ⟨requests, hswept.exhausted hpayloads hiterator hlimit hqueue hbefore hafter⟩
  | inr hsome =>
      obtain ⟨request, index, slot, iterator, pool, hsubmits, hbuilt⟩ := hsome
      rw [hbuilt]
      refine ⟨requests ++ [request], ?_, ?_, ?_, ?_, ?_⟩
      · exact hswept.core.submit hpayloads hsubmits.iteratorOk hsubmits.limit_eq
          hsubmits.requestOk hsubmits.parts hsubmits.queue hsubmits.nonempty hsubmits.cover pool _
      · exact hswept.count.submit hswept.core hswept.pool.buffers_length hsubmits.requestOk
          hsubmits.nonempty _ pool _
      · exact hswept.pool.submit rfl hsubmits.takes hsubmits.slot_eq hsubmits.placed _ _
      · exact hswept.order.submit hpayloads _ pool _
      · refine .inr ?_
        change 0 < s.outstanding + (request.numRanges : Int)
        have hcount := h.count.outstanding_eq
        have hranges := hsubmits.nonempty
        omega

end Submit

end FileStreamer
end ModelStreamer
