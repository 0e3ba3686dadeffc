import ModelStreamer.FileStreamer.RingSpec
import ModelStreamer.Lib.Counting
import ModelStreamer.Lib.Tagged

/-!
# What the steps of the pipeline keep

Every range that was submitted is in one place: unanswered at the library, parked, ready, in the
hands of the consumer, or consumed.  The invariants below say so, and say how the tables of the
stream, the slots of the ring and the order of the yields agree with it.
-/

namespace ModelStreamer
namespace FileStreamer

open Distributed Lib

/-! ## Tickets -/

/-- The response that a payload came with. -/
def Payload.ticket (payload : Payload) : Nat × Nat × Nat :=
  (payload.submission, payload.fileIndex, payload.localIndex)

/-- The responses that the library owes for the requests. -/
def ticketsOf (requests : List FilesRequest) : List (Nat × Nat × Nat) :=
  tagged (fun request : FilesRequest => rangeNames request.counts) requests

/-- The responses that the library still owes. -/
def unansweredOf (library : List Submission) : List (Nat × Nat × Nat) :=
  tagged Submission.unanswered library

/-- The payloads that are to be handed over. -/
def Control.payloads : Control → List Payload
  | .submitting rest => rest
  | .synchronizing _ rest => rest
  | .building rest => rest
  | .handing rest => rest
  | .yielded payload rest => payload :: rest
  | _ => []

/-- The payloads that were received and not consumed. -/
def Stream.held (s : Stream) : List Payload :=
  parkedPayloads s.order.parked ++ s.control.payloads

/-- The number of ranges of a submission that the consumer is done with. -/
def Stream.handedOver (s : Stream) (k : Nat) : Nat :=
  s.consumed.countP fun payload => payload.submission = k

/-- What a response is about. -/
def ticketInfo (requests : List FilesRequest) (ticket : Nat × Nat × Nat) : RangeInfo :=
  ((requests[ticket.1]?).map fun request => request.info ticket.2).getD ⟨0, 0, 0, 0⟩

/-- The responses are about the ranges of the requests, in order. -/
theorem map_ticketInfo {requests : List FilesRequest} (h : ∀ request ∈ requests, RequestOk request) :
    (ticketsOf requests).map (ticketInfo requests) = requests.flatMap FilesRequest.located := by
  induction requests using List.reverseRecOn with
  | nil => rfl
  | append_singleton requests request ih =>
      have hlast := h request (by simp)
      have hinit := ih fun other hother => h other (by simp [hother])
      rw [ticketsOf, tagged_concat, List.map_append, List.flatMap_append, ← hinit, List.map_map]
      congr 1
      · apply List.map_congr_left
        intro ticket hticket
        obtain ⟨other, hother, -⟩ := mem_tagged.1 hticket
        have hlt := (List.getElem?_eq_some_iff.1 hother).1
        simp [ticketInfo, List.getElem?_append_left hlt]
      · rw [List.flatMap_singleton, ← map_info_rangeNames hlast]
        apply List.map_congr_left
        intro name _
        simp [ticketInfo]

/-! ## The invariants -/

/-- A payload is what the library wrote for its response. -/
structure PayloadOk (requests : List FilesRequest) (payload : Payload) : Prop where
  exists_request : ∃ request, requests[payload.submission]? = some request ∧
    (payload.fileIndex, payload.localIndex) ∈ rangeNames request.counts ∧
    payload.key = (request.info (payload.fileIndex, payload.localIndex)).key ∧
    ∃ dst, request.rangeDsts[request.flatIndex payload.fileIndex payload.localIndex]? = some dst ∧
      payload.view =
        ⟨dst, (request.info (payload.fileIndex, payload.localIndex)).size⟩

/-- Every range is left, owed by the library, held or consumed, and in one place only. -/
structure CoreOk (ring : Ring) (files : List FileChunks) (requests : List FilesRequest)
    (s : Stream) : Prop where
  requestsOk : ∀ request ∈ requests, RequestOk request
  parts : ∀ request ∈ requests, ∀ part ∈ request.files, PartOf files part
  queue : ∀ it ∈ s.iterator.q, it.file ∈ files
  nonempty : ∀ request ∈ requests, 0 < request.numRanges
  iteratorOk : s.iterator.Ok
  limit_eq : s.iterator.memoryLimit = ring.bufferSize
  cover : requests.flatMap FilesRequest.located ++ rangesLeft s.iterator.q = allRanges files
  library_length : s.library.length = requests.length
  library_eq : ∀ (k : Nat) (request : FilesRequest), requests[k]? = some request →
    ∃ unanswered, s.library[k]? = some { request.submission with unanswered }
  tickets : (unansweredOf s.library ++ (s.held ++ s.consumed).map Payload.ticket).Perm
    (ticketsOf requests)
  payloads : ∀ payload ∈ s.held ++ s.consumed, PayloadOk requests payload

/-- A submission has ranges that were not handed over. -/
def IsLive (requests : List FilesRequest) (s : Stream) (k : Nat) : Prop :=
  ∃ request, requests[k]? = some request ∧ s.handedOver k < request.numRanges

/-- The tables of the stream agree with what was handed over. -/
structure CountOk (requests : List FilesRequest) (s : Stream) : Prop where
  live_nodup : s.live.keys.Nodup
  live_iff : ∀ (k : Nat) (request : FilesRequest), s.live.lookup k = some request ↔
    requests[k]? = some request ∧ s.handedOver k < request.numRanges
  notYielded_iff : ∀ k n : Nat, s.rangesNotYielded.lookup k = some n ↔
    ∃ request, requests[k]? = some request ∧ s.handedOver k < request.numRanges ∧
      n + s.handedOver k = request.numRanges
  done_iff : ∀ k : Nat, k ∈ s.reportedDone ↔ IsLive requests s k ∧
    ∃ given, s.library[k]? = some given ∧ given.unanswered = []
  outstanding_eq : s.outstanding = (unansweredOf s.library).length
  buffers_iff : ∀ k : Nat, (∃ i, s.buffers[k]? = some (some i)) ↔ IsLive requests s k

/-- The slots of the ring are free, pending or under a live request. -/
structure PoolOk (ring : Ring) (requests : List FilesRequest) (s : Stream) : Prop where
  buffers_length : s.buffers.length = requests.length
  slotOf_length : s.slotOf.length = requests.length
  indices : (s.pool.idle ++ s.buffers.filterMap id).Perm (List.range ring.numBuffers)
  slotOf_eq : ∀ k i : Nat, s.buffers[k]? = some (some i) → s.slotOf[k]? = some i
  owned_eq : s.pool.owned = ring.kind.owned
  slots_length : s.pool.slots.length = ring.numBuffers
  slot_length : ∀ (i : Nat) (slot : Slot), s.pool.slots[i]? = some (some slot) →
    slot.length = ring.slotSize
  placed : ∀ (k i : Nat) (request : FilesRequest), s.buffers[k]? = some (some i) →
    requests[k]? = some request →
    ∃ slot, s.pool.slots[i]? = some (some slot) ∧ Placed slot request
  guards : ∀ guard ∈ s.guards, guard.2 ∈ s.completed ∨
    ∃ i, s.slotOf[guard.1]? = some i ∧ (i, guard.2) ∈ s.pool.pending
  guarded : ring.kind.reuseNeedsEvent = true → ∀ k : Nat, s.buffers[k]? = some none →
    ∃ event, (k, event) ∈ s.guards
  events : ∀ entry ∈ s.pool.pending, entry.2 < s.events
  completed_lt : ∀ event ∈ s.completed, event < s.events
  completed_nodup : s.completed.Nodup

/-- The keys of the ranges of the files, in list order. -/
def allKeys (files : List FileChunks) : List (Int × Nat) :=
  (allRanges files).map RangeInfo.key

/-- What was handed over and what is ready are the first ranges, in order. -/
structure OrderOk (files : List FileChunks) (s : Stream) : Prop where
  ordinals : ∀ (k : Nat) (key : Int × Nat), (allKeys files)[k]? = some key →
    ordinalOf s.order.firstOrdinal key = some k
  unordered : s.order.ordered = false → s.order.parked = []
  parked_nodup : s.order.parked.keys.Nodup
  parked_keys : ∀ entry ∈ s.order.parked, (allKeys files)[entry.1]? = some entry.2.key
  missing : s.order.ordered = true → s.order.next ∉ s.order.parked.keys
  ready : s.order.ordered = true →
    (s.consumed ++ s.control.payloads).map Payload.key = (allKeys files).take s.order.next ∧
      s.order.next = (s.consumed ++ s.control.payloads).length

/-- What holds where the stream is. -/
def ControlOk (s : Stream) : Prop :=
  match s.control with
  | .submitting _ => s.pool.idle ≠ [] ∨ 0 < s.outstanding
  | .synchronizing event _ => ∃ index pending, s.pool.pending = (index, event) :: pending
  | .building _ => s.pool.free ≠ []
  | .handing _ => rangesLeft s.iterator.q ≠ [] → s.live ≠ []
  | .yielded _ _ => rangesLeft s.iterator.q ≠ [] → s.live ≠ []
  | .receiving => s.live ≠ []
  | .ended => s.live = [] ∧ rangesLeft s.iterator.q = []
  | .failed _ => False

/-- The invariant of the pipeline. -/
structure StreamOk (ring : Ring) (files : List FileChunks) (requests : List FilesRequest)
    (s : Stream) : Prop where
  core : CoreOk ring files requests s
  count : CountOk requests s
  pool : PoolOk ring requests s
  order : OrderOk files s
  control : ControlOk s

/-! ## What follows from the invariants -/

section Consequences

variable {ring : Ring} {files : List FileChunks} {requests : List FilesRequest} {s : Stream}

/-- A range has one ordinal. -/
theorem OrderOk.nodup_allKeys (h : OrderOk files s) : (allKeys files).Nodup := by
  rw [List.nodup_iff_injective_getElem]
  intro i j hij
  have hi := h.ordinals i.1 (allKeys files)[i.1] (List.getElem?_eq_getElem i.2)
  have hj := h.ordinals j.1 (allKeys files)[j.1] (List.getElem?_eq_getElem j.2)
  simp only at hij
  rw [hij, hj] at hi
  exact Fin.ext (Option.some.inj hi).symm

/-- The keys of the responses are the first keys of the files. -/
theorem CoreOk.map_key_tickets (h : CoreOk ring files requests s) :
    (ticketsOf requests).map (fun ticket => (ticketInfo requests ticket).key) ++
      (rangesLeft s.iterator.q).map RangeInfo.key = allKeys files := by
  have hinfo := map_ticketInfo h.requestsOk
  rw [allKeys, ← h.cover, List.map_append, ← hinfo, List.map_map]
  rfl

/-- The responses are distinct, and so are their keys. -/
theorem CoreOk.nodup_keys (h : CoreOk ring files requests s) (horder : OrderOk files s) :
    ((ticketsOf requests).map fun ticket => (ticketInfo requests ticket).key).Nodup := by
  have hall := horder.nodup_allKeys
  rw [← h.map_key_tickets, List.nodup_append'] at hall
  exact hall.1

/-- A payload has the key of its response. -/
theorem PayloadOk.key_eq {payload : Payload} (h : PayloadOk requests payload) :
    payload.key = (ticketInfo requests payload.ticket).key := by
  obtain ⟨request, hrequest, -, hkey, -⟩ := h.exists_request
  simp only [ticketInfo, Payload.ticket, hrequest, Option.map_some, Option.getD_some]
  exact hkey

/-- Every range of a submission is owed, held or handed over. -/
theorem CoreOk.count_eq (h : CoreOk ring files requests s) {k : Nat} {request : FilesRequest}
    {given : Submission} (hrequest : requests[k]? = some request)
    (hgiven : s.library[k]? = some given) :
    given.unanswered.length + s.held.countP (fun payload => payload.submission = k) +
      s.handedOver k = request.numRanges := by
  have hcount := h.tickets.countP_eq fun ticket => ticket.1 = k
  have hok := h.requestsOk request (List.mem_of_getElem? hrequest)
  rw [List.countP_append, unansweredOf, countP_tagged, ticketsOf, countP_tagged, hgiven,
    hrequest, List.countP_map, List.countP_append] at hcount
  simp only [Option.map_some, Option.getD_some, length_rangeNames hok] at hcount
  change given.unanswered.length + (s.held.countP (fun payload => payload.submission = k) +
    s.handedOver k) = _ at hcount
  omega

/-- The library knows of every request. -/
theorem CoreOk.exists_given (h : CoreOk ring files requests s) {k : Nat}
    {request : FilesRequest} (hrequest : requests[k]? = some request) :
    ∃ given, s.library[k]? = some given := by
  obtain ⟨unanswered, hgiven⟩ := h.library_eq k request hrequest
  exact ⟨_, hgiven⟩

/-- A submission that is owed a response is live. -/
theorem CoreOk.isLive_of_unanswered (h : CoreOk ring files requests s) {k : Nat}
    {given : Submission} (hgiven : s.library[k]? = some given) (hne : given.unanswered ≠ []) :
    IsLive requests s k := by
  have hlt : k < requests.length := by
    rw [← h.library_length]
    exact (List.getElem?_eq_some_iff.1 hgiven).1
  have hcount := h.count_eq (List.getElem?_eq_getElem hlt) hgiven
  have hpos : 0 < given.unanswered.length := List.length_pos_iff.2 hne
  exact ⟨requests[k], List.getElem?_eq_getElem hlt, by omega⟩

/-- A submission with a payload that is held is live. -/
theorem CoreOk.isLive_of_held (h : CoreOk ring files requests s) {payload : Payload}
    (hheld : payload ∈ s.held) : IsLive requests s payload.submission := by
  have hok := h.payloads payload (List.mem_append_left _ hheld)
  obtain ⟨request, hrequest, -⟩ := hok.exists_request
  obtain ⟨given, hgiven⟩ := h.exists_given hrequest
  have hcount := h.count_eq hrequest hgiven
  have hpos : 0 < s.held.countP fun other => other.submission = payload.submission :=
    List.countP_pos_iff.2 ⟨payload, hheld, by simp⟩
  exact ⟨request, hrequest, by omega⟩

/-- There is a live submission exactly if the table of live requests is not empty. -/
theorem CountOk.live_ne_nil (h : CountOk requests s) {k : Nat} (hlive : IsLive requests s k) :
    s.live ≠ [] := by
  obtain ⟨request, hrequest, hlt⟩ := hlive
  have hlookup := (h.live_iff k request).2 ⟨hrequest, hlt⟩
  intro hnil
  rw [hnil] at hlookup
  cases hlookup

/-- The slots that are idle and the slots that are in use are distinct. -/
theorem PoolOk.nodup (h : PoolOk ring requests s) :
    (s.pool.idle ++ s.buffers.filterMap id).Nodup :=
  h.indices.nodup_iff.2 List.nodup_range

end Consequences

/-! ## Steps that move no range -/

section Moves

variable {ring : Ring} {files : List FileChunks} {requests : List FilesRequest} {s s' : Stream}

/-- A step that moves no range. -/
structure SameRanges (s s' : Stream) : Prop where
  iterator : s'.iterator = s.iterator
  library : s'.library = s.library
  order : s'.order = s.order
  payloads : s'.control.payloads = s.control.payloads
  consumed : s'.consumed = s.consumed
  live : s'.live = s.live
  notYielded : s'.rangesNotYielded = s.rangesNotYielded
  reportedDone : s'.reportedDone = s.reportedDone
  outstanding : s'.outstanding = s.outstanding
  buffers : s'.buffers = s.buffers

/-- The ranges stay where they are. -/
theorem CoreOk.same (h : CoreOk ring files requests s) (hsame : SameRanges s s') :
    CoreOk ring files requests s' := by
  have hheld : s'.held = s.held := by
    unfold Stream.held
    rw [hsame.order, hsame.payloads]
  refine ⟨h.requestsOk, h.parts, ?_, h.nonempty, ?_, ?_, ?_, ?_, ?_, ?_, ?_⟩
  · rw [hsame.iterator]
    exact h.queue
  · rw [hsame.iterator]
    exact h.iteratorOk
  · rw [hsame.iterator]
    exact h.limit_eq
  · rw [hsame.iterator]
    exact h.cover
  · rw [hsame.library]
    exact h.library_length
  · rw [hsame.library]
    exact h.library_eq
  · rw [hsame.library, hheld, hsame.consumed]
    exact h.tickets
  · rw [hheld, hsame.consumed]
    exact h.payloads

/-- The tables stay as they are. -/
theorem CountOk.same (h : CountOk requests s) (hsame : SameRanges s s') :
    CountOk requests s' := by
  have hover : ∀ k, s'.handedOver k = s.handedOver k := by
    intro k
    unfold Stream.handedOver
    rw [hsame.consumed]
  have hlive : ∀ k, IsLive requests s' k ↔ IsLive requests s k := by
    intro k
    unfold IsLive
    rw [hover]
  refine ⟨?_, ?_, ?_, ?_, ?_, ?_⟩
  · rw [hsame.live]
    exact h.live_nodup
  · intro k request
    rw [hsame.live, hover]
    exact h.live_iff k request
  · intro k n
    rw [hsame.notYielded, hover]
    exact h.notYielded_iff k n
  · intro k
    rw [hsame.reportedDone, hlive, hsame.library]
    exact h.done_iff k
  · rw [hsame.outstanding, hsame.library]
    exact h.outstanding_eq
  · intro k
    rw [hsame.buffers, hlive]
    exact h.buffers_iff k

/-- The order stays as it is. -/
theorem OrderOk.same (h : OrderOk files s) (hsame : SameRanges s s') : OrderOk files s' := by
  refine ⟨?_, ?_, ?_, ?_, ?_, ?_⟩
  · rw [hsame.order]
    exact h.ordinals
  · rw [hsame.order]
    exact h.unordered
  · rw [hsame.order]
    exact h.parked_nodup
  · rw [hsame.order]
    exact h.parked_keys
  · rw [hsame.order]
    exact h.missing
  · rw [hsame.order, hsame.payloads, hsame.consumed]
    exact h.ready

/-- A sweep keeps the pool in order. -/
theorem PoolOk.sweep (h : PoolOk ring requests s) (control : Control) :
    PoolOk ring requests
      { s with pool := s.pool.sweepPending s.completed, control := control } := by
  obtain ⟨hidle, hslots, howned, hpending, hkept, -⟩ := sweepPending_spec s.pool s.completed
  refine ⟨h.buffers_length, h.slotOf_length, ?_, h.slotOf_eq, ?_, ?_, ?_, ?_, ?_, h.guarded, ?_,
    h.completed_lt, h.completed_nodup⟩
  · change ((s.pool.sweepPending s.completed).idle ++ _).Perm _
    rw [hidle]
    exact h.indices
  · exact howned.trans h.owned_eq
  · change (s.pool.sweepPending s.completed).slots.length = _
    rw [hslots]
    exact h.slots_length
  · intro i slot hslot
    change (s.pool.sweepPending s.completed).slots[i]? = _ at hslot
    rw [hslots] at hslot
    exact h.slot_length i slot hslot
  · intro k i request hk hrequest
    change ∃ slot, (s.pool.sweepPending s.completed).slots[i]? = _ ∧ _
    rw [hslots]
    exact h.placed k i request hk hrequest
  · intro guard hguard
    cases h.guards guard hguard with
    | inl hdone => exact .inl hdone
    | inr hmem =>
        obtain ⟨i, hi, hpending⟩ := hmem
        cases hkept _ hpending with
        | inl hdone => exact .inl hdone
        | inr hstill => exact .inr ⟨i, hi, hstill⟩
  · intro entry hentry
    exact h.events entry (hpending entry hentry)

/-- The pool does not depend on where the stream is. -/
theorem PoolOk.move (h : PoolOk ring requests s) (control : Control) :
    PoolOk ring requests { s with control } :=
  ⟨h.buffers_length, h.slotOf_length, h.indices, h.slotOf_eq, h.owned_eq, h.slots_length,
    h.slot_length, h.placed, h.guards, h.guarded, h.events, h.completed_lt, h.completed_nodup⟩

/-- A step that moves no range keeps the invariant, if the pool and the control are in order. -/
theorem StreamOk.same (h : StreamOk ring files requests s) (hsame : SameRanges s s')
    (hpool : PoolOk ring requests s') (hcontrol : ControlOk s') :
    StreamOk ring files requests s' :=
  ⟨h.core.same hsame, h.count.same hsame, hpool, h.order.same hsame, hcontrol⟩

/-- A move of the control keeps the ranges. -/
theorem sameRanges_control {control : Control}
    (hpayloads : control.payloads = s.control.payloads) : SameRanges s { s with control } :=
  ⟨rfl, rfl, rfl, hpayloads, rfl, rfl, rfl, rfl, rfl, rfl⟩

/-- A sweep and a move of the control keep the ranges. -/
theorem sameRanges_sweep {control : Control}
    (hpayloads : control.payloads = s.control.payloads) :
    SameRanges s { s with pool := s.pool.sweepPending s.completed, control := control } :=
  ⟨rfl, rfl, rfl, hpayloads, rfl, rfl, rfl, rfl, rfl, rfl⟩

/-- The head of {lit}`_submit_while_buffers_free` keeps the invariant. -/
theorem StreamOk.submitting {rest : List Payload} (h : StreamOk ring files requests s)
    (hcontrol : s.control = .submitting rest) :
    StreamOk ring files requests (s.submitting rest) := by
  have hpayloads : s.control.payloads = rest := by rw [hcontrol]; rfl
  have hidle := (sweepPending_spec s.pool s.completed).1
  have hwhere := h.control
  unfold ControlOk at hwhere
  rw [hcontrol] at hwhere
  unfold Stream.submitting SlotPool.hasFree
  simp only [decide_eq_true_eq]
  split_ifs with hfree hout
  · refine h.same (sameRanges_sweep hpayloads.symm) (h.pool.sweep _) ?_
    exact List.length_pos_iff.1 hfree
  · refine h.same (sameRanges_sweep hpayloads.symm) (h.pool.sweep _) ?_
    -- a response that is owed belongs to a live submission
    intro _
    have hne : unansweredOf s.library ≠ [] := by
      intro hnil
      have heq := h.count.outstanding_eq
      rw [hnil] at heq
      simp only [List.length_nil] at heq
      change (0 : Int) < s.outstanding at hout
      omega
    obtain ⟨ticket, hticket⟩ := List.exists_mem_of_ne_nil _ hne
    obtain ⟨k, name⟩ := ticket
    obtain ⟨given, hgiven, hname⟩ := mem_tagged.1 hticket
    exact h.count.live_ne_nil (h.core.isLive_of_unanswered hgiven (List.ne_nil_of_mem hname))
  · have hpending : (s.pool.sweepPending s.completed).pending ≠ [] := by
      intro hnil
      have hnofree : (s.pool.sweepPending s.completed).free = [] := by
        simpa using hfree
      have hnone : (s.pool.sweepPending s.completed).idle = [] := by
        unfold SlotPool.idle
        rw [hnil, hnofree]
        rfl
      cases hwhere with
      | inl hne =>
          rw [hidle] at hnone
          exact hne hnone
      | inr hpos => exact hout hpos
    obtain ⟨entry, pending, hentry⟩ := List.exists_cons_of_ne_nil hpending
    simp only [hentry]
    refine h.same (sameRanges_sweep hpayloads.symm) (h.pool.sweep _) ?_
    exact ⟨entry.1, pending, hentry⟩

/-- When the oldest event has completed, a sweep frees a slot. -/
theorem free_of_completed {pool : SlotPool} {completed : List Nat} {index event : Nat}
    {pending : List (Nat × Nat)} (hpending : pool.pending = (index, event) :: pending)
    (hevent : event ∈ completed) : (pool.sweepPending completed).free ≠ [] := by
  obtain ⟨-, ⟨freed, hfreed, hfree, -⟩, hhead⟩ := sweep_spec completed pool.free pool.pending
  change (sweep completed pool.free pool.pending).1 ≠ []
  rw [hfree]
  intro hnil
  have hnone : freed = [] := List.map_eq_nil_iff.1 (List.append_eq_nil_iff.1 hnil).2
  rw [hnone, List.nil_append, hpending] at hfreed
  rw [← hpending] at hfreed
  apply hhead (index, event)
  · rw [← hfreed, hpending]
    rfl
  · exact hevent

/-- The wait for a slot ends with a free one. -/
theorem StreamOk.synchronized {event : Nat} {rest : List Payload}
    (h : StreamOk ring files requests s) (hcontrol : s.control = .synchronizing event rest)
    (hevent : event ∈ s.completed) :
    StreamOk ring files requests
      { s with pool := s.pool.sweepPending s.completed, control := .building rest } := by
  have hpayloads : s.control.payloads = rest := by rw [hcontrol]; rfl
  have hwhere := h.control
  unfold ControlOk at hwhere
  rw [hcontrol] at hwhere
  obtain ⟨index, pending, hpending⟩ := hwhere
  refine h.same (sameRanges_sweep hpayloads.symm) (h.pool.sweep _) ?_
  exact free_of_completed hpending hevent

/-- An event that completes changes nothing but the record of events. -/
theorem StreamOk.completes {event : Nat} (h : StreamOk ring files requests s)
    (hlt : event < s.events) (hnew : event ∉ s.completed) :
    StreamOk ring files requests { s with completed := s.completed ++ [event] } := by
  refine h.same ⟨rfl, rfl, rfl, rfl, rfl, rfl, rfl, rfl, rfl, rfl⟩ ?_ ?_
  · refine ⟨h.pool.buffers_length, h.pool.slotOf_length, h.pool.indices, h.pool.slotOf_eq,
      h.pool.owned_eq, h.pool.slots_length, h.pool.slot_length, h.pool.placed, ?_,
      h.pool.guarded, h.pool.events, ?_, ?_⟩
    · intro guard hguard
      cases h.pool.guards guard hguard with
      | inl hdone => exact .inl (List.mem_append_left _ hdone)
      | inr hpending => exact .inr hpending
    · intro other hother
      cases List.mem_append.1 hother with
      | inl hold => exact h.pool.completed_lt other hold
      | inr hsame =>
          rw [List.mem_singleton.1 hsame]
          exact hlt
    · exact List.nodup_append'.2 ⟨h.pool.completed_nodup, List.nodup_singleton _, by
        simpa using hnew⟩
  · have hwhere := h.control
    unfold ControlOk at hwhere ⊢
    exact hwhere

/-- The next range that is ready is yielded. -/
theorem StreamOk.yields {payload : Payload} {rest : List Payload}
    (h : StreamOk ring files requests s) (hcontrol : s.control = .handing (payload :: rest)) :
    StreamOk ring files requests { s with control := .yielded payload rest } := by
  have hwhere := h.control
  unfold ControlOk at hwhere
  rw [hcontrol] at hwhere
  exact h.same (sameRanges_control (by rw [hcontrol]; rfl)) (h.pool.move _) hwhere

/-- Without a live submission the stream has ended. -/
theorem StreamOk.ends (h : StreamOk ring files requests s) (hcontrol : s.control = .handing [])
    (hlive : s.live = []) : StreamOk ring files requests { s with control := .ended } := by
  have hwhere := h.control
  unfold ControlOk at hwhere
  rw [hcontrol] at hwhere
  refine h.same (sameRanges_control (by rw [hcontrol]; rfl)) (h.pool.move _) ⟨hlive, ?_⟩
  by_contra hne
  exact hwhere hne hlive

/-- With a live submission the stream waits for a response. -/
theorem StreamOk.waits (h : StreamOk ring files requests s) (hcontrol : s.control = .handing [])
    (hlive : s.live ≠ []) : StreamOk ring files requests { s with control := .receiving } :=
  h.same (sameRanges_control (by rw [hcontrol]; rfl)) (h.pool.move _) hlive

end Moves

end FileStreamer
end ModelStreamer
