import ModelStreamer.FileStreamer.PipelineSubmit

/-!
# Responses and yields

A response turns what the library owes into a payload, which is parked or made ready; the
consumer turns a payload into a range that was handed over, and the last range of a submission
gives its slot back.
-/

namespace ModelStreamer
namespace FileStreamer

open Distributed Lib

/-! ## Receiving a response -/

section Receive

variable {ring : Ring} {files : List FileChunks} {requests : List FilesRequest} {s s' : Stream}

/-- A part of a slot is where it was asked for. -/
theorem slice_eq {slot : Slot} {dst size : Nat} (hlow : slot.address ≤ dst)
    (hhigh : dst + size ≤ slot.address + slot.length) :
    slot.slice ((dst : Int) - slot.address) ((dst : Int) - slot.address + size) =
      ⟨dst, size⟩ := by
  have hfirst : sliceIndex slot.length ((dst : Int) - slot.address) = dst - slot.address := by
    unfold sliceIndex
    rw [if_neg (by omega)]
    omega
  have hlast : sliceIndex slot.length ((dst : Int) - slot.address + size) =
      dst - slot.address + size := by
    unfold sliceIndex
    rw [if_neg (by omega)]
    omega
  unfold Slot.slice
  rw [hfirst, hlast]
  simp only [Slot.mk.injEq]
  omega

/-- The payload of a response is the range that the library was given. -/
theorem payload_spec (hcore : CoreOk ring files requests s) (hcount : CountOk requests s)
    (hpool : PoolOk ring requests s) {k fileIndex rangeIndex : Nat} {request : FilesRequest}
    (hrequest : requests[k]? = some request) (hlive : IsLive requests s k)
    (hname : (fileIndex, rangeIndex) ∈ rangeNames request.counts) :
    ∃ payload, s.payload k request fileIndex rangeIndex = .ok payload ∧
      payload.ticket = (k, fileIndex, rangeIndex) ∧ PayloadOk requests payload := by
  obtain ⟨index, hindex⟩ := (hcount.buffers_iff k).2 hlive
  obtain ⟨slot, hslot, hlength, hplaces⟩ := hpool.placed k index request hindex hrequest
  have hok := hcore.requestsOk request (List.mem_of_getElem? hrequest)
  have hlocated := located_flatIndex hok hname
  have hlt : request.flatIndex fileIndex rangeIndex < request.rangeDsts.length := by
    have hbound := (List.getElem?_eq_some_iff.1 hlocated).1
    rw [length_located hok] at hbound
    rw [hlength]
    exact hbound
  have hdst := List.getElem?_eq_getElem hlt
  obtain ⟨hlow, hhigh⟩ := hplaces _ _ _ hdst hlocated
  have hgetD : request.rangeDsts.getD (request.flatIndex fileIndex rangeIndex) 0 =
      request.rangeDsts[request.flatIndex fileIndex rangeIndex] := by
    rw [List.getD_eq_getElem?_getD, hdst]
    rfl
  unfold Stream.payload
  rw [List.getD_eq_getElem?_getD, hindex]
  have hget : s.pool.slot index = .ok slot := by
    unfold SlotPool.slot
    rw [List.getD_eq_getElem?_getD, hslot]
    rfl
  simp only [Option.getD_some, hget]
  refine ⟨_, rfl, rfl, ⟨request, hrequest, hname, rfl, _, hdst, ?_⟩⟩
  simp only [hgetD]
  exact slice_eq hlow hhigh

/-- A response moves its range from the library to the stream. -/
theorem CoreOk.receive (h : CoreOk ring files requests s) {k : Nat} {name : Nat × Nat}
    {given : Submission} (hgiven : s.library[k]? = some given) (hname : name ∈ given.unanswered)
    {payload : Payload} (hticket : payload.ticket = (k, name))
    (hpayload : PayloadOk requests payload) (hiterator : s'.iterator = s.iterator)
    (hlibrary : s'.library = s.library.set k
      { given with unanswered := given.unanswered.erase name })
    (hheld : s'.held.Perm (payload :: s.held)) (hconsumed : s'.consumed = s.consumed) :
    CoreOk ring files requests s' := by
  refine ⟨h.requestsOk, h.parts, ?_, h.nonempty, ?_, ?_, ?_, ?_, ?_, ?_, ?_⟩
  · rw [hiterator]
    exact h.queue
  · rw [hiterator]
    exact h.iteratorOk
  · rw [hiterator]
    exact h.limit_eq
  · rw [hiterator]
    exact h.cover
  · rw [hlibrary, List.length_set]
    exact h.library_length
  · intro j request hrequest
    obtain ⟨unanswered, hj⟩ := h.library_eq j request hrequest
    rw [hlibrary, getElem?_set_of_some hgiven]
    split_ifs with heq
    · subst heq
      rw [hgiven] at hj
      exact ⟨given.unanswered.erase name, by rw [Option.some.inj hj]⟩
    · exact ⟨unanswered, hj⟩
  · have hlost := @tagged_set_perm _ _ Submission.unanswered k s.library given
      { given with unanswered := given.unanswered.erase name } name hgiven
      (List.perm_cons_erase hname)
    rw [hlibrary, hconsumed]
    refine List.Perm.trans ?_ h.tickets
    have hmoved : ((s'.held ++ s.consumed).map Payload.ticket).Perm
        ((k, name) :: (s.held ++ s.consumed).map Payload.ticket) := by
      rw [← hticket, ← List.map_cons, ← List.cons_append]
      exact (hheld.append_right _).map _
    refine (hmoved.append_left _).trans ?_
    refine List.perm_middle.trans ?_
    exact (hlost.append_right _).symm
  · intro other hother
    rw [hconsumed] at hother
    have hmem := (hheld.append_right s.consumed).mem_iff.1 hother
    rw [List.cons_append] at hmem
    cases List.mem_cons.1 hmem with
    | inl heq =>
        rw [heq]
        exact hpayload
    | inr hold => exact h.payloads other hold

/-- A response that arrives is taken from what the library owes. -/
theorem CountOk.receive (h : CountOk requests s) {k : Nat} {name : Nat × Nat}
    {given : Submission} (hgiven : s.library[k]? = some given) (hname : name ∈ given.unanswered)
    (hlive : IsLive requests s k) (hsameLive : s'.live = s.live)
    (hnotYielded : s'.rangesNotYielded = s.rangesNotYielded)
    (hbuffers : s'.buffers = s.buffers) (hconsumed : s'.consumed = s.consumed)
    (hlibrary : s'.library = s.library.set k
      { given with unanswered := given.unanswered.erase name })
    (hdone : s'.reportedDone = if given.unanswered.erase name = [] then s.reportedDone ++ [k]
      else s.reportedDone)
    (houtstanding : s'.outstanding = s.outstanding - 1) : CountOk requests s' := by
  have hover : ∀ j, s'.handedOver j = s.handedOver j := by
    intro j
    unfold Stream.handedOver
    rw [hconsumed]
  have hlive' : ∀ j, IsLive requests s' j ↔ IsLive requests s j := by
    intro j
    unfold IsLive
    rw [hover]
  refine ⟨?_, ?_, ?_, ?_, ?_, ?_⟩
  · rw [hsameLive]
    exact h.live_nodup
  · intro j request
    rw [hsameLive, hover]
    exact h.live_iff j request
  · intro j n
    rw [hnotYielded, hover]
    exact h.notYielded_iff j n
  · intro j
    have hnew : k ∉ s.reportedDone := by
      intro hmem
      obtain ⟨-, other, hother, hnone⟩ := (h.done_iff k).1 hmem
      rw [hgiven] at hother
      rw [← Option.some.inj hother] at hnone
      rw [hnone] at hname
      cases hname
    rw [hlive', hlibrary, hdone, getElem?_set_of_some hgiven]
    by_cases hj : j = k
    · subst hj
      rw [if_pos rfl]
      split_ifs with hnone
      · constructor
        · exact fun _ => ⟨hlive, _, rfl, hnone⟩
        · exact fun _ => by simp
      · constructor
        · exact fun hmem => absurd hmem hnew
        · intro ⟨_, other, hother, hempty⟩
          rw [← Option.some.inj hother] at hempty
          exact absurd hempty hnone
    · rw [if_neg hj, ← h.done_iff]
      split_ifs
      · simp [hj]
      · rfl
  · have hlost := (@tagged_set_perm _ _ Submission.unanswered k s.library given
      { given with unanswered := given.unanswered.erase name } name hgiven
      (List.perm_cons_erase hname)).length_eq
    have hcount := h.outstanding_eq
    rw [List.length_cons] at hlost
    rw [houtstanding, hlibrary]
    unfold unansweredOf at hcount ⊢
    omega
  · intro j
    rw [hbuffers, hlive']
    exact h.buffers_iff j

/-- The run that is handed over goes on where the yields stopped. -/
theorem map_key_ready {next : Nat} {parked : Table Payload} {ready : List Payload}
    (hparked : ∀ entry ∈ parked, (allKeys files)[entry.1]? = some entry.2.key)
    (hrun : ∀ (i : Nat) (payload : Payload), ready[i]? = some payload →
      (next + i, payload) ∈ parked) :
    ready.map Payload.key = ((allKeys files).drop next).take ready.length := by
  apply List.ext_getElem?
  intro i
  rw [List.getElem?_map]
  by_cases hi : i < ready.length
  · have hget := List.getElem?_eq_getElem hi
    have hkey := hparked _ (hrun i _ hget)
    rw [hget, List.getElem?_take_of_lt hi, List.getElem?_drop, hkey]
    rfl
  · have hge : ready.length ≤ i := by omega
    rw [List.getElem?_eq_none hge, List.getElem?_take_eq_none hge]
    rfl

/-- A payload that arrives is parked, or it completes a run that is ready. -/
theorem arrived_spec (h : OrderOk files s) (hcontrol : s.control.payloads = [])
    {payload : Payload} {o : Nat} (hkey : (allKeys files)[o]? = some payload.key)
    (hnew : o ∉ s.order.parked.keys) :
    ∃ ready order, s.order.arrived payload = .ok (ready, order) ∧
      (parkedPayloads order.parked ++ ready).Perm
        (payload :: parkedPayloads s.order.parked) ∧
      OrderOk files { s with order, control := .handing ready } := by
  unfold YieldOrder.arrived
  cases hmode : s.order.ordered with
  | false =>
      have hnone := h.unordered hmode
      refine ⟨[payload], s.order, by simp, ?_, ?_⟩
      · rw [hnone]
        exact List.Perm.refl _
      · refine ⟨h.ordinals, h.unordered, h.parked_nodup, h.parked_keys, h.missing, ?_⟩
        intro hordered
        change s.order.ordered = true at hordered
        rw [hmode] at hordered
        cases hordered
  | true =>
      have hordinal : s.order.ordinal payload.fileId payload.rangeIndex = .ok o := by
        have hfound := h.ordinals o payload.key hkey
        unfold ordinalOf at hfound
        obtain ⟨first, hfirst, hsum⟩ := Option.map_eq_some_iff.1 hfound
        unfold YieldOrder.ordinal
        rw [show s.order.firstOrdinal.lookup payload.fileId = some first from hfirst]
        exact congrArg Except.ok hsum
      have hkeys := Table.nodup_keys_concat h.parked_nodup hnew payload
      have htakes := @takeReady_spec (s.order.parked ++ [(o, payload)]).length s.order.next
        (s.order.parked ++ [(o, payload)]) hkeys (le_refl _)
      have hentries : ∀ entry ∈ s.order.parked ++ [(o, payload)],
          (allKeys files)[entry.1]? = some entry.2.key := by
        intro entry hentry
        cases List.mem_append.1 hentry with
        | inl hold => exact h.parked_keys entry hold
        | inr hsame =>
            rw [List.mem_singleton.1 hsame]
            exact hkey
      obtain ⟨hconsumed, hnext⟩ := h.ready hmode
      rw [hcontrol, List.append_nil] at hconsumed hnext
      simp only [if_true, hordinal, Table.remove_eq_self hnew]
      generalize takeReady (s.order.parked ++ [(o, payload)]).length s.order.next
        (s.order.parked ++ [(o, payload)]) = result at htakes ⊢
      obtain ⟨ready, next, parked⟩ := result
      refine ⟨ready, _, rfl, ?_, ?_⟩
      · refine List.perm_append_comm.trans (htakes.perm.trans ?_)
        unfold parkedPayloads
        rw [List.map_append, List.map_singleton]
        exact List.perm_append_singleton _ _
      · refine ⟨h.ordinals, ?_, htakes.keys_nodup, ?_, fun _ => htakes.missing, fun _ => ?_⟩
        · intro hunordered
          cases hunordered
        · exact fun entry hentry => hentries entry (htakes.kept entry hentry)
        · have hready := map_key_ready hentries htakes.run
          have hlast := htakes.next_eq
          simp only at hready hlast
          change (s.consumed ++ ready).map Payload.key = (allKeys files).take next ∧
            next = (s.consumed ++ ready).length
          rw [hlast, List.take_add, List.map_append, hconsumed, hready, List.length_append, hnext]
          exact ⟨rfl, rfl⟩

/-- A response that the library owes has an ordinal that is not parked. -/
theorem StreamOk.exists_ordinal (h : StreamOk ring files requests s) {k : Nat}
    {name : Nat × Nat} (howed : (k, name) ∈ unansweredOf s.library) {payload : Payload}
    (hticket : payload.ticket = (k, name)) (hpayload : PayloadOk requests payload) :
    ∃ o, (allKeys files)[o]? = some payload.key ∧ o ∉ s.order.parked.keys := by
  have hmem : (k, name) ∈ ticketsOf requests :=
    h.core.tickets.mem_iff.1 (List.mem_append_left _ howed)
  have hkey := hpayload.key_eq
  have hin : payload.key ∈ allKeys files := by
    rw [← h.core.map_key_tickets, hkey, hticket]
    exact List.mem_append_left _ (List.mem_map.2 ⟨_, hmem, rfl⟩)
  obtain ⟨o, ho⟩ := List.mem_iff_getElem?.1 hin
  refine ⟨o, ho, fun hparked => ?_⟩
  obtain ⟨other, hother⟩ := Table.mem_keys_iff.1 hparked
  have hentry := Table.mem_of_lookup hother
  have hotherKey := h.order.parked_keys _ hentry
  rw [ho] at hotherKey
  have hsame : payload.key = other.key := Option.some.inj hotherKey
  have hheld : other ∈ s.held ++ s.consumed :=
    List.mem_append_left _ (List.mem_append_left _ (List.mem_map.2 ⟨_, hentry, rfl⟩))
  -- the two tickets have one key, so they are one ticket, which is owed and held at once
  have hnodup := h.core.nodup_keys h.order
  have hkeys := List.inj_on_of_nodup_map hnodup
  have hotherTicket : other.ticket ∈ ticketsOf requests :=
    h.core.tickets.mem_iff.1 (List.mem_append_right _ (List.mem_map.2 ⟨other, hheld, rfl⟩))
  rw [hkey, (h.core.payloads other hheld).key_eq, hticket] at hsame
  have hticketEq := hkeys hmem hotherTicket hsame
  have hdistinct := h.core.tickets.nodup_iff.2 (List.Nodup.of_map _ hnodup)
  have hdisjoint := (List.nodup_append'.1 hdistinct).2.2
  apply hdisjoint howed
  rw [hticketEq]
  exact List.mem_map.2 ⟨other, hheld, rfl⟩

/-- A response is received, and what is ready is to be handed over. -/
theorem StreamOk.arrive (h : StreamOk ring files requests s) (hcontrol : s.control = .receiving)
    {k : Nat} {name : Nat × Nat} {given : Submission} (hgiven : s.library[k]? = some given)
    (hname : name ∈ given.unanswered) {payload : Payload} (hticket : payload.ticket = (k, name))
    (hpayload : PayloadOk requests payload) {ready : List Payload} {order : YieldOrder}
    (harrived : s.order.arrived payload = .ok (ready, order)) {reportedDone : List Nat}
    (hdone : reportedDone = if given.unanswered.erase name = [] then s.reportedDone ++ [k]
      else s.reportedDone) :
    StreamOk ring files requests
      { s with
        outstanding := s.outstanding - 1
        reportedDone
        order
        control := .handing ready
        library := s.library.set k
          { given with unanswered := given.unanswered.erase name } } := by
  have hlive := h.core.isLive_of_unanswered hgiven (List.ne_nil_of_mem hname)
  have hpayloads : s.control.payloads = [] := by rw [hcontrol]; rfl
  have howed : (k, name) ∈ unansweredOf s.library := mem_tagged.2 ⟨given, hgiven, hname⟩
  obtain ⟨o, ho, hnew⟩ := h.exists_ordinal howed hticket hpayload
  obtain ⟨ready', order', harrived', hperm, horder⟩ := arrived_spec h.order hpayloads ho hnew
  rw [harrived] at harrived'
  obtain ⟨rfl, rfl⟩ := Prod.mk.inj (Except.ok.inj harrived')
  have hheld : s.held = parkedPayloads s.order.parked := by
    unfold Stream.held
    rw [hpayloads, List.append_nil]
  refine ⟨?_, ?_, ?_, ?_, ?_⟩
  · refine h.core.receive hgiven hname hticket hpayload ?_ ?_ ?_ ?_
    · rfl
    · rfl
    · rw [hheld]
      exact hperm
    · rfl
  · exact h.count.receive hgiven hname hlive (by rfl) (by rfl) (by rfl) (by rfl) (by rfl) hdone
      (by rfl)
  · exact ⟨h.pool.buffers_length, h.pool.slotOf_length, h.pool.indices, h.pool.slotOf_eq,
      h.pool.owned_eq, h.pool.slots_length, h.pool.slot_length, h.pool.placed, h.pool.guards,
      h.pool.guarded, h.pool.events, h.pool.completed_lt, h.pool.completed_nodup⟩
  · exact ⟨horder.ordinals, horder.unordered, horder.parked_nodup, horder.parked_keys,
      horder.missing, horder.ready⟩
  · exact fun _ => h.count.live_ne_nil hlive

/-- The payload of a response depends on the slots only. -/
theorem payload_congr (hbuffers : s'.buffers = s.buffers) (hpool : s'.pool = s.pool) (k : Nat)
    (request : FilesRequest) (fileIndex rangeIndex : Nat) :
    s'.payload k request fileIndex rangeIndex = s.payload k request fileIndex rangeIndex := by
  unfold Stream.payload
  rw [hbuffers, hpool]

/-- A response is received. -/
theorem StreamOk.received (h : StreamOk ring files requests s) (hcontrol : s.control = .receiving)
    {k fileIndex rangeIndex : Nat} {given : Submission} (hgiven : s.library[k]? = some given)
    (hname : (fileIndex, rangeIndex) ∈ given.unanswered) :
    StreamOk ring files requests
      ({ s with
          library := s.library.set k
            { given with unanswered := given.unanswered.erase (fileIndex, rangeIndex) } }.received
        k fileIndex rangeIndex (given.unanswered.erase (fileIndex, rangeIndex) = [])) := by
  obtain ⟨request, hrequest, hlt⟩ :=
    h.core.isLive_of_unanswered hgiven (List.ne_nil_of_mem hname)
  have hlookup := (h.count.live_iff k request).2 ⟨hrequest, hlt⟩
  have howed : (k, fileIndex, rangeIndex) ∈ unansweredOf s.library :=
    mem_tagged.2 ⟨given, hgiven, hname⟩
  have hnames : (fileIndex, rangeIndex) ∈ rangeNames request.counts := by
    have hticket := h.core.tickets.mem_iff.1 (List.mem_append_left _ howed)
    obtain ⟨other, hother, hmem⟩ := mem_tagged.1 hticket
    rw [hrequest] at hother
    rw [Option.some.inj hother]
    exact hmem
  obtain ⟨payload, hpayload, hticket, hok⟩ :=
    payload_spec h.core h.count h.pool hrequest ⟨request, hrequest, hlt⟩ hnames
  obtain ⟨o, ho, hnew⟩ := h.exists_ordinal howed hticket hok
  have hpayloads : s.control.payloads = [] := by rw [hcontrol]; rfl
  obtain ⟨ready, order, harrived, -⟩ := arrived_spec h.order hpayloads ho hnew
  unfold Stream.received
  simp only [hlookup]
  by_cases hdone : given.unanswered.erase (fileIndex, rangeIndex) = []
  · simp only [hdone, decide_true, if_true, @payload_congr s, hpayload, harrived]
    have hnext := h.arrive hcontrol hgiven hname hticket hok harrived (if_pos hdone).symm
    rw [hdone] at hnext
    exact hnext
  · simp only [hdone, decide_false, Bool.false_eq_true, if_false, @payload_congr s, hpayload,
      harrived]
    exact h.arrive hcontrol hgiven hname hticket hok harrived (if_neg hdone).symm

end Receive

/-! ## Resuming past a yield -/

section Resume

variable {ring : Ring} {files : List FileChunks} {requests : List FilesRequest} {s s' : Stream}

/-- A payload moves from the stream to the consumer. -/
theorem CoreOk.consume (h : CoreOk ring files requests s) {payload : Payload}
    {rest : List Payload} (hrest : s.control.payloads = payload :: rest)
    (hiterator : s'.iterator = s.iterator) (hlibrary : s'.library = s.library)
    (horder : s'.order = s.order) (hpayloads : s'.control.payloads = rest)
    (hconsumed : s'.consumed = s.consumed ++ [payload]) : CoreOk ring files requests s' := by
  have hperm : (s'.held ++ s'.consumed).Perm (s.held ++ s.consumed) := by
    unfold Stream.held
    rw [horder, hpayloads, hconsumed, hrest, ← List.append_assoc]
    refine (List.perm_append_singleton _ _).trans ?_
    rw [List.append_assoc, List.append_assoc]
    exact List.perm_middle.symm
  refine ⟨h.requestsOk, h.parts, ?_, h.nonempty, ?_, ?_, ?_, ?_, ?_, ?_, ?_⟩
  · rw [hiterator]
    exact h.queue
  · rw [hiterator]
    exact h.iteratorOk
  · rw [hiterator]
    exact h.limit_eq
  · rw [hiterator]
    exact h.cover
  · rw [hlibrary]
    exact h.library_length
  · rw [hlibrary]
    exact h.library_eq
  · rw [hlibrary]
    exact ((hperm.map _).append_left _).trans h.tickets
  · intro other hother
    exact h.payloads other (hperm.mem_iff.1 hother)

/-- A payload that is consumed keeps its place in the order. -/
theorem OrderOk.consume (h : OrderOk files s) {payload : Payload} {rest : List Payload}
    (hrest : s.control.payloads = payload :: rest) (horder : s'.order = s.order)
    (hpayloads : s'.control.payloads = rest)
    (hconsumed : s'.consumed = s.consumed ++ [payload]) : OrderOk files s' := by
  have hsame : s'.consumed ++ s'.control.payloads = s.consumed ++ s.control.payloads := by
    rw [hconsumed, hpayloads, hrest, List.append_assoc]
    rfl
  refine ⟨?_, ?_, ?_, ?_, ?_, ?_⟩
  · rw [horder]
    exact h.ordinals
  · rw [horder]
    exact h.unordered
  · rw [horder]
    exact h.parked_nodup
  · rw [horder]
    exact h.parked_keys
  · rw [horder]
    exact h.missing
  · rw [horder, hsame]
    exact h.ready

/-- One more range of its submission is handed over. -/
theorem handedOver_consume {payload : Payload} (hconsumed : s'.consumed = s.consumed ++ [payload])
    (j : Nat) :
    s'.handedOver j = s.handedOver j + if payload.submission = j then 1 else 0 := by
  unfold Stream.handedOver
  rw [hconsumed, List.countP_append, List.countP_singleton]
  simp

/-- A submission goes on after a range that is not its last. -/
theorem CountOk.consume (h : CountOk requests s) {payload : Payload} {n : Nat}
    (hn : s.rangesNotYielded.lookup payload.submission = some n) (hnotLast : n ≠ 1)
    (hconsumed : s'.consumed = s.consumed ++ [payload])
    (hnotYielded : s'.rangesNotYielded = s.rangesNotYielded.update payload.submission (· - 1))
    (hlive : s'.live = s.live) (hdone : s'.reportedDone = s.reportedDone)
    (houtstanding : s'.outstanding = s.outstanding) (hlibrary : s'.library = s.library)
    (hbuffers : s'.buffers = s.buffers) : CountOk requests s' := by
  have hover := handedOver_consume hconsumed
  obtain ⟨request, hrequest, hlt, hsum⟩ := (h.notYielded_iff _ _).1 hn
  -- its submission stays live
  have hless : ∀ (j : Nat) (other : FilesRequest), requests[j]? = some other →
      (s'.handedOver j < other.numRanges ↔ s.handedOver j < other.numRanges) := by
    intro j other hother
    rw [hover]
    split_ifs with hj
    · rw [← hj, hrequest] at hother
      rw [← hj, ← Option.some.inj hother]
      omega
    · rfl
  have hlive' : ∀ j, IsLive requests s' j ↔ IsLive requests s j := by
    intro j
    apply exists_congr
    intro other
    exact and_congr_right fun hother => hless j other hother
  refine ⟨?_, ?_, ?_, ?_, ?_, ?_⟩
  · rw [hlive]
    exact h.live_nodup
  · intro j other
    rw [hlive, h.live_iff]
    exact and_congr_right fun hother => (hless j other hother).symm
  · intro j m
    rw [hnotYielded, Table.lookup_update, hover]
    by_cases hj : j = payload.submission
    · rw [if_pos hj, if_pos hj.symm, hn, hj]
      simp only [Option.map_some, Option.some.injEq]
      constructor
      · intro hm
        exact ⟨request, hrequest, by omega, by omega⟩
      · intro ⟨other, hother, _, hm⟩
        rw [hrequest] at hother
        rw [← Option.some.inj hother] at hm
        omega
    · rw [if_neg hj, if_neg (Ne.symm hj), h.notYielded_iff]
      rfl
  · intro j
    rw [hdone, hlive', hlibrary]
    exact h.done_iff j
  · rw [houtstanding, hlibrary]
    exact h.outstanding_eq
  · intro j
    rw [hbuffers, hlive']
    exact h.buffers_iff j

/-- A submission is retired with its last range. -/
theorem CountOk.retire (h : CountOk requests s) {payload : Payload}
    (hn : s.rangesNotYielded.lookup payload.submission = some 1)
    (hconsumed : s'.consumed = s.consumed ++ [payload])
    (hnotYielded : s'.rangesNotYielded = (s.rangesNotYielded.update payload.submission
      (· - 1)).remove payload.submission)
    (hlive : s'.live = s.live.remove payload.submission)
    (hdone : s'.reportedDone = s.reportedDone.filter (· ≠ payload.submission))
    (houtstanding : s'.outstanding = s.outstanding) (hlibrary : s'.library = s.library)
    (hbuffers : s'.buffers = s.buffers.set payload.submission none) : CountOk requests s' := by
  have hover := handedOver_consume hconsumed
  obtain ⟨request, hrequest, hlt, hsum⟩ := (h.notYielded_iff _ _).1 hn
  have hself : ¬ IsLive requests s' payload.submission := by
    intro ⟨other, hother, hstill⟩
    rw [hrequest] at hother
    rw [hover, if_pos rfl, ← Option.some.inj hother] at hstill
    omega
  have hother : ∀ j, j ≠ payload.submission → s'.handedOver j = s.handedOver j := by
    intro j hj
    rw [hover, if_neg (Ne.symm hj), Nat.add_zero]
  have hlive' : ∀ j, j ≠ payload.submission → (IsLive requests s' j ↔ IsLive requests s j) := by
    intro j hj
    unfold IsLive
    rw [hother j hj]
  refine ⟨?_, ?_, ?_, ?_, ?_, ?_⟩
  · rw [hlive]
    exact Table.nodup_keys_remove h.live_nodup _
  · intro j other
    rw [hlive, Table.lookup_remove]
    by_cases hj : j = payload.submission
    · rw [if_pos hj]
      constructor
      · intro hnone
        cases hnone
      · intro hpair
        exact absurd ⟨other, hj ▸ hpair⟩ hself
    · rw [if_neg hj, hother j hj]
      exact h.live_iff j other
  · intro j m
    rw [hnotYielded, Table.lookup_remove, Table.lookup_update]
    by_cases hj : j = payload.submission
    · rw [if_pos hj]
      constructor
      · intro hnone
        cases hnone
      · intro ⟨other, hrequest', hstill, _⟩
        exact absurd ⟨other, hj ▸ hrequest', hj ▸ hstill⟩ hself
    · rw [if_neg hj, if_neg hj, hother j hj]
      exact h.notYielded_iff j m
  · intro j
    rw [hdone, hlibrary, List.mem_filter]
    by_cases hj : j = payload.submission
    · constructor
      · intro hmem
        simp [hj] at hmem
      · intro hmem
        exact absurd (hj ▸ hmem.1) hself
    · rw [hlive' j hj, ← h.done_iff]
      simp [hj]
  · rw [houtstanding, hlibrary]
    exact h.outstanding_eq
  · intro j
    rw [hbuffers]
    by_cases hj : j = payload.submission
    · constructor
      · intro ⟨i, hi⟩
        rw [hj, List.getElem?_set_self'] at hi
        cases hbuffer : s.buffers[payload.submission]? with
        | none =>
            rw [hbuffer] at hi
            cases hi
        | some other =>
            rw [hbuffer] at hi
            cases hi
      · intro hlive''
        exact absurd (hj ▸ hlive'') hself
    · rw [List.getElem?_set_ne (Ne.symm hj), hlive' j hj]
      exact h.buffers_iff j

/-- The entry that is cleared is the only one that is lost. -/
theorem filterMap_set_none {l : List (Option Nat)} {k i : Nat} (h : l[k]? = some (some i)) :
    (l.filterMap id).Perm (i :: (l.set k none).filterMap id) := by
  induction l generalizing k with
  | nil => cases h
  | cons entry l ih =>
      cases k with
      | zero =>
          rw [List.getElem?_cons_zero] at h
          rw [Option.some.inj h]
          exact List.Perm.refl _
      | succ k =>
          rw [List.getElem?_cons_succ] at h
          have hperm := ih h
          cases entry with
          | none => exact hperm
          | some other => exact (hperm.cons other).trans (List.Perm.swap _ _ _)

/-- A slot is released when it is not idle, and an owned one without an event. -/
theorem release_spec {pool : SlotPool} {index : Nat} {event : Option Nat}
    (hidle : index ∉ pool.idle) (howned : pool.owned = true → event = none) :
    ∃ pool', pool.release index event = .ok pool' ∧
      pool'.idle.Perm (index :: pool.idle) ∧ pool'.owned = pool.owned ∧
      pool'.slots.length = pool.slots.length ∧
      (∀ i, i ≠ index → pool'.slots[i]? = pool.slots[i]?) ∧
      (∀ slot, pool'.slots[index]? = some (some slot) →
        pool.slots[index]? = some (some slot)) ∧
      pool'.pending = pool.pending ++ event.toList.map fun event => (index, event) := by
  have hbusy : ¬ (index ∈ pool.free ∨ index ∈ pool.pending.map Prod.fst) := fun hmem =>
    hidle (List.mem_append.2 hmem)
  have hslots : ∀ slots, slots = (if pool.owned = true then pool.slots.set index none
      else pool.slots) → slots.length = pool.slots.length ∧
        (∀ i, i ≠ index → slots[i]? = pool.slots[i]?) ∧
        (∀ slot, slots[index]? = some (some slot) → pool.slots[index]? = some (some slot)) := by
    intro slots hslots
    cases hmode : pool.owned with
    | false =>
        simp only [hmode, Bool.false_eq_true, if_false] at hslots
        rw [hslots]
        exact ⟨rfl, fun _ _ => rfl, fun _ hslot => hslot⟩
    | true =>
        simp only [hmode, if_true] at hslots
        rw [hslots]
        refine ⟨List.length_set, fun i hi => List.getElem?_set_ne (Ne.symm hi), ?_⟩
        intro slot hslot
        rw [List.getElem?_set_self'] at hslot
        cases hentry : pool.slots[index]? with
        | none =>
            rw [hentry] at hslot
            cases hslot
        | some entry =>
            rw [hentry] at hslot
            cases hslot
  obtain ⟨hlength, hothers, hself⟩ := hslots _ rfl
  unfold SlotPool.release
  rw [if_neg hbusy]
  cases event with
  | none =>
      have hgiven : ¬ (pool.owned = true ∧ (none : Option Nat).isSome = true) := by simp
      rw [if_neg hgiven]
      refine ⟨_, rfl, ?_, rfl, hlength, hothers, hself, (List.append_nil _).symm⟩
      change (pool.free ++ [index] ++ _).Perm _
      rw [List.append_assoc]
      exact List.perm_middle
  | some event =>
      have hgiven : ¬ (pool.owned = true ∧ (some event).isSome = true) := fun hboth =>
        Option.some_ne_none event (howned hboth.1)
      rw [if_neg hgiven]
      refine ⟨_, rfl, ?_, rfl, hlength, hothers, hself, rfl⟩
      change (pool.free ++ (pool.pending ++ [(index, event)]).map Prod.fst).Perm _
      rw [List.map_append, ← List.append_assoc]
      exact List.perm_append_singleton _ _

/-- The slot of a submission is given back. -/
theorem PoolOk.release (h : PoolOk ring requests s) {k index : Nat}
    (hk : s.buffers[k]? = some (some index)) {event : Option Nat}
    (hevent : event = if ring.kind.reuseNeedsEvent then some s.events else none) :
    ∃ pool, s.pool.release index event = .ok pool ∧ pool.idle ≠ [] ∧
      ∀ s' : Stream, s'.pool = pool → s'.buffers = s.buffers.set k none →
        s'.slotOf = s.slotOf →
        s'.guards = s.guards ++ (event.toList.map fun event => (k, event)) →
        s'.events = s.events + event.toList.length → s'.completed = s.completed →
        PoolOk ring requests s' := by
  have howned : s.pool.owned = true → event = none := by
    intro hmode
    rw [h.owned_eq] at hmode
    cases hkind : ring.kind with
    | device =>
        rw [hkind] at hmode
        cases hmode
    | host owned =>
        rw [hkind] at hevent
        exact hevent
  obtain ⟨pool, hpool, hidle, howned', hlength, hothers, hself, hpending⟩ :=
    release_spec (h.not_mem_idle hk) howned
  refine ⟨pool, hpool, ?_, ?_⟩
  · intro hnil
    rw [hnil] at hidle
    exact absurd hidle.length_eq (by simp)
  intro s' hpool' hbuffers hslotOf hguards hevents hcompleted
  refine ⟨?_, ?_, ?_, ?_, ?_, ?_, ?_, ?_, ?_, ?_, ?_, ?_, ?_⟩
  · rw [hbuffers, List.length_set]
    exact h.buffers_length
  · rw [hslotOf]
    exact h.slotOf_length
  · rw [hpool', hbuffers]
    refine ((hidle.append_right _).trans ?_).trans h.indices
    refine List.perm_middle.symm.trans ?_
    exact ((filterMap_set_none hk).append_left _).symm
  · intro j i hj
    rw [hslotOf]
    apply h.slotOf_eq
    rw [hbuffers] at hj
    by_cases hjk : j = k
    · rw [hjk, List.getElem?_set_self (List.getElem?_eq_some_iff.1 hk).1] at hj
      cases hj
    · rw [List.getElem?_set_ne (Ne.symm hjk)] at hj
      exact hj
  · rw [hpool', howned']
    exact h.owned_eq
  · rw [hpool', hlength]
    exact h.slots_length
  · intro i slot hslot
    rw [hpool'] at hslot
    by_cases hi : i = index
    · subst hi
      exact h.slot_length i slot (hself slot hslot)
    · rw [hothers i hi] at hslot
      exact h.slot_length i slot hslot
  · intro j i request hj hrequest
    rw [hbuffers] at hj
    by_cases hjk : j = k
    · rw [hjk, List.getElem?_set_self (List.getElem?_eq_some_iff.1 hk).1] at hj
      cases hj
    · rw [List.getElem?_set_ne (Ne.symm hjk)] at hj
      have hused := filterMap_set_none hk
      have hmem : i ∈ (s.buffers.set k none).filterMap id := by
        refine List.mem_filterMap.2 ⟨some i, List.mem_iff_getElem?.2 ⟨j, ?_⟩, rfl⟩
        rw [List.getElem?_set_ne (Ne.symm hjk)]
        exact hj
      have hnodup := hused.nodup_iff.1 (List.nodup_append'.1 h.nodup).2.1
      have hne : i ≠ index := fun heq => (List.nodup_cons.1 hnodup).1 (heq ▸ hmem)
      rw [hpool', hothers i hne]
      exact h.placed j i request hj hrequest
  · intro guard hguard
    rw [hguards] at hguard
    rw [hcompleted, hslotOf, hpool', hpending]
    cases List.mem_append.1 hguard with
    | inl hold =>
        cases h.guards guard hold with
        | inl hdone => exact .inl hdone
        | inr hmem =>
            obtain ⟨i, hi, hstill⟩ := hmem
            exact .inr ⟨i, hi, List.mem_append_left _ hstill⟩
    | inr hnew =>
        obtain ⟨other, hother, rfl⟩ := List.mem_map.1 hnew
        refine .inr ⟨index, h.slotOf_eq k index hk, ?_⟩
        exact List.mem_append_right _ (List.mem_map.2 ⟨other, hother, rfl⟩)
  · intro hdevice j hj
    rw [hguards]
    rw [hbuffers] at hj
    by_cases hjk : j = k
    · refine ⟨s.events, List.mem_append_right _ ?_⟩
      rw [hevent, if_pos hdevice, hjk]
      exact List.mem_singleton_self _
    · rw [List.getElem?_set_ne (Ne.symm hjk)] at hj
      obtain ⟨other, hother⟩ := h.guarded hdevice j hj
      exact ⟨other, List.mem_append_left _ hother⟩
  · intro entry hentry
    rw [hpool', hpending] at hentry
    rw [hevents]
    cases List.mem_append.1 hentry with
    | inl hold =>
        have hlt := h.events entry hold
        omega
    | inr hnew =>
        obtain ⟨other, hother, rfl⟩ := List.mem_map.1 hnew
        rw [hevent] at hother ⊢
        split_ifs at hother ⊢ with hdevice
        · rw [List.mem_singleton.1 hother]
          simp
        · cases hother
  · intro other hother
    rw [hcompleted] at hother
    have hlt := h.completed_lt other hother
    rw [hevents]
    omega
  · rw [hcompleted]
    exact h.completed_nodup

/-- A submission whose last range is handed over was reported done. -/
theorem StreamOk.mem_reportedDone (h : StreamOk ring files requests s) {payload : Payload}
    (hheld : payload ∈ s.held) (hn : s.rangesNotYielded.lookup payload.submission = some 1) :
    payload.submission ∈ s.reportedDone := by
  obtain ⟨request, hrequest, hlt, hsum⟩ := (h.count.notYielded_iff _ _).1 hn
  obtain ⟨given, hgiven⟩ := h.core.exists_given hrequest
  refine (h.count.done_iff _).2 ⟨⟨request, hrequest, hlt⟩, given, hgiven, ?_⟩
  have hcount := h.core.count_eq hrequest hgiven
  have hpos : 0 < s.held.countP fun other => other.submission = payload.submission :=
    List.countP_pos_iff.2 ⟨payload, hheld, by simp⟩
  exact List.eq_nil_of_length_eq_zero (by omega)

/-- The generator resumes past a yield. -/
theorem StreamOk.resumed {payload : Payload} {rest : List Payload}
    (h : StreamOk ring files requests s) (hcontrol : s.control = .yielded payload rest) :
    StreamOk ring files requests (s.resumed ring payload rest) := by
  have hrest : s.control.payloads = payload :: rest := by rw [hcontrol]; rfl
  have hheld : payload ∈ s.held := by
    unfold Stream.held
    rw [hrest]
    exact List.mem_append_right _ List.mem_cons_self
  have hlive := h.core.isLive_of_held hheld
  have hwhere := h.control
  unfold ControlOk at hwhere
  rw [hcontrol] at hwhere
  unfold Stream.resumed
  by_cases hlast : s.rangesNotYielded.lookup payload.submission = some 1
  · obtain ⟨index, hindex⟩ := (h.count.buffers_iff _).2 hlive
    have hdone := h.mem_reportedDone hheld hlast
    obtain ⟨pool, hpool, hidle, hnext⟩ := h.pool.release hindex rfl
    have hget : s.buffers.getD payload.submission none = some index := by
      rw [List.getD_eq_getElem?_getD, hindex]
      rfl
    have hevent : ¬ ((if ring.kind.reuseNeedsEvent = true then some s.events else none) = none ∧
        ring.kind.reuseNeedsEvent = true) := by
      intro ⟨hnone, hdevice⟩
      rw [if_pos hdevice] at hnone
      cases hnone
    simp only [hlast, if_true]
    unfold Stream.retire Stream.release
    simp only [hdone, not_true_eq_false, if_false, hget, hevent, hpool]
    refine ⟨?_, ?_, ?_, ?_, ?_⟩
    · exact h.core.consume hrest (by rfl) (by rfl) (by rfl) (by rfl) (by rfl)
    · exact h.count.retire hlast (by rfl) (by rfl) (by rfl) (by rfl) (by rfl) (by rfl) (by rfl)
    · exact hnext _ rfl rfl rfl rfl rfl rfl
    · exact h.order.consume hrest (by rfl) (by rfl) (by rfl)
    · exact .inl hidle
  · obtain ⟨request, hrequest, hlt⟩ := hlive
    have hn := (h.count.notYielded_iff payload.submission
      (request.numRanges - s.handedOver payload.submission)).2
        ⟨request, hrequest, hlt, by omega⟩
    have hne : request.numRanges - s.handedOver payload.submission ≠ 1 := by
      intro heq
      rw [heq] at hn
      exact hlast hn
    simp only [hlast, if_false]
    refine ⟨?_, ?_, ?_, ?_, ?_⟩
    · exact h.core.consume hrest (by rfl) (by rfl) (by rfl) (by rfl) (by rfl)
    · exact h.count.consume hn hne (by rfl) (by rfl) (by rfl) (by rfl) (by rfl) (by rfl) (by rfl)
    · exact ⟨h.pool.buffers_length, h.pool.slotOf_length, h.pool.indices, h.pool.slotOf_eq,
        h.pool.owned_eq, h.pool.slots_length, h.pool.slot_length, h.pool.placed, h.pool.guards,
        h.pool.guarded, h.pool.events, h.pool.completed_lt, h.pool.completed_nodup⟩
    · exact h.order.consume hrest (by rfl) (by rfl) (by rfl)
    · exact hwhere

end Resume

end FileStreamer
end ModelStreamer
