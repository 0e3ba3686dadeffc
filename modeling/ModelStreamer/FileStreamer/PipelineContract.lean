import ModelStreamer.FileStreamer.PipelineSteps

/-!
# What a stream delivers

Main results:

- Theorem {lit}`StreamOk.exists_owed`: a stream that waits for a response is owed one.
- Theorem {lit}`StreamOk.work_lt`: every step uses up work, so that every run ends.
- Theorem {lit}`StreamOk.delivered`: a payload shows the range where the library was to write it.
- Theorem {lit}`get_chunks_contract`: what holds in every state that a stream reaches, and for
  every buffer that it reuses.
-/

namespace ModelStreamer
namespace FileStreamer

open Distributed Lib

section Waiting

variable {ring : Ring} {files : List FileChunks} {requests : List FilesRequest} {s s' : Stream}
  {action : StreamAction}

/-! ## Waiting for a response -/

/-- The keys of the responses are the first keys. -/
theorem CoreOk.keys_eq_take (h : CoreOk ring files requests s) :
    (ticketsOf requests).map (fun ticket => (ticketInfo requests ticket).key) =
      (allKeys files).take (ticketsOf requests).length := by
  have hkeys := h.map_key_tickets
  have hlength : ((ticketsOf requests).map fun ticket => (ticketInfo requests ticket).key).length =
      (ticketsOf requests).length := List.length_map _
  rw [← hkeys, List.take_append_of_le_length (by rw [hlength]), ← hlength, List.take_length]

/-- The keys of the payloads that were received, with those that are owed, are the first keys. -/
theorem CoreOk.perm_keys (h : CoreOk ring files requests s) :
    ((unansweredOf s.library).map (fun ticket => (ticketInfo requests ticket).key) ++
      (s.held ++ s.consumed).map Payload.key).Perm
        ((allKeys files).take (ticketsOf requests).length) := by
  rw [← h.keys_eq_take]
  have hperm := h.tickets.map fun ticket => (ticketInfo requests ticket).key
  rw [List.map_append, List.map_map] at hperm
  have hsame : (s.held ++ s.consumed).map Payload.key =
      (s.held ++ s.consumed).map
        ((fun ticket => (ticketInfo requests ticket).key) ∘ Payload.ticket) :=
    List.map_congr_left fun payload hpayload => (h.payloads payload hpayload).key_eq
  rw [hsame]
  exact hperm

/-- A stream that waits for a response is owed one. -/
theorem StreamOk.exists_owed (h : StreamOk ring files requests s)
    (hcontrol : s.control = .receiving) : unansweredOf s.library ≠ [] := by
  intro hnone
  have hpayloads : s.control.payloads = [] := by rw [hcontrol]; rfl
  have hwhere := h.control
  unfold ControlOk at hwhere
  rw [hcontrol] at hwhere
  -- a live submission has a range that was not handed over, which must be parked
  obtain ⟨entry, hentry⟩ := List.exists_mem_of_ne_nil _ hwhere
  have hlookup := Table.lookup_of_mem h.count.live_nodup hentry
  obtain ⟨hrequest, hlt⟩ := (h.count.live_iff _ _).1 hlookup
  obtain ⟨given, hgiven⟩ := h.core.exists_given hrequest
  have hcount := h.core.count_eq hrequest hgiven
  have hgivenNone : given.unanswered = [] := by
    by_contra hne
    obtain ⟨name, hname⟩ := List.exists_mem_of_ne_nil _ hne
    have hmem : (entry.1, name) ∈ unansweredOf s.library := mem_tagged.2 ⟨given, hgiven, hname⟩
    rw [hnone] at hmem
    cases hmem
  rw [hgivenNone, List.length_nil] at hcount
  obtain ⟨payload, hheld, -⟩ := List.countP_pos_iff.1
    (show 0 < s.held.countP fun payload => payload.submission = entry.1 by omega)
  have hparked : s.held = parkedPayloads s.order.parked := by
    unfold Stream.held
    rw [hpayloads, List.append_nil]
  rw [hparked] at hheld
  obtain ⟨parked, hmem, hparkedEq⟩ := List.mem_map.1 hheld
  cases hmode : s.order.ordered with
  | false =>
      rw [h.order.unordered hmode] at hmem
      cases hmem
  | true =>
      obtain ⟨hconsumed, hnext⟩ := h.order.ready hmode
      rw [hpayloads, List.append_nil] at hconsumed hnext
      have hperm := h.core.perm_keys
      rw [hnone, List.map_nil, List.nil_append, hparked] at hperm
      have hnodup := h.order.nodup_allKeys
      have hlength := hperm.length_eq
      rw [List.length_map, List.length_append, parkedPayloads, List.length_map,
        List.length_take] at hlength
      have hpos : 0 < s.order.parked.length := List.length_pos_of_mem hmem
      -- the key of the next ordinal was received, so it is parked or consumed
      have hnextLt : s.order.next < (allKeys files).length := by omega
      have hin : (allKeys files)[s.order.next] ∈
          (allKeys files).take (ticketsOf requests).length := by
        refine List.mem_iff_getElem?.2 ⟨s.order.next, ?_⟩
        rw [List.getElem?_take_of_lt (by omega), List.getElem?_eq_getElem hnextLt]
      have hreceived := hperm.mem_iff.2 hin
      rw [List.map_append, List.mem_append] at hreceived
      cases hreceived with
      | inl hinParked =>
          obtain ⟨other, hother, hkey⟩ := List.mem_map.1 hinParked
          obtain ⟨pair, hpair, rfl⟩ := List.mem_map.1 hother
          have hordinal := h.order.parked_keys pair hpair
          rw [hkey] at hordinal
          obtain ⟨hpairLt, hpairEq⟩ := List.getElem?_eq_some_iff.1 hordinal
          have hsame := (List.Nodup.getElem_inj_iff hnodup).1 hpairEq
          apply h.order.missing hmode
          rw [← hsame]
          exact List.mem_map.2 ⟨pair, hpair, rfl⟩
      | inr hinConsumed =>
          rw [hconsumed] at hinConsumed
          obtain ⟨i, hi, heq⟩ := List.mem_iff_getElem.1 hinConsumed
          rw [List.length_take] at hi
          rw [List.getElem_take] at heq
          have hsame := (List.Nodup.getElem_inj_iff hnodup).1 heq
          omega

/-- An action that is possible leads somewhere. -/
theorem exists_next (action : StreamAction) (h : (streamStep ring s action).isSome = true) :
    ∃ action s', streamStep ring s action = some s' :=
  ⟨action, Option.isSome_iff_exists.1 h⟩

/-- Until a stream has ended, something can happen. -/
theorem StreamOk.progress (h : StreamOk ring files requests s) :
    s.control = .ended ∨ ∃ action s', streamStep ring s action = some s' := by
  have hwhere := h.control
  unfold ControlOk at hwhere
  cases hcontrol : s.control with
  | submitting rest =>
      right
      apply exists_next .step
      simp [streamStep, hcontrol]
  | synchronizing event rest =>
      right
      rw [hcontrol] at hwhere
      obtain ⟨index, pending, hpending⟩ := hwhere
      have hlt : event < s.events := by
        apply h.pool.events (index, event)
        rw [hpending]
        exact List.mem_cons_self
      by_cases hevent : event ∈ s.completed
      · apply exists_next .step
        simp [streamStep, hcontrol, hevent]
      · apply exists_next (.completes event)
        simp [streamStep, hlt, hevent]
  | building rest =>
      right
      apply exists_next .step
      simp [streamStep, hcontrol]
  | handing rest =>
      right
      apply exists_next .step
      cases rest with
      | nil =>
          by_cases hlive : s.live = []
          · simp [streamStep, hcontrol, hlive]
          · simp [streamStep, hcontrol, hlive]
      | cons payload rest => simp [streamStep, hcontrol]
  | yielded payload rest =>
      right
      apply exists_next .resume
      simp [streamStep, hcontrol]
  | receiving =>
      right
      obtain ⟨ticket, hticket⟩ := List.exists_mem_of_ne_nil _ (h.exists_owed hcontrol)
      obtain ⟨given, hgiven, hname⟩ := mem_tagged.1 hticket
      apply exists_next (.respond ticket.1 ticket.2.1 ticket.2.2)
      simp [streamStep, hcontrol, hgiven, hname]
  | ended => exact .inl rfl
  | failed error =>
      rw [hcontrol] at hwhere
      exact absurd hwhere not_false

end Waiting

/-! ## Work -/

section Work

variable {ring : Ring} {files : List FileChunks} {requests : List FilesRequest} {s s' : Stream}
  {action : StreamAction}

/-- The work that is left: every range costs as much as the steps that can still move it. -/
def Stream.work (s : Stream) : Nat :=
  13 * (rangesLeft s.iterator.q).length + 10 * (unansweredOf s.library).length +
    8 * s.held.length + (s.events - s.completed.length) + s.control.rank

/-- Every range that was submitted is owed, held or handed over. -/
theorem CoreOk.length_eq (h : CoreOk ring files requests s) :
    (unansweredOf s.library).length + s.held.length + s.consumed.length =
      (ticketsOf requests).length := by
  have hlength := h.tickets.length_eq
  rw [List.length_append, List.length_map, List.length_append] at hlength
  omega

/-- Events are numbers below the count of events. -/
theorem PoolOk.completed_le (h : PoolOk ring requests s) : s.completed.length ≤ s.events := by
  have hsub : s.completed ⊆ List.range s.events := fun event hevent =>
    List.mem_range.2 (h.completed_lt event hevent)
  have hle := (List.subperm_of_subset h.completed_nodup hsub).length_le
  rwa [List.length_range] at hle

/-- What is held, by place. -/
theorem length_held (s : Stream) :
    s.held.length = s.order.parked.length + s.control.payloads.length := by
  unfold Stream.held parkedPayloads
  rw [List.length_append, List.length_map]

/-- Every step uses up work. -/
theorem StreamOk.work_lt (h : StreamOk ring files requests s)
    (hsizes : ∀ range ∈ allRanges files, range.size ≤ ring.bufferSize)
    (hstep : streamStep ring s action = some s') : s'.work < s.work := by
  unfold streamStep at hstep
  split at hstep
  case h_1 rest hcontrol =>
      cases hstep
      obtain ⟨pool, control, heq, hpayloads, hrank⟩ := submitting_eq s rest
      have hrest : s.control.payloads = rest := by rw [hcontrol]; rfl
      have hbefore : s.control.rank = 4 := by rw [hcontrol]; rfl
      rw [heq]
      unfold Stream.work
      simp only [length_held, hrest, hbefore]
      omega
  case h_2 event rest hcontrol =>
      split_ifs at hstep
      cases hstep
      unfold Stream.work
      simp only [length_held, hcontrol, Control.payloads, Control.rank]
      omega
  case h_3 rest hcontrol =>
      cases hstep
      cases h.building_cases hsizes hcontrol with
      | inl hnone =>
          obtain ⟨iterator, -, -, -, -, hafter, hbuilt⟩ := hnone
          rw [hbuilt]
          unfold Stream.work
          simp only [length_held, hcontrol, hafter, Control.payloads, Control.rank,
            List.length_nil]
          omega
      | inr hsome =>
          obtain ⟨request, index, slot, iterator, pool, hsubmits, hbuilt⟩ := hsome
          have hleft := congrArg List.length hsubmits.cover
          have hnonempty := hsubmits.nonempty
          rw [List.length_append, length_located hsubmits.requestOk] at hleft
          have howed : (unansweredOf (s.library ++ [request.submission])).length =
              (unansweredOf s.library).length + request.numRanges := by
            unfold unansweredOf
            rw [tagged_concat, List.length_append, List.length_map]
            exact congrArg _ (length_rangeNames hsubmits.requestOk)
          rw [hbuilt]
          unfold Stream.work Stream.submit
          simp only [length_held, hcontrol, howed, Control.payloads, Control.rank]
          omega
  case h_4 payload rest hcontrol =>
      cases hstep
      unfold Stream.work
      simp only [length_held, hcontrol, Control.payloads, Control.rank]
      omega
  case h_5 hcontrol =>
      split_ifs at hstep
      · cases hstep
        unfold Stream.work
        simp only [length_held, hcontrol, Control.payloads, Control.rank]
        omega
      · cases hstep
        unfold Stream.work
        simp only [length_held, hcontrol, Control.payloads, Control.rank]
        omega
  case h_6 payload rest hcontrol =>
      cases hstep
      have hresumes := resumed_resumes ring s payload rest
      have hpayloads := hresumes.payloads_le
      have hevents := hresumes.events_le
      have hrank := hresumes.rank_le
      have hrest : s.control.payloads.length = rest.length + 1 := by rw [hcontrol]; rfl
      have hbefore : s.control.rank = 0 := by rw [hcontrol]; rfl
      unfold Stream.work
      simp only [length_held, hresumes.iterator, hresumes.library, hresumes.order,
        hresumes.completed, hrest, hbefore]
      omega
  case h_7 k fileIndex rangeIndex hcontrol =>
      split at hstep
      · rename_i given hgiven
        split_ifs at hstep with hname
        cases hstep
        have hafter := (h.received hcontrol hgiven hname).core.length_eq
        have hbefore := h.core.length_eq
        have hlost := (@tagged_set_perm _ _ Submission.unanswered k s.library given
          { given with unanswered := given.unanswered.erase (fileIndex, rangeIndex) }
          (fileIndex, rangeIndex) hgiven (List.perm_cons_erase hname)).length_eq
        rw [List.length_cons] at hlost
        obtain ⟨reportedDone, order, control, heq, -, hrank⟩ := received_eq
          { s with
            library := s.library.set k
              { given with unanswered := given.unanswered.erase (fileIndex, rangeIndex) } }
          k fileIndex rangeIndex (given.unanswered.erase (fileIndex, rangeIndex) = [])
        have hstill : s.control.rank = 0 := by rw [hcontrol]; rfl
        rw [heq] at hafter ⊢
        unfold unansweredOf at hafter hbefore
        unfold Stream.work unansweredOf
        simp only [hstill]
        simp only at hafter
        omega
      · cases hstep
  case h_8 event =>
      split_ifs at hstep with hevent
      cases hstep
      have hle := (h.completes hevent.1 hevent.2).pool.completed_le
      rw [List.length_append, List.length_singleton] at hle
      simp only at hle
      unfold Stream.work
      simp only [length_held, List.length_append, List.length_singleton]
      omega
  case h_9 => cases hstep

end Work

/-! ## What the consumer sees -/

section Report

variable {ring : Ring} {files : List FileChunks} {requests : List FilesRequest} {s : Stream}

/-- The file id and the index of every range, in list order. -/
def keysOf (files : List FileChunks) : List (Int × Nat) :=
  files.flatMap fun file => (List.range file.sizes.length).map fun range => (file.id, range)

/-- What was yielded, the range that the consumer holds included. -/
def Stream.yields (s : Stream) : List Payload :=
  match s.control with
  | .yielded payload _ => s.consumed ++ [payload]
  | _ => s.consumed

/-- The place of a range among all ranges of a submission. -/
def Submission.place (given : Submission) (fileIndex rangeIndex : Nat) : Nat :=
  (given.numRanges.take fileIndex).sum + rangeIndex

/--
A payload is about one range of one file, which the library was given with its submission, and
its view is the destination that the library was given.
-/
def Delivered (files : List FileChunks) (library : List Submission) (payload : Payload) : Prop :=
  ∃ file ∈ files, ∃ given offset size dst,
    file.id = payload.fileId ∧ file.offsets[payload.rangeIndex]? = some offset ∧
      file.sizes[payload.rangeIndex]? = some size ∧
    library[payload.submission]? = some given ∧
      given.paths[payload.fileIndex]? = some file.path ∧
      given.offsets[given.place payload.fileIndex payload.localIndex]? = some offset ∧
      given.sizes[given.place payload.fileIndex payload.localIndex]? = some size ∧
      given.dsts[given.place payload.fileIndex payload.localIndex]? = some dst ∧
    payload.view = ⟨dst, size⟩

/-- The keys of the ranges are the keys of the files. -/
theorem allKeys_eq (files : List FileChunks) : allKeys files = keysOf files := by
  unfold allKeys allRanges keysOf
  rw [List.map_flatMap]
  apply List.flatMap_congr
  intro file _
  rw [locate_eq_range, List.map_map]
  apply List.map_congr_left
  intro r _
  simp [RangeInfo.key]

/-- A range of the files is in its file at its index. -/
theorem exists_file {range : RangeInfo} (h : range ∈ allRanges files) :
    ∃ file ∈ files, file.id = range.fileId ∧ file.offsets[range.index]? = some range.offset ∧
      file.sizes[range.index]? = some range.size := by
  obtain ⟨file, hfile, hrange⟩ := List.mem_flatMap.1 h
  rw [locate_eq_range] at hrange
  obtain ⟨r, hr, rfl⟩ := List.mem_map.1 hrange
  have hlt : r < file.sizes.length := List.mem_range.1 hr
  have hlt' : r < file.offsets.length := by
    rw [file.parallel]
    exact hlt
  exact ⟨file, hfile, rfl, by simp [hlt'], by simp [hlt]⟩

/-- The name of a range that is given is the name of a file of the request. -/
theorem lt_of_mem_rangeNames {request : FilesRequest} {name : Nat × Nat}
    (h : name ∈ rangeNames request.counts) : name.1 < request.files.length := by
  rw [rangeNames_eq_range] at h
  obtain ⟨i, hi, hmem⟩ := List.mem_flatMap.1 h
  obtain ⟨r, -, rfl⟩ := List.mem_map.1 hmem
  simpa [FilesRequest.counts] using hi

/-- A payload that was received shows the range where the library was given it. -/
theorem StreamOk.delivered (h : StreamOk ring files requests s)
    (hids : (files.map FileChunks.id).Nodup) {payload : Payload}
    (hpayload : payload ∈ s.held ++ s.consumed) : Delivered files s.library payload := by
  obtain ⟨request, hrequest, hname, hkey, dst, hdst, hview⟩ :=
    (h.core.payloads payload hpayload).exists_request
  have hmem := List.mem_of_getElem? hrequest
  have hok := h.core.requestsOk request hmem
  have hlocated := located_flatIndex hok hname
  have hin : request.info (payload.fileIndex, payload.localIndex) ∈ allRanges files := by
    rw [← h.core.cover]
    apply List.mem_append_left
    exact List.mem_flatMap.2 ⟨request, hmem, List.mem_of_getElem? hlocated⟩
  obtain ⟨file, hfile, hid, hoffset, hsize⟩ := exists_file hin
  obtain ⟨hkeyId, hkeyIndex⟩ := Prod.mk.inj hkey
  have hlt := lt_of_mem_rangeNames hname
  -- the file of the request with this name is a part of the file of the stream
  have hpart : (request.files.getD payload.fileIndex noFile).path = file.path := by
    have hget : request.files.getD payload.fileIndex noFile =
        request.files[payload.fileIndex] := by
      simp [List.getD_eq_getElem?_getD, hlt]
    obtain ⟨other, hother, hotherId, hpath⟩ :=
      h.core.parts request hmem _ (List.getElem_mem hlt)
    have hsame : other = file := by
      apply List.inj_on_of_nodup_map hids hother hfile
      rw [hid, ← hotherId]
      change _ = (request.files.getD payload.fileIndex noFile).id
      rw [hget]
    rw [hget, hpath, hsame]
  obtain ⟨unanswered, hgiven⟩ := h.core.library_eq _ request hrequest
  have hplace : ({ request.submission with unanswered } : Submission).place payload.fileIndex
      payload.localIndex = request.flatIndex payload.fileIndex payload.localIndex := by
    unfold Submission.place FilesRequest.flatIndex
    rw [hok.fileBase_eq _ hlt, List.map_take]
    rfl
  have hranges : request.ranges[request.flatIndex payload.fileIndex payload.localIndex]? =
      some ((request.info (payload.fileIndex, payload.localIndex)).offset,
        (request.info (payload.fileIndex, payload.localIndex)).size) := by
    rw [ranges_eq hok, List.getElem?_map, hlocated]
    rfl
  have hoffsets : request.submission.offsets = request.ranges.map Prod.fst := by
    change request.files.flatMap FileChunks.offsets = _
    unfold FilesRequest.ranges
    rw [List.map_flatMap]
    apply List.flatMap_congr
    intro part _
    rw [List.map_fst_zip]
    exact le_of_eq part.parallel
  have hsizes : request.submission.sizes = request.ranges.map Prod.snd := by
    change request.files.flatMap FileChunks.sizes = _
    unfold FilesRequest.ranges
    rw [List.map_flatMap]
    exact List.flatMap_congr fun part _ => (map_snd_zip part).symm
  refine ⟨file, hfile, _, (request.info (payload.fileIndex, payload.localIndex)).offset, _, dst,
    ?_, ?_, ?_, hgiven, ?_, ?_, ?_, ?_, hview⟩
  · rw [hid]
    exact hkeyId.symm
  · rw [show payload.rangeIndex = _ from hkeyIndex]
    exact hoffset
  · rw [show payload.rangeIndex = _ from hkeyIndex]
    exact hsize
  · change (request.files.map FileChunks.path)[payload.fileIndex]? = _
    rw [List.getElem?_map, List.getElem?_eq_getElem hlt, ← hpart]
    simp [List.getD_eq_getElem?_getD, hlt]
  · rw [hplace]
    change request.submission.offsets[_]? = _
    rw [hoffsets, List.getElem?_map, hranges]
    rfl
  · rw [hplace]
    change request.submission.sizes[_]? = _
    rw [hsizes, List.getElem?_map, hranges]
    rfl
  · rw [hplace]
    exact hdst

/-- What was yielded is consumed or about to be. -/
theorem yields_prefix (s : Stream) : s.yields <+: s.consumed ++ s.control.payloads := by
  unfold Stream.yields
  split
  · rename_i payload rest hcontrol
    rw [hcontrol]
    exact ⟨rest, by simp [Control.payloads]⟩
  · exact List.prefix_append _ _

/-- What was yielded and what is still held make up what was received. -/
theorem StreamOk.keys_received (h : StreamOk ring files requests s) :
    ((s.held ++ s.consumed).map Payload.key).Nodup ∧
      (s.held ++ s.consumed).map Payload.key ⊆ keysOf files := by
  have hperm := h.core.perm_keys
  have htake : ((allKeys files).take (ticketsOf requests).length).Nodup :=
    h.order.nodup_allKeys.sublist (List.take_sublist _ _)
  have hnodup := hperm.nodup_iff.2 htake
  refine ⟨(List.nodup_append'.1 hnodup).2.1, fun key hkey => ?_⟩
  rw [← allKeys_eq]
  exact List.mem_of_mem_take (hperm.mem_iff.1 (List.mem_append_right _ hkey))

/-- What was yielded was received. -/
theorem yields_sublist (s : Stream) : ∃ others,
    (s.held ++ s.consumed).Perm (s.yields ++ others) := by
  obtain ⟨rest, hrest⟩ := yields_prefix s
  refine ⟨rest ++ parkedPayloads s.order.parked, ?_⟩
  unfold Stream.held
  rw [← List.append_assoc s.yields, hrest, List.append_assoc]
  refine List.perm_append_comm.trans ?_
  exact List.perm_append_comm.append_right _

/-- At most as many submissions are live as there are buffers. -/
theorem StreamOk.live_le (h : StreamOk ring files requests s) :
    s.live.length ≤ ring.numBuffers := by
  have hlength : s.live.keys.length = s.live.length := List.length_map _
  have hindices : s.buffers.countP Option.isSome ≤ ring.numBuffers := by
    have hperm := h.pool.indices.length_eq
    rw [List.length_append, List.length_range, List.length_filterMap_eq_countP] at hperm
    change _ + s.buffers.countP Option.isSome = _ at hperm
    omega
  have hlist : s.buffers = (List.range s.buffers.length).map fun k => s.buffers.getD k none := by
    apply List.ext_getElem
    · simp
    · intro i hi _
      simp [List.getD_eq_getElem?_getD, hi]
  have hcount : s.buffers.countP Option.isSome =
      ((List.range s.buffers.length).filter fun k => (s.buffers.getD k none).isSome).length := by
    conv_lhs => rw [hlist]
    rw [List.countP_map, List.countP_eq_length_filter]
    rfl
  have hsub : s.live.keys ⊆
      (List.range s.buffers.length).filter fun k => (s.buffers.getD k none).isSome := by
    intro k hk
    obtain ⟨request, hlookup⟩ := Table.mem_keys_iff.1 hk
    have hlive := (h.count.live_iff k request).1 hlookup
    obtain ⟨i, hi⟩ := (h.count.buffers_iff k).2 ⟨request, hlive⟩
    refine List.mem_filter.2 ⟨List.mem_range.2 (List.getElem?_eq_some_iff.1 hi).1, ?_⟩
    rw [List.getD_eq_getElem?_getD, hi]
    rfl
  have hle := (List.subperm_of_subset h.count.live_nodup hsub).length_le
  omega

/-- A stream that has ended has yielded everything. -/
theorem StreamOk.ended_keys (h : StreamOk ring files requests s) (hcontrol : s.control = .ended) :
    (s.consumed.map Payload.key).Perm (keysOf files) := by
  have hwhere := h.control
  unfold ControlOk at hwhere
  rw [hcontrol] at hwhere
  obtain ⟨hlive, hleft⟩ := hwhere
  have howed : unansweredOf s.library = [] := by
    by_contra hne
    obtain ⟨ticket, hticket⟩ := List.exists_mem_of_ne_nil _ hne
    obtain ⟨given, hgiven, hname⟩ := mem_tagged.1 hticket
    exact h.count.live_ne_nil
      (h.core.isLive_of_unanswered hgiven (List.ne_nil_of_mem hname)) hlive
  have hheld : s.held = [] := by
    by_contra hne
    obtain ⟨payload, hpayload⟩ := List.exists_mem_of_ne_nil _ hne
    exact h.count.live_ne_nil (h.core.isLive_of_held hpayload) hlive
  have hperm := h.core.perm_keys
  rw [howed, hheld, List.map_nil, List.nil_append, List.nil_append, ← h.core.keys_eq_take] at hperm
  have hall := h.core.map_key_tickets
  rw [hleft, List.map_nil, List.append_nil] at hall
  rw [← allKeys_eq, ← hall]
  exact hperm

/-- What holds in a state of a stream of the files. -/
structure StreamReport (ring : Ring) (ordered : Bool) (files : List FileChunks) (s : Stream) :
    Prop where
  /-- The stream raises nothing. -/
  no_error : ∀ error, s.control ≠ .failed error
  /-- Nothing is yielded twice. -/
  once : (s.yields.map Payload.key).Nodup
  /-- Nothing but the ranges of the files is yielded. -/
  known : s.yields.map Payload.key ⊆ keysOf files
  /-- An ordered stream yields the ranges in list order. -/
  in_order : ordered = true → s.yields.map Payload.key <+: keysOf files
  /-- A stream that has ended has yielded every range. -/
  complete : s.control = .ended → (s.yields.map Payload.key).Perm (keysOf files)
  /-- What is yielded is where the library was told to write it. -/
  views : ∀ payload ∈ s.yields, Delivered files s.library payload
  /-- There are no more live submissions than buffers. -/
  live_le : s.live.length ≤ ring.numBuffers
  /-- While the stream waits for a response, the library owes one. -/
  owed : s.control = .receiving → 0 < s.outstanding ∧
    ∃ k fileIndex rangeIndex : Nat, ∃ given, s.library[k]? = some given ∧
      (fileIndex, rangeIndex) ∈ given.unanswered
  /-- The stream has ended or something can still happen. -/
  progress : s.control = .ended ∨ ∃ action s', streamStep ring s action = some s'

/-- The invariant gives the report. -/
theorem StreamOk.report (h : StreamOk ring files requests s)
    (hids : (files.map FileChunks.id).Nodup) :
    StreamReport ring s.order.ordered files s := by
  obtain ⟨others, hperm⟩ := yields_sublist s
  obtain ⟨hnodup, hsub⟩ := h.keys_received
  have hkeys : ((s.held ++ s.consumed).map Payload.key).Perm
      (s.yields.map Payload.key ++ others.map Payload.key) := by
    rw [← List.map_append]
    exact hperm.map Payload.key
  have hsplit := List.nodup_append'.1 (hkeys.nodup_iff.1 hnodup)
  refine ⟨?_, hsplit.1, ?_, ?_, ?_, ?_, h.live_le, ?_, h.progress⟩
  · intro error hcontrol
    have hwhere := h.control
    unfold ControlOk at hwhere
    rw [hcontrol] at hwhere
    exact hwhere
  · intro key hkey
    exact hsub (hkeys.mem_iff.2 (List.mem_append_left _ hkey))
  · intro hordered
    have hready := (h.order.ready hordered).1
    obtain ⟨rest, hrest⟩ := yields_prefix s
    rw [← hrest, List.map_append, allKeys_eq] at hready
    refine List.IsPrefix.trans ⟨rest.map Payload.key, hready⟩ ?_
    exact List.take_prefix _ _
  · intro hcontrol
    have hyields : s.yields = s.consumed := by
      unfold Stream.yields
      rw [hcontrol]
    rw [hyields]
    exact h.ended_keys hcontrol
  · intro payload hpayload
    exact h.delivered hids (hperm.mem_iff.2 (List.mem_append_left _ hpayload))
  · intro hcontrol
    have hne := h.exists_owed hcontrol
    have hcount := h.count.outstanding_eq
    have hpos := List.length_pos_iff.2 hne
    obtain ⟨ticket, hticket⟩ := List.exists_mem_of_ne_nil _ hne
    obtain ⟨given, hgiven, hname⟩ := mem_tagged.1 hticket
    exact ⟨by omega, ticket.1, ticket.2.1, ticket.2.2, given, hgiven, hname⟩

end Report

/-! ## Runs -/

/-- A range of the files fits a buffer if its size does. -/
theorem size_le_of_mem {ring : Ring} {files : List FileChunks}
    (hsizes : ∀ file ∈ files, ∀ size ∈ file.sizes, size ≤ ring.bufferSize) :
    ∀ range ∈ allRanges files, range.size ≤ ring.bufferSize := by
  intro range hrange
  obtain ⟨file, hfile, -, -, hsize⟩ := exists_file hrange
  exact hsizes file hfile _ (List.mem_of_getElem? hsize)

/--
The pipeline, for files with distinct ids and a ring whose buffers hold the largest range: every
run ends after a bounded number of steps, every state it reaches is as the report says, and every
buffer that is given to a submission comes from submissions that have retired.
-/
theorem get_chunks_contract (ring : Ring) (ordered : Bool) (files : List FileChunks)
    (hids : (files.map FileChunks.id).Nodup)
    (hsizes : ∀ file ∈ files, ∀ size ∈ file.sizes, size ≤ ring.bufferSize) :
    ∃ start, Stream.start ring ordered files = .ok start ∧
      ∀ (actions : List StreamAction) (s : Stream),
        run (streamStep ring) start actions = some s →
          StreamReport ring ordered files s ∧
          actions.length ≤ 13 * (keysOf files).length + 4 ∧
          ∀ action s', streamStep ring s action = some s' → ReusesRetired ring s s' := by
  obtain ⟨start, hstart, hok, hordered, hleft, hlibrary, hheld, hcontrol, hevents⟩ :=
    start_ok ring ordered hids
  have hfits := size_le_of_mem hsizes
  refine ⟨start, hstart, fun actions s hrun => ?_⟩
  have hstep : ∀ s action s', ((∃ requests, StreamOk ring files requests s) ∧
      s.order.ordered = ordered) → True → streamStep ring s action = some s' →
      ((∃ requests, StreamOk ring files requests s') ∧ s'.order.ordered = ordered) ∧
        s'.work < s.work := by
    intro s action s' ⟨⟨requests, h⟩, hmode⟩ _ hnext
    obtain ⟨requests', h'⟩ := h.step hfits hnext
    exact ⟨⟨⟨requests', h'⟩, (h.frame hfits hnext).1.trans hmode⟩, h.work_lt hfits hnext⟩
  have hwork : start.work = 13 * (keysOf files).length + 4 := by
    have hlength : (keysOf files).length = (allRanges files).length := by
      rw [← allKeys_eq, allKeys, List.length_map]
    unfold Stream.work
    rw [hleft, hlibrary, hheld, hcontrol, hevents, hlength, Nat.zero_sub]
    rfl
  have hinit : (∃ requests, StreamOk ring files requests start) ∧
      start.order.ordered = ordered := ⟨⟨[], hok⟩, hordered⟩
  have hbound := run_length_le hstep hinit (eachStep_of_forall fun _ _ => trivial) hrun
  obtain ⟨⟨requests, h⟩, hmode⟩ := run_invariant
    (fun s action s' h hnext => (hstep s action s' h trivial hnext).1) hinit hrun
  refine ⟨?_, ?_, fun action s' hnext => (h.frame hfits hnext).2⟩
  · have hreport := h.report hids
    rw [hmode] at hreport
    exact hreport
  · rw [← hwork]
    omega

/-- A device ring of two buffers of four bytes. -/
def twoBuffers : Ring where
  bufferSize := 4
  numBuffers := 2
  directBlock := 4096
  maxPads := 1
  kind := .device
  alloc := fun i => 4 * i
  buffers_pos := by decide
  block_pos := by decide

theorem emptyFile_parallel : ([] : List Nat).length = ([] : List Nat).length :=
  rfl

theorem lastFile_parallel : ([8] : List Nat).length = ([3] : List Nat).length :=
  rfl

/-- Three files, of which one has no ranges, with a range without bytes. -/
def threeFiles : List FileChunks :=
  [{ id := 3, path := "a", offsets := [0, 2, 2], sizes := [2, 0, 4], parallel := rfl },
    { id := 5, path := "b", offsets := [], sizes := [], parallel := emptyFile_parallel },
    { id := 4, path := "c", offsets := [8], sizes := [3], parallel := lastFile_parallel }]

/-- The contract for three files and a device ring. -/
theorem get_chunks_contract_threeFiles :
    ∃ start, Stream.start twoBuffers true threeFiles = .ok start ∧
      ∀ (actions : List StreamAction) (s : Stream),
        run (streamStep twoBuffers) start actions = some s →
          StreamReport twoBuffers true threeFiles s ∧
          actions.length ≤ 13 * (keysOf threeFiles).length + 4 ∧
          ∀ action s', streamStep twoBuffers s action = some s' →
            ReusesRetired twoBuffers s s' :=
  get_chunks_contract twoBuffers true threeFiles (by decide) (by decide)

end FileStreamer
end ModelStreamer
