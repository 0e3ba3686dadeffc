import ModelStreamer.FileStreamer.PipelineYield

/-!
# The steps of the pipeline

Main results:

- Theorem {lit}`StreamOk.step`: every step keeps the invariant.
- Theorem {lit}`StreamOk.retired_of_free`: whoever had a slot that is free has retired.
- Theorem {lit}`StreamOk.frame`: a step reuses retired buffers only.
-/

namespace ModelStreamer
namespace FileStreamer

open Distributed Lib

/-! ## The start -/

/-- A new stream is in order. -/
theorem start_ok (ring : Ring) (ordered : Bool) {files : List FileChunks}
    (hids : (files.map FileChunks.id).Nodup) :
    ∃ s, Stream.start ring ordered files = .ok s ∧ StreamOk ring files [] s ∧
      s.order.ordered = ordered ∧ rangesLeft s.iterator.q = allRanges files ∧ s.library = [] ∧
      s.held = [] ∧ s.control = .submitting [] ∧ s.events = 0 := by
  obtain ⟨table, htable, hordinals⟩ := ordinals_allRanges hids
  obtain ⟨hiterator, hleft⟩ := make_ok ring.bufferSize hids
  unfold Stream.start
  rw [htable]
  refine ⟨_, rfl, ⟨?_, ?_, ?_, ?_, ?_⟩, rfl, hleft, rfl, rfl, rfl, rfl⟩
  · refine ⟨fun _ h => absurd h List.not_mem_nil, fun _ h => absurd h List.not_mem_nil, ?_,
      fun _ h => absurd h List.not_mem_nil, hiterator, rfl, hleft, rfl, fun _ _ h => by simp at h,
      List.Perm.refl _, fun _ h => absurd h List.not_mem_nil⟩
    intro it hit
    obtain ⟨file, hfile, rfl⟩ := List.mem_map.1 hit
    exact hfile
  · refine ⟨List.nodup_nil, ?_, ?_, ?_, rfl, ?_⟩
    · intro k request
      simp
    · intro k n
      simp
    · intro k
      simp [IsLive]
    · intro k
      simp [IsLive]
  · refine ⟨rfl, rfl, ?_, ?_, rfl, ?_, ?_, ?_, ?_, ?_, ?_, ?_, List.nodup_nil⟩
    · simp [SlotPool.idle]
    · intro k i hk
      simp at hk
    · simp
    · intro i slot hslot
      simp only [List.getElem?_map, Option.map_eq_some_iff] at hslot
      obtain ⟨j, -, hj⟩ := hslot
      rw [← Option.some.inj hj]
    · intro k i request hk
      simp at hk
    · exact fun _ h => absurd h List.not_mem_nil
    · intro _ k hk
      simp at hk
    · exact fun _ h => absurd h List.not_mem_nil
    · exact fun _ h => absurd h List.not_mem_nil
  · refine ⟨?_, fun _ => rfl, List.nodup_nil, fun _ h => absurd h List.not_mem_nil,
      fun _ => List.not_mem_nil, fun _ => ⟨rfl, rfl⟩⟩
    intro k key hkey
    have hk := congrArg (fun xs : List (Option Nat) => xs[k]?) hordinals
    obtain ⟨range, hrange, rfl⟩ := List.getElem?_map ▸ hkey |> Option.map_eq_some_iff.1
    have hlt := (List.getElem?_eq_some_iff.1 hrange).1
    simp only [List.getElem?_map, hrange, List.getElem?_range hlt, Option.map_some] at hk
    exact Option.some.inj hk
  · refine .inl fun hnil => ?_
    have hlength := congrArg List.length hnil
    have hpos := ring.buffers_pos
    simp only [SlotPool.idle, List.map_nil, List.append_nil, List.length_range,
      List.length_nil] at hlength
    omega

/-! ## The steps -/

section Steps

variable {ring : Ring} {files : List FileChunks} {requests : List FilesRequest} {s s' : Stream}
  {action : StreamAction}

/-- Every step keeps the invariant. -/
theorem StreamOk.step (h : StreamOk ring files requests s)
    (hsizes : ∀ range ∈ allRanges files, range.size ≤ ring.bufferSize)
    (hstep : streamStep ring s action = some s') :
    ∃ requests', StreamOk ring files requests' s' := by
  unfold streamStep at hstep
  split at hstep
  case h_1 rest hcontrol =>
      cases hstep
      exact ⟨requests, h.submitting hcontrol⟩
  case h_2 event rest hcontrol =>
      split_ifs at hstep with hevent
      cases hstep
      exact ⟨requests, h.synchronized hcontrol hevent⟩
  case h_3 rest hcontrol =>
      cases hstep
      exact h.building hsizes hcontrol
  case h_4 payload rest hcontrol =>
      cases hstep
      exact ⟨requests, h.yields hcontrol⟩
  case h_5 hcontrol =>
      split_ifs at hstep with hlive
      · cases hstep
        exact ⟨requests, h.ends hcontrol hlive⟩
      · cases hstep
        exact ⟨requests, h.waits hcontrol hlive⟩
  case h_6 payload rest hcontrol =>
      cases hstep
      exact ⟨requests, h.resumed hcontrol⟩
  case h_7 k fileIndex rangeIndex hcontrol =>
      split at hstep
      · rename_i given hgiven
        split_ifs at hstep with hname
        cases hstep
        exact ⟨requests, h.received hcontrol hgiven hname⟩
      · cases hstep
  case h_8 event =>
      split_ifs at hstep with hevent
      cases hstep
      exact ⟨requests, h.completes hevent.1 hevent.2⟩
  case h_9 => cases hstep

/-! ## What the steps leave alone -/

/-- How far the stream is from its next yield, response or end. -/
def Control.rank : Control → Nat
  | .submitting _ => 4
  | .synchronizing _ _ => 3
  | .building _ => 2
  | .handing _ => 1
  | _ => 0

/-- The head of {lit}`_submit_while_buffers_free` changes the slots and the control only. -/
theorem submitting_eq (s : Stream) (rest : List Payload) :
    ∃ pool control, s.submitting rest = { s with pool, control } ∧
      control.payloads.length ≤ rest.length ∧ control.rank < 4 := by
  unfold Stream.submitting SlotPool.hasFree
  simp only [decide_eq_true_eq]
  split_ifs
  · exact ⟨_, .building rest, rfl, le_refl _, by simp [Control.rank]⟩
  · exact ⟨_, .handing rest, rfl, le_refl _, by simp [Control.rank]⟩
  · split
    · exact ⟨_, .failed .nothingPending, rfl, Nat.zero_le _, by decide⟩
    · exact ⟨_, .synchronizing _ rest, rfl, le_refl _, by simp [Control.rank]⟩

/-- A payload that arrives does not change the mode. -/
theorem arrived_ordered {order order' : YieldOrder} {payload : Payload} {ready : List Payload}
    (h : order.arrived payload = .ok (ready, order')) : order'.ordered = order.ordered := by
  unfold YieldOrder.arrived at h
  split_ifs at h
  · split at h
    · cases h
    · cases h
      rfl
  · cases h
    rfl

/-- A response changes the counts, the order and the control only. -/
theorem received_eq (s : Stream) (k fileIndex rangeIndex : Nat) (done : Bool) :
    ∃ reportedDone order control, s.received k fileIndex rangeIndex done =
        { s with outstanding := s.outstanding - 1, reportedDone, order, control } ∧
      order.ordered = s.order.ordered ∧ control.rank ≤ 1 := by
  unfold Stream.received
  cases done
  all_goals
    simp only [Bool.false_eq_true, if_false, if_true]
    split
    · exact ⟨_, _, .failed _, rfl, rfl, Nat.zero_le _⟩
    · split
      · exact ⟨_, _, .failed _, rfl, rfl, Nat.zero_le _⟩
      · split
        · exact ⟨_, _, .failed _, rfl, rfl, Nat.zero_le _⟩
        · rename_i harrived
          exact ⟨_, _, .handing _, rfl, arrived_ordered harrived, le_refl _⟩

/-- What a resumption with some ranges still to be handed over leaves alone. -/
structure Resumes (s s' : Stream) (rest : List Payload) : Prop where
  iterator : s'.iterator = s.iterator
  order : s'.order = s.order
  library : s'.library = s.library
  slotOf : s'.slotOf = s.slotOf
  completed : s'.completed = s.completed
  events_le : s'.events ≤ s.events + 1
  payloads_le : s'.control.payloads.length ≤ rest.length
  rank_le : s'.control.rank ≤ 4

/-- A release changes the slots only. -/
theorem release_eq {k : Nat} {event : Option Nat} (h : s.release ring k event = .ok s') :
    ∃ pool buffers guards, s' = { s with pool, buffers, guards } := by
  unfold Stream.release at h
  split at h
  · cases h
  · split_ifs at h
    split at h
    · cases h
    · cases h
      exact ⟨_, _, _, rfl⟩

/-- A retirement leaves the library and the order alone. -/
theorem retire_resumes (ring : Ring) (s : Stream) (k : Nat) (rest : List Payload) :
    Resumes s (s.retire ring k rest) rest := by
  have hevents : s.events + (if ring.kind.reuseNeedsEvent = true then some s.events
      else none).toList.length ≤ s.events + 1 := by
    split_ifs
    · exact le_refl _
    · exact Nat.le_succ _
  unfold Stream.retire
  by_cases hdone : k ∉ s.reportedDone
  · rw [if_pos hdone]
    exact ⟨rfl, rfl, rfl, rfl, rfl, Nat.le_succ _, Nat.zero_le _, Nat.zero_le _⟩
  · rw [if_neg hdone]
    simp only
    split
    · exact ⟨rfl, rfl, rfl, rfl, rfl, hevents, Nat.zero_le _, Nat.zero_le _⟩
    · rename_i hreleased
      obtain ⟨pool, buffers, guards, rfl⟩ := release_eq hreleased
      exact ⟨rfl, rfl, rfl, rfl, rfl, hevents, le_refl _, le_refl _⟩

/-- A resumption leaves the library and the order alone. -/
theorem resumed_resumes (ring : Ring) (s : Stream) (payload : Payload) (rest : List Payload) :
    Resumes s (s.resumed ring payload rest) rest := by
  unfold Stream.resumed
  simp only
  split_ifs
  · obtain ⟨hiterator, horder, hlibrary, hslotOf, hcompleted, hevents, hpayloads, hrank⟩ :=
      retire_resumes ring { s with
        consumed := s.consumed ++ [payload]
        rangesNotYielded := s.rangesNotYielded.update payload.submission (· - 1) }
        payload.submission rest
    exact ⟨hiterator, horder, hlibrary, hslotOf, hcompleted, hevents, hpayloads, hrank⟩
  · exact ⟨rfl, rfl, rfl, rfl, rfl, Nat.le_succ _, le_refl _, by simp [Control.rank]⟩

end Steps

/-! ## Reuse of a buffer -/

section Reuse

variable {ring : Ring} {files : List FileChunks} {requests : List FilesRequest} {s s' : Stream}
  {action : StreamAction}

/--
Every range of a submission was handed over and the consumer resumed, and on a device ring the
event of its release has completed.
-/
def Retired (ring : Ring) (s : Stream) (k : Nat) : Prop :=
  (∃ given, s.library[k]? = some given ∧ s.handedOver k = given.sizes.length) ∧
    (ring.kind.reuseNeedsEvent = true → ∃ event, (k, event) ∈ s.guards ∧ event ∈ s.completed)

/-- A step gives no buffer away, or it gives one whose earlier submissions have all retired. -/
def ReusesRetired (ring : Ring) (s s' : Stream) : Prop :=
  s'.slotOf = s.slotOf ∨ ∃ i, s'.slotOf = s.slotOf ++ [i] ∧
    ∀ k : Nat, s.slotOf[k]? = some i → Retired ring s k

/-- A submission has as many sizes as ranges. -/
theorem length_sizes {request : FilesRequest} (h : RequestOk request) :
    request.submission.sizes.length = request.numRanges := by
  rw [h.numRanges_eq]
  change (request.files.flatMap FileChunks.sizes).length = _
  rw [List.length_flatMap]

/-- Whoever had a slot that is free has retired. -/
theorem StreamOk.retired_of_free (h : StreamOk ring files requests s) {index k : Nat}
    (hfree : index ∈ s.pool.free) (hslot : s.slotOf[k]? = some index) : Retired ring s k := by
  have hidle : index ∈ s.pool.idle := List.mem_append_left _ hfree
  have hlt : k < requests.length := by
    rw [← h.pool.slotOf_length]
    exact (List.getElem?_eq_some_iff.1 hslot).1
  have hbuffer : s.buffers[k]? = some none := by
    have hlt' : k < s.buffers.length := by
      rw [h.pool.buffers_length]
      exact hlt
    cases hentry : s.buffers[k] with
    | none => rw [List.getElem?_eq_getElem hlt', hentry]
    | some i =>
        have hused : s.buffers[k]? = some (some i) := by
          rw [List.getElem?_eq_getElem hlt', hentry]
        have hsame := h.pool.slotOf_eq k i hused
        rw [hslot] at hsame
        rw [← Option.some.inj hsame] at hused
        exact absurd hidle (h.pool.not_mem_idle hused)
  refine ⟨?_, fun hdevice => ?_⟩
  · have hrequest := List.getElem?_eq_getElem hlt
    obtain ⟨unanswered, hgiven⟩ := h.core.library_eq k _ hrequest
    refine ⟨_, hgiven, ?_⟩
    have hcount := h.core.count_eq hrequest hgiven
    have hnot : ¬ IsLive requests s k := by
      intro hlive
      obtain ⟨i, hi⟩ := (h.count.buffers_iff k).2 hlive
      rw [hbuffer] at hi
      cases hi
    have hge : requests[k].numRanges ≤ s.handedOver k := by
      by_contra hless
      exact hnot ⟨requests[k], hrequest, by omega⟩
    change s.handedOver k = requests[k].submission.sizes.length
    rw [length_sizes (h.core.requestsOk _ (List.mem_of_getElem? hrequest))]
    omega
  · obtain ⟨event, hevent⟩ := h.pool.guarded hdevice k hbuffer
    refine ⟨event, hevent, ?_⟩
    cases h.pool.guards _ hevent with
    | inl hdone => exact hdone
    | inr hpending =>
        obtain ⟨i, hi, hmem⟩ := hpending
        rw [hslot] at hi
        rw [← Option.some.inj hi] at hmem
        have hnodup := (List.nodup_append'.1 h.pool.nodup).1
        have hdisjoint := (List.nodup_append'.1 hnodup).2.2
        exact absurd (List.mem_map.2 ⟨_, hmem, rfl⟩) (hdisjoint hfree)

/-- A step keeps the mode, and it reuses retired buffers only. -/
theorem StreamOk.frame (h : StreamOk ring files requests s)
    (hsizes : ∀ range ∈ allRanges files, range.size ≤ ring.bufferSize)
    (hstep : streamStep ring s action = some s') :
    s'.order.ordered = s.order.ordered ∧ ReusesRetired ring s s' := by
  unfold streamStep at hstep
  split at hstep
  case h_1 rest hcontrol =>
      cases hstep
      obtain ⟨pool, control, heq, -⟩ := submitting_eq s rest
      rw [heq]
      exact ⟨rfl, .inl rfl⟩
  case h_2 event rest hcontrol =>
      split_ifs at hstep
      cases hstep
      exact ⟨rfl, .inl rfl⟩
  case h_3 rest hcontrol =>
      cases hstep
      cases h.building_cases hsizes hcontrol with
      | inl hnone =>
          obtain ⟨iterator, -, -, -, -, -, hbuilt⟩ := hnone
          rw [hbuilt]
          exact ⟨rfl, .inl rfl⟩
      | inr hsome =>
          obtain ⟨request, index, slot, iterator, pool, hsubmits, hbuilt⟩ := hsome
          rw [hbuilt]
          refine ⟨rfl, .inr ⟨index, rfl, fun k hk => ?_⟩⟩
          have hfree : index ∈ (s.pool.sweepPending s.completed).free := by
            rw [(take_spec hsubmits.takes).1]
            exact List.mem_cons_self
          exact (h.swept hcontrol).retired_of_free hfree hk
  case h_4 payload rest hcontrol =>
      cases hstep
      exact ⟨rfl, .inl rfl⟩
  case h_5 hcontrol =>
      split_ifs at hstep
      · cases hstep
        exact ⟨rfl, .inl rfl⟩
      · cases hstep
        exact ⟨rfl, .inl rfl⟩
  case h_6 payload rest hcontrol =>
      cases hstep
      have hresumes := resumed_resumes ring s payload rest
      exact ⟨congrArg YieldOrder.ordered hresumes.order, .inl hresumes.slotOf⟩
  case h_7 k fileIndex rangeIndex hcontrol =>
      split at hstep
      · split_ifs at hstep
        cases hstep
        obtain ⟨reportedDone, order, control, heq, hordered, -⟩ :=
          received_eq _ k fileIndex rangeIndex _
        rw [heq]
        exact ⟨hordered, .inl rfl⟩
      · cases hstep
  case h_8 event =>
      split_ifs at hstep
      cases hstep
      exact ⟨rfl, .inl rfl⟩
  case h_9 => cases hstep

end Reuse

end FileStreamer
end ModelStreamer
