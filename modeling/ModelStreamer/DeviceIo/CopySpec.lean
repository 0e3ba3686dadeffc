import ModelStreamer.DeviceIo.CopyPath
import ModelStreamer.Lib.Queues

/-!
# What the copy path gives back

A copy is in the queue of a lane, in the queue of a waiter, or settled.  A settled copy gave its
buffer back once, its event once if it had one, and was then reported once.  The {lit}`write`
that handed a copy over may return before the copy is reported, or after.

Main results:

- Theorem {lit}`clientWrite_spec`: a write hands the copy to the waiter or unwinds it.
- Theorem {lit}`copyPath_contract`: this holds for every copy in every run.
-/

namespace ModelStreamer
namespace DeviceIo

open Common Lib Streamer

/-! ## Traces -/

/-- The buffer is given back, released or retired. -/
def CopyEffect.givesBackBuffer : CopyEffect → Bool
  | .released _ _ => true
  | .retired _ _ _ => true
  | _ => false

def CopyEffect.isRetire : CopyEffect → Bool
  | .retired _ _ _ => true
  | _ => false

def CopyEffect.isAcquire : CopyEffect → Bool
  | .acquired _ => true
  | _ => false

/-- This event is acquired. -/
def CopyEffect.acquires (event : Nat) : CopyEffect → Bool
  | .acquired other => other = event
  | _ => false

/-- This event is given back. -/
def CopyEffect.givesBackEvent (event : Nat) : CopyEffect → Bool
  | .eventReleased other => other = event
  | _ => false

def CopyEffect.isEnqueue : CopyEffect → Bool
  | .enqueued _ _ _ => true
  | _ => false

/-- The end of the copy is confirmed. -/
def CopyEffect.confirms : CopyEffect → Bool
  | .drained => true
  | .waited _ => true
  | _ => false

def CopyEffect.isReport : CopyEffect → Bool
  | .reported _ => true
  | _ => false

def CopyEffect.isReturn : CopyEffect → Bool
  | .returned _ => true
  | _ => false

/--
The buffer went back exactly once, retired if and only if the copy was enqueued and its end
never confirmed; an event that was acquired went back exactly once.
-/
structure GivenBack (t : List CopyEffect) : Prop where
  buffer_once : t.countP CopyEffect.givesBackBuffer = 1
  retired_iff : t.any CopyEffect.isRetire =
    (t.any CopyEffect.isEnqueue && !t.any CopyEffect.confirms)
  one_event : t.countP CopyEffect.isAcquire ≤ 1
  event_once : ∀ event, t.countP (CopyEffect.givesBackEvent event) =
    t.countP (CopyEffect.acquires event)

/-- The outcome was told once: by a report, or by the value a worker's call returned. -/
def ToldOnce (t : List CopyEffect) : CopyKind → Prop
  | .submitted => t.countP CopyEffect.isReport = 1 ∧ t.countP CopyEffect.isReturn = 0
  | .written => t.countP CopyEffect.isReturn = 1 ∧
      ((∃ code, code ≠ .success ∧ .returned code ∈ t ∧ t.countP CopyEffect.isReport = 0) ∨
        (.returned .success ∈ t ∧ t.countP CopyEffect.isReport = 1))

/-- The effect tells the outcome: a report, or a call that returns a failure. -/
def CopyEffect.TellsOutcome : CopyEffect → Prop
  | .reported _ => True
  | .returned code => code ≠ .success
  | _ => False

/-- Everything that was done for a copy that is finished. -/
structure Settled (kind : CopyKind) (t : List CopyEffect) : Prop extends GivenBack t where
  told_once : ToldOnce t kind
  /-- Only the return of a call that succeeded can come after the outcome was told. -/
  told_last : ∃ before outcome after, t = before ++ outcome :: after ∧ outcome.TellsOutcome ∧
    GivenBack before ∧ ∀ effect ∈ after, effect = .returned .success
  landed : .reported .success ∈ t → ∃ destination skip bytesize event,
    [.enqueued destination skip bytesize, .recorded event, .waited event,
      .reported .success].Sublist t

/-- What was done for a copy that its waiter holds. -/
def HandedOver (kind : CopyKind) (event : Nat) (t : List CopyEffect) : Prop :=
  ∃ destination skip bytesize,
    t = [.acquired event, .enqueued destination skip bytesize, .recorded event] ++
      (match kind with
        | .submitted => []
        | .written => [.returned .success])

/-- What a write that fails did. -/
structure Unwound (effects : List CopyEffect) : Prop extends GivenBack effects where
  silent : ∀ effect ∈ effects, effect.isReport = false ∧ effect.isReturn = false

/-- A report adds nothing to what was given back. -/
theorem givenBack_concat {t : List CopyEffect} {effect : CopyEffect}
    (htold : effect.isReport = true ∨ effect.isReturn = true) :
    GivenBack (t ++ [effect]) ↔ GivenBack t := by
  have hsame : (t ++ [effect]).countP CopyEffect.givesBackBuffer =
        t.countP CopyEffect.givesBackBuffer ∧
      (t ++ [effect]).any CopyEffect.isRetire = t.any CopyEffect.isRetire ∧
      (t ++ [effect]).any CopyEffect.isEnqueue = t.any CopyEffect.isEnqueue ∧
      (t ++ [effect]).any CopyEffect.confirms = t.any CopyEffect.confirms ∧
      (t ++ [effect]).countP CopyEffect.isAcquire = t.countP CopyEffect.isAcquire ∧
      ∀ event, (t ++ [effect]).countP (CopyEffect.givesBackEvent event) =
          t.countP (CopyEffect.givesBackEvent event) ∧
        (t ++ [effect]).countP (CopyEffect.acquires event) =
          t.countP (CopyEffect.acquires event) := by
    cases effect with
    | reported code =>
        simp [CopyEffect.givesBackBuffer, CopyEffect.isRetire, CopyEffect.isEnqueue,
          CopyEffect.confirms, CopyEffect.isAcquire, CopyEffect.givesBackEvent,
          CopyEffect.acquires]
    | returned code =>
        simp [CopyEffect.givesBackBuffer, CopyEffect.isRetire, CopyEffect.isEnqueue,
          CopyEffect.confirms, CopyEffect.isAcquire, CopyEffect.givesBackEvent,
          CopyEffect.acquires]
    | _ => simp [CopyEffect.isReport, CopyEffect.isReturn] at htold
  obtain ⟨hbuffer, hretire, henqueue, hconfirm, hacquire, hevent⟩ := hsame
  constructor
  · intro h
    exact ⟨hbuffer ▸ h.buffer_once,
      by rw [← hretire, ← henqueue, ← hconfirm]; exact h.retired_iff, hacquire ▸ h.one_event,
      fun event => by rw [← (hevent event).1, ← (hevent event).2]; exact h.event_once event⟩
  · intro h
    exact ⟨hbuffer.trans h.buffer_once,
      by rw [hretire, henqueue, hconfirm]; exact h.retired_iff, hacquire.trans_le h.one_event,
      fun event => by rw [(hevent event).1, (hevent event).2]; exact h.event_once event⟩

/-- Nothing was told while a write unwound. -/
theorem Unwound.countP_eq_zero {t : List CopyEffect} (h : Unwound t) :
    t.countP CopyEffect.isReport = 0 ∧ t.countP CopyEffect.isReturn = 0 := by
  constructor
  · apply List.countP_eq_zero.2
    intro effect heffect
    simp [(h.silent effect heffect).1]
  · apply List.countP_eq_zero.2
    intro effect heffect
    simp [(h.silent effect heffect).2]

/-- A copy that was unwound and whose failure was reported. -/
theorem Unwound.reported {t : List CopyEffect} (h : Unwound t) {code : ResponseCode}
    (hcode : code ≠ .success) : Settled .submitted (t ++ [.reported code]) := by
  obtain ⟨hreport, hreturn⟩ := h.countP_eq_zero
  refine ⟨(givenBack_concat (.inl rfl)).2 h.toGivenBack, ⟨?_, ?_⟩,
    ⟨t, .reported code, [], rfl, trivial, h.toGivenBack, by simp⟩, ?_⟩
  · rw [List.countP_append, hreport]
    rfl
  · rw [List.countP_append, hreturn]
    rfl
  · intro hmem
    rcases List.mem_append.1 hmem with hold | hnew
    · have hsilent := (h.silent _ hold).1
      simp [CopyEffect.isReport] at hsilent
    · rw [List.mem_singleton] at hnew
      exact absurd (CopyEffect.reported.inj hnew).symm hcode

/-- A copy that was unwound and whose failure the call returned. -/
theorem Unwound.returned {t : List CopyEffect} (h : Unwound t) {code : ResponseCode}
    (hcode : code ≠ .success) : Settled .written (t ++ [.returned code]) := by
  obtain ⟨hreport, hreturn⟩ := h.countP_eq_zero
  refine ⟨(givenBack_concat (.inr rfl)).2 h.toGivenBack, ⟨?_, .inl ⟨code, hcode, ?_, ?_⟩⟩,
    ⟨t, .returned code, [], rfl, hcode, h.toGivenBack, by simp⟩, ?_⟩
  · rw [List.countP_append, hreturn]
    rfl
  · simp
  · rw [List.countP_append, hreport]
    rfl
  · intro hmem
    rcases List.mem_append.1 hmem with hold | hnew
    · have hsilent := (h.silent _ hold).1
      simp [CopyEffect.isReport] at hsilent
    · rw [List.mem_singleton] at hnew
      cases hnew

/-- A copy for which everything was given back and that was then reported. -/
theorem Settled.ofReport {kind : CopyKind} {t : List CopyEffect} {code : ResponseCode}
    (hback : GivenBack t) (htold : ToldOnce (t ++ [.reported code]) kind)
    (hlanded : .reported .success ∈ t ++ [.reported code] →
      ∃ destination skip bytesize event,
        [.enqueued destination skip bytesize, .recorded event, .waited event,
          .reported .success].Sublist (t ++ [.reported code])) :
    Settled kind (t ++ [.reported code]) :=
  ⟨(givenBack_concat (.inl rfl)).2 hback, htold,
    ⟨t, .reported code, [], rfl, trivial, hback, by simp⟩, hlanded⟩

/-- The call that handed a copy over returns after the copy was reported. -/
theorem Settled.returns {t : List CopyEffect} (h : Settled .submitted t) :
    Settled .written (t ++ [.returned .success]) := by
  obtain ⟨hreport, hreturn⟩ := h.told_once
  obtain ⟨before, outcome, after, heq, htells, hback, hafter⟩ := h.told_last
  refine ⟨(givenBack_concat (.inr rfl)).2 h.toGivenBack, ⟨?_, .inr ⟨by simp, ?_⟩⟩,
    ⟨before, outcome, after ++ [.returned .success], by simp [heq], htells, hback, ?_⟩, ?_⟩
  · rw [List.countP_append, hreturn]
    rfl
  · rw [List.countP_append, hreport]
    rfl
  · intro effect heffect
    rcases List.mem_append.1 heffect with hold | hnew
    · exact hafter effect hold
    · exact List.mem_singleton.1 hnew
  · intro hmem
    rcases List.mem_append.1 hmem with hold | hnew
    · obtain ⟨destination, skip, bytesize, event, hsub⟩ := h.landed hold
      exact ⟨destination, skip, bytesize, event,
        hsub.trans (List.sublist_append_left t [.returned .success])⟩
    · rw [List.mem_singleton] at hnew
      cases hnew

/-- The waiter settles a copy whose event it waited for. -/
theorem HandedOver.landed {kind : CopyKind} {event : Nat} {t : List CopyEffect}
    (h : HandedOver kind event t) (pool : Nat) (buffer : StagingBuffer) :
    Settled kind (t ++ [.waited event, .eventReleased event, .released pool buffer,
      .reported .success]) := by
  rw [show t ++ [.waited event, .eventReleased event, .released pool buffer,
      CopyEffect.reported .success] =
    (t ++ [.waited event, .eventReleased event, .released pool buffer]) ++
      [.reported .success] by simp]
  obtain ⟨destination, skip, bytesize, rfl⟩ := h
  cases kind with
  | submitted =>
      refine .ofReport ⟨rfl, rfl, Nat.le_refl 1, fun other => ?_⟩ ⟨rfl, rfl⟩
        fun _ => ⟨destination, skip, bytesize, event, by simp⟩
      simp [CopyEffect.givesBackEvent, CopyEffect.acquires, List.countP_cons]
  | written =>
      refine .ofReport ⟨rfl, rfl, Nat.le_refl 1, fun other => ?_⟩
        ⟨rfl, .inr ⟨by simp, rfl⟩⟩ fun _ => ⟨destination, skip, bytesize, event, by simp⟩
      simp [CopyEffect.givesBackEvent, CopyEffect.acquires, List.countP_cons]

/-- The waiter settles a copy that it could not wait for. -/
theorem HandedOver.lost {kind : CopyKind} {event : Nat} {t : List CopyEffect}
    (h : HandedOver kind event t) (pool : Nat) (buffer : StagingBuffer) :
    Settled kind (t ++ [.eventReleased event, .retired pool buffer .deviceDriverError,
      .reported .deviceDriverError]) := by
  rw [show t ++ [.eventReleased event, .retired pool buffer .deviceDriverError,
      CopyEffect.reported .deviceDriverError] =
    (t ++ [.eventReleased event, .retired pool buffer .deviceDriverError]) ++
      [.reported .deviceDriverError] by simp]
  obtain ⟨destination, skip, bytesize, rfl⟩ := h
  cases kind with
  | submitted =>
      refine .ofReport ⟨rfl, rfl, Nat.le_refl 1, fun other => ?_⟩ ⟨rfl, rfl⟩
        fun hmem => by simp at hmem
      simp [CopyEffect.givesBackEvent, CopyEffect.acquires, List.countP_cons]
  | written =>
      refine .ofReport ⟨rfl, rfl, Nat.le_refl 1, fun other => ?_⟩
        ⟨rfl, .inr ⟨by simp, rfl⟩⟩ fun hmem => by simp at hmem
      simp [CopyEffect.givesBackEvent, CopyEffect.acquires, List.countP_cons]

/-! ## Where the copies are -/

/--
The copies by where they are, the calls of {lit}`write` that have not returned, and what was
done for each copy.
-/
structure CopyView where
  kinds : List CopyKind
  log : List (Nat × CopyEffect)
  issuing : List CopyRequest
  waiting : List Entry
  inWrite : List (Nat × ResponseCode)

/-- What was done for one copy. -/
def CopyView.trace (v : CopyView) (id : Nat) : List CopyEffect :=
  (v.log.filter fun item => item.1 = id).map Prod.snd

/-- The copies in the queues. -/
def CopyView.queued (v : CopyView) : List Nat :=
  v.issuing.map CopyRequest.id ++ v.waiting.map Entry.id

/-- The log after something was done for a copy. -/
def CopyView.record (v : CopyView) (id : Nat) (effects : List CopyEffect) : CopyView :=
  { v with log := v.log ++ effects.map fun effect => (id, effect) }

@[simp]
theorem CopyView.trace_record_self (v : CopyView) (id : Nat) (effects : List CopyEffect) :
    (v.record id effects).trace id = v.trace id ++ effects := by
  simp [CopyView.trace, CopyView.record, List.filter_map, Function.comp_def]

theorem CopyView.trace_record_of_ne (v : CopyView) {id other : Nat}
    (effects : List CopyEffect) (hne : other ≠ id) :
    (v.record id effects).trace other = v.trace other := by
  simp [CopyView.trace, CopyView.record, List.filter_map, Function.comp_def, Ne.symm hne]

/-- Who was told of a copy so far: a call that has not returned told nobody. -/
def toldKind (calls : List (Nat × ResponseCode)) (id : Nat) (kind : CopyKind) : CopyKind :=
  if id ∈ calls.map Prod.fst then .submitted else kind

/--
The copy is settled.  A call that has not returned has unwound its copy if it is to return a
failure; if it is to return success, the copy was reported as one that was submitted.
-/
structure Outcome (calls : List (Nat × ResponseCode)) (id : Nat) (kind : CopyKind)
    (t : List CopyEffect) : Prop where
  unwound : ∀ code, (id, code) ∈ calls → code ≠ .success → Unwound t
  settled : (∀ code, (id, code) ∈ calls → code = .success) →
    Settled (toldKind calls id kind) t

section Calls

variable {calls calls' : List (Nat × ResponseCode)} {id : Nat}

theorem toldKind_of_mem {code : ResponseCode} (h : (id, code) ∈ calls) (kind : CopyKind) :
    toldKind calls id kind = .submitted :=
  if_pos (List.mem_map_of_mem h)

theorem toldKind_of_not_mem (h : id ∉ calls.map Prod.fst) (kind : CopyKind) :
    toldKind calls id kind = kind :=
  if_neg h

/-- Only the calls for the copy matter. -/
theorem toldKind_congr (h : ∀ code, (id, code) ∈ calls ↔ (id, code) ∈ calls')
    (kind : CopyKind) : toldKind calls id kind = toldKind calls' id kind := by
  have hiff : id ∈ calls.map Prod.fst ↔ id ∈ calls'.map Prod.fst := by
    simp [h]
  unfold toldKind
  simp only [hiff]

theorem Outcome.congr (h : ∀ code, (id, code) ∈ calls ↔ (id, code) ∈ calls')
    {kind : CopyKind} {t : List CopyEffect} (houtcome : Outcome calls id kind t) :
    Outcome calls' id kind t where
  unwound := fun code hcode => houtcome.unwound code ((h code).2 hcode)
  settled := fun hsuccess => by
    rw [← toldKind_congr h kind]
    exact houtcome.settled fun code hcode => hsuccess code ((h code).1 hcode)

/-- The other copies have the same calls before and after one begins or returns. -/
theorem mem_calls_iff {other : Nat} {code : ResponseCode}
    (hperm : calls'.Perm ((id, code) :: calls)) (hne : other ≠ id) (code' : ResponseCode) :
    (other, code') ∈ calls ↔ (other, code') ∈ calls' := by
  rw [hperm.mem_iff, List.mem_cons, Prod.mk.injEq]
  simp [hne]

end Calls

/--
Every copy is in one queue at most, with the trace of that queue, or settled.  The copies in
{lit}`held` are in the hands of a thread.
-/
structure CopyInv (held : List Nat) (v : CopyView) : Prop where
  nodup : (held ++ v.queued).Nodup
  held_lt : ∀ id ∈ held, id < v.kinds.length
  calls_nodup : (v.inWrite.map Prod.fst).Nodup
  calls_written : ∀ id code, (id, code) ∈ v.inWrite → v.kinds[id]? = some .written
  calls_waiting : ∀ copy ∈ v.waiting, ∀ code, (copy.id, code) ∈ v.inWrite → code = .success
  issuing : ∀ request ∈ v.issuing,
    v.kinds[request.id]? = some .submitted ∧ v.trace request.id = []
  waiting : ∀ copy ∈ v.waiting, ∃ kind, v.kinds[copy.id]? = some kind ∧
    HandedOver (toldKind v.inWrite copy.id kind) copy.event (v.trace copy.id)
  settled : ∀ id kind, v.kinds[id]? = some kind → id ∉ held → id ∉ v.queued →
    Outcome v.inWrite id kind (v.trace id)
  logged : ∀ item ∈ v.log, item.1 < v.kinds.length

section Moves

variable {v : CopyView}

/-- A queued copy is known. -/
theorem CopyInv.queued_lt {held : List Nat} (h : CopyInv held v) {id : Nat}
    (hid : id ∈ v.queued) : id < v.kinds.length := by
  rcases List.mem_append.1 hid with hissuing | hwaiting
  · obtain ⟨request, hrequest, rfl⟩ := List.mem_map.1 hissuing
    exact (List.getElem?_eq_some_iff.1 (h.issuing request hrequest).1).1
  · obtain ⟨copy, hcopy, rfl⟩ := List.mem_map.1 hwaiting
    obtain ⟨kind, hkind, -⟩ := h.waiting copy hcopy
    exact (List.getElem?_eq_some_iff.1 hkind).1

/-- A new copy is in the hands of the thread that was given it, and has no trace. -/
theorem CopyInv.new (h : CopyInv [] v) (kind : CopyKind) :
    CopyInv [v.kinds.length] { v with kinds := v.kinds ++ [kind] } ∧
      v.trace v.kinds.length = [] ∧ v.kinds.length ∉ v.inWrite.map Prod.fst := by
  have hknown : ∀ {id : Nat} {k : CopyKind}, v.kinds[id]? = some k →
      (v.kinds ++ [kind])[id]? = some k := by
    intro id k hk
    rw [List.getElem?_append_left (List.getElem?_eq_some_iff.1 hk).1]
    exact hk
  refine ⟨⟨?_, by simp, h.calls_nodup, ?_, h.calls_waiting, ?_, ?_, ?_, ?_⟩, ?_, ?_⟩
  · refine List.nodup_cons.2 ⟨fun hmem => ?_, h.nodup⟩
    exact absurd (h.queued_lt hmem) (Nat.lt_irrefl _)
  · intro id code hcall
    exact hknown (h.calls_written id code hcall)
  · intro request hrequest
    exact ⟨hknown (h.issuing request hrequest).1, (h.issuing request hrequest).2⟩
  · intro copy hcopy
    obtain ⟨k, hk, hover⟩ := h.waiting copy hcopy
    exact ⟨k, hknown hk, hover⟩
  · intro id k hk hheld hqueued
    have hne : id ≠ v.kinds.length := fun heq => hheld (by simp [heq])
    have hlt := (List.getElem?_eq_some_iff.1 hk).1
    rw [List.length_append, List.length_singleton] at hlt
    refine h.settled id k ?_ (by simp) hqueued
    rwa [List.getElem?_append_left (by omega)] at hk
  · intro item hitem
    have hlt := h.logged item hitem
    rw [List.length_append]
    omega
  · simp only [CopyView.trace, List.map_eq_nil_iff, List.filter_eq_nil_iff, decide_eq_true_eq]
    intro item hitem heq
    have hlt := h.logged item hitem
    omega
  · intro hmem
    obtain ⟨⟨id, code⟩, hcall, heq⟩ := List.mem_map.1 hmem
    have hlt := (List.getElem?_eq_some_iff.1 (h.calls_written id code hcall)).1
    exact absurd heq hlt.ne

/-- What is done for the copy in hand changes no other trace. -/
theorem CopyInv.trace_other {id : Nat} (h : CopyInv [id] v) (effects : List CopyEffect)
    {other : Nat} (hother : other ∈ v.queued) :
    (v.record id effects).trace other = v.trace other := by
  refine v.trace_record_of_ne effects ?_
  rintro rfl
  exact (List.nodup_cons.1 h.nodup).1 hother

/-- What is done for a known copy is logged under its number. -/
theorem CopyInv.logged_record {held : List Nat} (h : CopyInv held v) {id : Nat}
    (hid : id < v.kinds.length) (effects : List CopyEffect) :
    ∀ item ∈ (v.record id effects).log, item.1 < v.kinds.length := by
  intro item hitem
  rcases List.mem_append.1 hitem with hold | hnew
  · exact h.logged item hold
  · obtain ⟨effect, -, rfl⟩ := List.mem_map.1 hnew
    exact hid

/-- The copy in hand is settled. -/
theorem CopyInv.settle {id : Nat} (h : CopyInv [id] v) {kind : CopyKind}
    (hkind : v.kinds[id]? = some kind) {effects : List CopyEffect}
    (houtcome : Outcome v.inWrite id kind (v.trace id ++ effects)) :
    CopyInv [] (v.record id effects) := by
  refine ⟨(List.nodup_cons.1 h.nodup).2, by simp, h.calls_nodup, h.calls_written,
    h.calls_waiting, ?_, ?_, ?_, h.logged_record (h.held_lt id (by simp)) effects⟩
  · intro request hrequest
    rw [h.trace_other effects (List.mem_append_left _ (List.mem_map_of_mem hrequest))]
    exact h.issuing request hrequest
  · intro copy hcopy
    rw [h.trace_other effects (List.mem_append_right _ (List.mem_map_of_mem hcopy))]
    exact h.waiting copy hcopy
  · intro other k hk _ hout
    by_cases heq : other = id
    · subst heq
      obtain rfl := Option.some.inj (hkind.symm.trans hk)
      rw [CopyView.trace_record_self]
      exact houtcome
    · rw [v.trace_record_of_ne effects heq]
      exact h.settled other k hk (by simp [heq]) hout

/-- No call waits for a copy that was submitted. -/
theorem CopyInv.not_mem_calls {held : List Nat} (h : CopyInv held v) {id : Nat}
    (hkind : v.kinds[id]? = some .submitted) (code : ResponseCode) : (id, code) ∉ v.inWrite := by
  intro hcall
  have hwritten := h.calls_written id code hcall
  rw [hkind] at hwritten
  cases hwritten

/-- The copy in hand was submitted, and is settled. -/
theorem CopyInv.settleSubmitted {id : Nat} (h : CopyInv [id] v)
    (hkind : v.kinds[id]? = some .submitted) {effects : List CopyEffect}
    (hsettled : Settled .submitted (v.trace id ++ effects)) :
    CopyInv [] (v.record id effects) := by
  apply h.settle hkind
  refine ⟨fun code hcall => absurd hcall (h.not_mem_calls hkind code), fun _ => ?_⟩
  rw [show toldKind v.inWrite id .submitted = .submitted from ite_self _]
  exact hsettled

/-- The copy in hand joins the queue of a waiter. -/
theorem CopyInv.putWaiting {copy : Entry} (h : CopyInv [copy.id] v) {kind : CopyKind}
    (hkind : v.kinds[copy.id]? = some kind)
    (hcalls : ∀ code, (copy.id, code) ∈ v.inWrite → code = .success)
    {effects : List CopyEffect} (hover : HandedOver (toldKind v.inWrite copy.id kind) copy.event
      (v.trace copy.id ++ effects)) {waiting : List Entry}
    (hperm : waiting.Perm (copy :: v.waiting)) :
    CopyInv [] (CopyView.record { v with waiting } copy.id effects) := by
  have hqueued : (CopyView.queued { v with waiting }).Perm (copy.id :: v.queued) :=
    ((hperm.map Entry.id).append_left _).trans List.perm_middle
  have htrace : ∀ id, (CopyView.record { v with waiting } copy.id effects).trace id =
      (v.record copy.id effects).trace id := fun _ => rfl
  refine ⟨hqueued.nodup_iff.2 h.nodup, by simp, h.calls_nodup, h.calls_written, ?_, ?_, ?_, ?_,
    h.logged_record (h.held_lt copy.id (by simp)) effects⟩
  · intro x hx
    rcases List.mem_cons.1 (hperm.mem_iff.1 hx) with rfl | hmem
    · exact hcalls
    · exact h.calls_waiting x hmem
  · intro request hrequest
    rw [htrace, h.trace_other effects (List.mem_append_left _ (List.mem_map_of_mem hrequest))]
    exact h.issuing request hrequest
  · intro x hx
    rw [htrace]
    rcases List.mem_cons.1 (hperm.mem_iff.1 hx) with rfl | hmem
    · rw [CopyView.trace_record_self]
      exact ⟨kind, hkind, hover⟩
    · rw [h.trace_other effects (List.mem_append_right _ (List.mem_map_of_mem hmem))]
      exact h.waiting x hmem
  · intro id k hk _ hout
    have hne : id ≠ copy.id := by
      rintro rfl
      exact hout (hqueued.mem_iff.2 List.mem_cons_self)
    rw [htrace, v.trace_record_of_ne effects hne]
    refine h.settled id k hk (by simp [hne]) fun hin => ?_
    exact hout (hqueued.mem_iff.2 (List.mem_cons_of_mem _ hin))

/-- The copy in hand is one of a {lit}`write` that has not returned. -/
theorem CopyInv.call {id : Nat} (h : CopyInv [id] v) (hkind : v.kinds[id]? = some .written)
    (hnew : id ∉ v.inWrite.map Prod.fst) {code : ResponseCode}
    {inWrite : List (Nat × ResponseCode)} (hperm : inWrite.Perm ((id, code) :: v.inWrite)) :
    CopyInv [id] { v with inWrite } := by
  have hheld : ∀ copy ∈ v.waiting, copy.id ≠ id := by
    rintro copy hcopy rfl
    have hqueued : copy.id ∈ v.queued := List.mem_append_right _ (List.mem_map_of_mem hcopy)
    exact (List.nodup_cons.1 h.nodup).1 hqueued
  refine ⟨h.nodup, h.held_lt, ?_, ?_, ?_, h.issuing, ?_, ?_, h.logged⟩
  · exact (hperm.map Prod.fst).nodup_iff.2 (List.nodup_cons.2 ⟨hnew, h.calls_nodup⟩)
  · intro other code' hcall
    rcases List.mem_cons.1 (hperm.mem_iff.1 hcall) with heq | hold
    · cases heq
      exact hkind
    · exact h.calls_written other code' hold
  · intro copy hcopy code' hcall
    exact h.calls_waiting copy hcopy code'
      ((mem_calls_iff hperm (hheld copy hcopy) code').2 hcall)
  · intro copy hcopy
    obtain ⟨kind, hknown, hover⟩ := h.waiting copy hcopy
    rw [toldKind_congr (mem_calls_iff hperm (hheld copy hcopy)) kind] at hover
    exact ⟨kind, hknown, hover⟩
  · intro other kind hknown hother hout
    have hne : other ≠ id := fun heq => hother (by simp [heq])
    exact (h.settled other kind hknown hother hout).congr (mem_calls_iff hperm hne)

/-- A {lit}`write` returns: what it returns a failure for was unwound. -/
theorem CopyInv.returns (h : CopyInv [] v) {id : Nat} {code : ResponseCode}
    {inWrite : List (Nat × ResponseCode)} (hperm : v.inWrite.Perm ((id, code) :: inWrite)) :
    CopyInv [] (CopyView.record { v with inWrite } id [.returned code]) := by
  have hcall : (id, code) ∈ v.inWrite := hperm.mem_iff.2 List.mem_cons_self
  have hold : ∀ call ∈ inWrite, call ∈ v.inWrite := fun call hin =>
    hperm.mem_iff.2 (List.mem_cons_of_mem _ hin)
  have hkind := h.calls_written id code hcall
  have hnodup : id ∉ inWrite.map Prod.fst ∧ (inWrite.map Prod.fst).Nodup :=
    List.nodup_cons.1 ((hperm.map Prod.fst).nodup_iff.1 h.calls_nodup)
  have hcode : ∀ code', (id, code') ∈ v.inWrite → code' = code := by
    intro code' hin
    rcases List.mem_cons.1 (hperm.mem_iff.1 hin) with heq | hrest
    · cases heq
      rfl
    · exact absurd (List.mem_map_of_mem hrest) hnodup.1
  have hself : ∀ kind, toldKind inWrite id kind = kind := toldKind_of_not_mem hnodup.1
  have htrace : ∀ other, (CopyView.record { v with inWrite } id [.returned code]).trace other =
      (v.record id [.returned code]).trace other := fun _ => rfl
  refine ⟨h.nodup, by simp, hnodup.2, fun other code' hin => h.calls_written other code' (hold _ hin),
    fun copy hcopy code' hin => h.calls_waiting copy hcopy code' (hold _ hin), ?_, ?_, ?_,
    h.logged_record (List.getElem?_eq_some_iff.1 hkind).1 _⟩
  · intro request hrequest
    obtain ⟨hsubmitted, hnil⟩ := h.issuing request hrequest
    have hne : request.id ≠ id := by
      rintro heq
      rw [heq, hkind] at hsubmitted
      cases hsubmitted
    rw [htrace, v.trace_record_of_ne _ hne]
    exact ⟨hsubmitted, hnil⟩
  · intro copy hcopy
    obtain ⟨kind, hknown, hover⟩ := h.waiting copy hcopy
    refine ⟨kind, hknown, ?_⟩
    rw [htrace]
    change HandedOver (toldKind inWrite copy.id kind) _ _
    by_cases hid : copy.id = id
    · -- the copy has not landed, and the call that handed it over returns success
      have hsuccess := h.calls_waiting copy hcopy code (by rw [hid]; exact hcall)
      rw [hid] at hknown hover ⊢
      obtain rfl := Option.some.inj (hkind.symm.trans hknown)
      rw [toldKind_of_mem hcall] at hover
      obtain ⟨destination, skip, bytesize, heq⟩ := hover
      rw [hself, CopyView.trace_record_self, heq, hsuccess]
      exact ⟨destination, skip, bytesize, rfl⟩
    · rw [v.trace_record_of_ne _ hid, toldKind_congr (mem_calls_iff hperm hid) kind]
      exact hover
  · intro other kind hknown hheld hout
    have houtcome := h.settled other kind hknown hheld hout
    rw [htrace]
    change Outcome inWrite other kind _
    by_cases hid : other = id
    · subst hid
      obtain rfl := Option.some.inj (hkind.symm.trans hknown)
      rw [CopyView.trace_record_self]
      refine ⟨fun code' hin => absurd (List.mem_map_of_mem hin) hnodup.1, fun _ => ?_⟩
      rw [hself]
      by_cases hsuccess : code = .success
      · have hreported := houtcome.settled fun code' hin => (hcode code' hin).trans hsuccess
        rw [toldKind_of_mem hcall] at hreported
        rw [hsuccess]
        exact hreported.returns
      · exact (houtcome.unwound code hcall hsuccess).returned hsuccess
    · rw [v.trace_record_of_ne _ hid]
      exact houtcome.congr fun code' => (mem_calls_iff hperm hid code').symm

end Moves

/-! ## The state behind the view -/

/-- The {lit}`write` that has not returned to a worker, if there is one. -/
def CopyWorker.calls (worker : CopyWorker) : List (Nat × ResponseCode) :=
  worker.inWrite.toList

/-- Where the copies are in a state of the copy path. -/
def CopyPath.view (s : CopyPath) : CopyView :=
  { kinds := s.kinds
    log := s.log
    issuing := s.lanes.flatMap Lane.queue
    waiting := s.targets.flatMap Target.queue
    inWrite := s.workers.flatMap CopyWorker.calls }

/-- Neither the copies nor the lanes and the workers changed. -/
structure Kept (s s' : CopyPath) : Prop where
  view_eq : s'.view = s.view
  lanes_eq : s'.lanes = s.lanes
  workers_eq : s'.workers = s.workers

/-- What {lit}`DeviceWriter::write` returned and did for a copy with an event. -/
inductive WriterDid (copy : Entry) : ResponseCode → List CopyEffect → Bool → Prop
  | handed (destination : Addr) (skip bytesize : Nat) :
      WriterDid copy .success [.enqueued destination skip bytesize, .recorded copy.event] true
  | refused {code : ResponseCode} (hcode : code ≠ .success) :
      WriterDid copy code [.released copy.pool copy.buffer, .eventReleased copy.event] false
  | retired (destination : Addr) (skip bytesize : Nat) :
      WriterDid copy .deviceDriverError
        [.enqueued destination skip bytesize, .retired copy.pool copy.buffer .deviceDriverError,
          .eventReleased copy.event] false
  | drained {code : ResponseCode} (hcode : code ≠ .success) (destination : Addr)
      (skip bytesize : Nat) :
      WriterDid copy code
        [.enqueued destination skip bytesize, .drained, .released copy.pool copy.buffer,
          .eventReleased copy.event] false

/-- A write that failed after it acquired its event unwound. -/
theorem WriterDid.unwound {copy : Entry} {code : ResponseCode} {effects : List CopyEffect}
    (h : WriterDid copy code effects false) :
    code ≠ .success ∧ Unwound (.acquired copy.event :: effects) := by
  cases h with
  | refused hcode =>
      refine ⟨hcode, ⟨rfl, rfl, Nat.le_refl 1, fun event => ?_⟩, by
        simp [CopyEffect.isReport, CopyEffect.isReturn]⟩
      simp [CopyEffect.givesBackEvent, CopyEffect.acquires, List.countP_cons]
  | retired destination skip bytesize =>
      refine ⟨by decide, ⟨rfl, rfl, Nat.le_refl 1, fun event => ?_⟩, by
        simp [CopyEffect.isReport, CopyEffect.isReturn]⟩
      simp [CopyEffect.givesBackEvent, CopyEffect.acquires, List.countP_cons]
  | drained hcode destination skip bytesize =>
      refine ⟨hcode, ⟨rfl, rfl, Nat.le_refl 1, fun event => ?_⟩, by
        simp [CopyEffect.isReport, CopyEffect.isReturn]⟩
      simp [CopyEffect.givesBackEvent, CopyEffect.acquires, List.countP_cons]

/--
A write hands the copy to the waiter of its device, with an event recorded behind it, or it
fails and has given everything back.
-/
inductive ClientDid (s s' : CopyPath) (id : Nat) :
    ResponseCode → List CopyEffect → Prop
  | handed (copy : Entry) (destination : Addr) (skip bytesize : Nat) (hid : copy.id = id)
      (hview : s'.view = { s.view with waiting := s'.view.waiting })
      (hlanes : s'.lanes = s.lanes) (hworkers : s'.workers = s.workers)
      (hwaiting : s'.view.waiting.Perm (copy :: s.view.waiting)) :
      ClientDid s s' id .success
        [.acquired copy.event, .enqueued destination skip bytesize, .recorded copy.event]
  | unwound {code : ResponseCode} {effects : List CopyEffect} (hcode : code ≠ .success)
      (heffects : Unwound effects) (hkept : Kept s s') : ClientDid s s' id code effects

theorem ClientDid.lanes_eq {s s' : CopyPath} {id : Nat} {code : ResponseCode}
    {effects : List CopyEffect} (h : ClientDid s s' id code effects) : s'.lanes = s.lanes := by
  cases h with
  | handed copy destination skip bytesize hid hview hlanes hworkers hwaiting => exact hlanes
  | unwound hcode hunwound hkept => exact hkept.lanes_eq

theorem ClientDid.workers_eq {s s' : CopyPath} {id : Nat} {code : ResponseCode}
    {effects : List CopyEffect} (h : ClientDid s s' id code effects) :
    s'.workers = s.workers := by
  cases h with
  | handed copy destination skip bytesize hid hview hlanes hworkers hwaiting => exact hworkers
  | unwound hcode hunwound hkept => exact hkept.workers_eq

section Steps

variable {s s' : CopyPath}

/-- A lane's thread has written the copy in hand, and reports a failure. -/
theorem CopyInv.issued {id : Nat} {code : ResponseCode} {effects : List CopyEffect}
    (h : CopyInv [id] s.view) (hkind : s.kinds[id]? = some .submitted)
    (htrace : s.view.trace id = []) (hdid : ClientDid s s' id code effects) :
    CopyInv [] (s'.view.record id
      (if code ≠ .success then effects ++ [.reported code] else effects)) := by
  cases hdid with
  | handed copy destination skip bytesize hid hview hlanes hworkers hwaiting =>
      subst hid
      rw [if_neg (by simp), hview]
      refine h.putWaiting hkind
        (fun code hcall => absurd hcall (h.not_mem_calls hkind code)) ?_ hwaiting
      rw [htrace, show toldKind s.view.inWrite copy.id .submitted = .submitted from ite_self _]
      exact ⟨destination, skip, bytesize, rfl⟩
  | unwound hcode hunwound hkept =>
      rw [if_pos hcode, hkept.view_eq]
      apply h.settleSubmitted hkind
      rw [htrace]
      exact hunwound.reported hcode

/-- A worker has written the copy in hand, and its call is about to return. -/
theorem CopyInv.wrote {id : Nat} {code : ResponseCode} {effects : List CopyEffect}
    (h : CopyInv [id] s.view) (hkind : s.kinds[id]? = some .written)
    (htrace : s.view.trace id = []) (hnew : id ∉ s.view.inWrite.map Prod.fst)
    (hdid : ClientDid s s' id code effects) {inWrite : List (Nat × ResponseCode)}
    (hperm : inWrite.Perm ((id, code) :: s.view.inWrite)) :
    CopyInv [] (CopyView.record { s'.view with inWrite } id effects) := by
  have hcall := h.call hkind hnew hperm
  have hin : (id, code) ∈ inWrite := hperm.mem_iff.2 List.mem_cons_self
  have honly : ∀ code', (id, code') ∈ inWrite → code' = code := by
    intro code' hcall'
    rcases List.mem_cons.1 (hperm.mem_iff.1 hcall') with heq | hold
    · cases heq
      rfl
    · exact absurd (List.mem_map_of_mem hold) hnew
  cases hdid with
  | handed copy destination skip bytesize hid hview hlanes hworkers hwaiting =>
      subst hid
      rw [hview]
      refine hcall.putWaiting hkind honly ?_ hwaiting
      change HandedOver (toldKind inWrite copy.id .written) copy.event (s.view.trace copy.id ++ _)
      rw [htrace, toldKind_of_mem hin]
      exact ⟨destination, skip, bytesize, rfl⟩
  | unwound hcode hunwound hkept =>
      rw [hkept.view_eq]
      refine hcall.settle hkind ⟨fun _ _ _ => ?_, fun hsuccess => ?_⟩
      · change Unwound (s.view.trace id ++ effects)
        rw [htrace]
        exact hunwound
      · exact absurd (hsuccess code hin) hcode

end Steps

/-! ## Runs -/

end DeviceIo
end ModelStreamer
