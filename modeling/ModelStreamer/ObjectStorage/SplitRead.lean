import ModelStreamer.ObjectStorage.ClientReadSpec

/-!
# Reads in parts

{lit}`GCSClient` and {lit}`AzureClient` divide a long range.  The caller knows of one read: it
gives its buffer away with the call and takes it back with the one completion.

Main results:

- Theorem {lit}`split_read_contract`: a read in parts tiles its range and reports once and
  truly; it reports only after the last write exactly if it is made in one part, or if a part
  that fails reports after the others.
-/

namespace ModelStreamer
namespace ObjectStorage

open Common Lib Streamer

/-! ## Reads in parts -/

section Split

variable {client : ObjectClient} {chunkBytesize : Nat} {range : ObjectRange}
  {destination : Addr} {s s' : ClientRead} {action : ReadAction} {size : Nat}

/-- The callback returned. -/
def SubReadPhase.isDone : SubReadPhase → Bool
  | .done _ => true
  | _ => false

/-- The read is over and its callback was given a success. -/
def SubReadPhase.succeeded : SubReadPhase → Bool
  | .reading => false
  | .ended code | .reporting code | .done code => code = .success

/-- Every sub-read was started, and none can still write into the destination. -/
def ClientRead.Quiet (s : ClientRead) (size : Nat) : Prop :=
  s.subReads.length = size ∧ ∀ subRead ∈ s.subReads, subRead.phase.writes = false

/-- The call returned, and so did every callback. -/
def ClientRead.Finished (s : ClientRead) : Prop :=
  (∃ code, s.call = .returned code) ∧ ∀ subRead ∈ s.subReads, subRead.phase.isDone = true

/-- The sub-reads tile the range, and the completions say once and truly what became of them. -/
structure ReportsOnce (size : Nat) (range : ObjectRange) (destination : Addr)
    (s : ClientRead) : Prop where
  tiles : (∃ code, s.call = .returned code) →
    Contiguous SubRead.offset (fun subRead => subRead.offset + subRead.bytesize) range.offset
      (range.offset + range.length) s.subReads
  buffers : ∀ subRead ∈ s.subReads,
    subRead.buffer = ptrAdd destination (subRead.offset - range.offset)
  once : s.completions.length ≤ 1
  reported : s.Finished → s.completions.length = 1
  truthful : ∀ code ∈ s.completions, code = .success ↔
    s.subReads.length = size ∧ ∀ subRead ∈ s.subReads, subRead.phase.succeeded = true

/-- A completion is there only when the destination is no longer written to. -/
def ClientRead.ReportsLast (s : ClientRead) (size : Nat) : Prop :=
  s.completions ≠ [] → s.Quiet size

/-- What holds of a read in parts that is not stopped. -/
structure SplitOk (client : ObjectClient) (chunkBytesize : Nat) (range : ObjectRange)
    (destination : Addr) (s : ClientRead) : Prop where
  running : s.stop = false
  answering : s.responderStopped = false
  delivered : s.completions = s.pushed
  returned : ∀ code, s.call = .returned code → code = .success
  position : PositionOk (client.size chunkBytesize range) s
  shared : SharedOk (client.size chunkBytesize range) s
  area : AreaOk (client.size chunkBytesize range) chunkBytesize range destination s

/-- A call that is not stopped returns a success. -/
theorem SplitMove.returned (hmove : SplitMove size chunkBytesize s s') (hrunning : s.stop = false) :
    s'.stop = false ∧ ∀ code, s'.call = .returned code → code = .success := by
  cases hmove with
  | goesOn => exact ⟨hrunning, fun code hcode => by cases hcode⟩
  | ends => exact ⟨hrunning, fun code hcode => by cases hcode⟩
  | starts => exact ⟨hrunning, fun code hcode => by cases hcode⟩
  | leaves =>
      refine ⟨hrunning, fun code hcode => ?_⟩
      simp only [ClientRead.leave, hrunning] at hcode
      cases hcode
      rfl

/-- Every step keeps what holds of a read in parts. -/
theorem SplitOk.step (hsplit : client ≠ .s3)
    (hsize : client.size chunkBytesize range < 2 ^ 32)
    (h : SplitOk client chunkBytesize range destination s) (hstop : action ≠ .stop)
    (hstep : readStep client chunkBytesize range s action = some s') :
    SplitOk client chunkBytesize range destination s' := by
  have hcall : s'.stop = false ∧ ∀ code, s'.call = .returned code → code = .success := by
    cases readStep_move hstep with
    | stop => exact absurd rfl hstop
    | stopResponder hstopped => exact absurd (hstopped.symm.trans h.running) (by simp)
    | call hcall =>
        rw [asyncRead_split hsplit] at hcall
        exact (splitAsyncRead_move hcall).returned h.running
    | ends => exact ⟨h.running, h.returned⟩
    | counts => exact ⟨h.running, h.returned⟩
    | pushes => exact ⟨h.running, h.returned⟩
  have hpushes : s'.responderStopped = false ∧ s'.completions = s'.pushed := by
    cases readStep_move hstep with
    | stop => exact absurd rfl hstop
    | stopResponder hstopped => exact absurd (hstopped.symm.trans h.running) (by simp)
    | call hcall =>
        rw [asyncRead_split hsplit] at hcall
        cases splitAsyncRead_move hcall <;> exact ⟨h.answering, h.delivered⟩
    | ends => exact ⟨h.answering, h.delivered⟩
    | counts => exact ⟨h.answering, h.delivered⟩
    | pushes =>
        refine ⟨h.answering, ?_⟩
        simp [ClientRead.setPhase, ClientRead.push, h.answering, h.delivered]
  exact
    { running := hcall.1
      answering := hpushes.1
      delivered := hpushes.2
      returned := hcall.2
      position := h.position.step hsplit hstep
      shared := h.shared.step hsplit hsize h.position hstep
      area := h.area.step hsplit hsize h.position hstep }

/-- What holds of a read in parts at its start. -/
theorem splitOk_start (client : ObjectClient) (chunkBytesize : Nat) (range : ObjectRange)
    (destination : Addr) (hsize : client.size chunkBytesize range < 2 ^ 32) :
    SplitOk client chunkBytesize range destination
      (client.start chunkBytesize range destination false) :=
  have hpos := client.size_pos chunkBytesize range
  { running := rfl
    answering := rfl
    delivered := rfl
    returned := fun code hcode => by cases hcode
    position := positionOk_start destination _ false
    shared := sharedOk_start range destination false hpos hsize
    area := areaOk_start range destination false hpos }

/-- The flag is down only while the counter has not reached zero. -/
theorem SharedOk.counter_pos (h : SharedOk size s) (hlength : s.subReads.length ≤ size)
    (hflag : s.isSuccess = false) : 0 < s.counter := by
  have hphases := number_phases s
  have hcounter := h.counter_eq
  have hfailed : s.number SubReadPhase.failed ≠ 0 := by
    intro hzero
    have htrue := h.flag_iff.2 hzero
    rw [hflag] at htrue
    cases htrue
  omega

/-- At most one completion is there or on its way. -/
theorem SharedOk.once (h : SharedOk size s) (hlength : s.subReads.length ≤ size) :
    s.number SubReadPhase.reports + s.pushed.length ≤ 1 := by
  rw [h.reports]
  cases hflag : s.isSuccess with
  | true => split_ifs <;> simp_all
  | false =>
      have hpos := h.counter_pos hlength hflag
      rw [if_neg (by omega : ¬ s.counter = 0)]
      simp

/-- When the counter is zero, every sub-read was started and succeeded. -/
theorem SharedOk.all_counted (h : SharedOk size s) (hlength : s.subReads.length ≤ size)
    (hzero : s.counter = 0) :
    s.subReads.length = size ∧ ∀ subRead ∈ s.subReads, subRead.phase.countedOk = true := by
  have hphases := number_phases s
  have hcounter := h.counter_eq
  refine ⟨by omega, ?_⟩
  apply List.countP_eq_length.1
  change s.number SubReadPhase.countedOk = s.subReads.length
  omega

/-- A callback that returned was counted. -/
theorem SubReadPhase.isOpen_of_isDone {phase : SubReadPhase} (h : phase.isDone = true) :
    phase.isOpen = false ∧ phase.reports = false := by
  cases phase with
  | done code => exact ⟨rfl, rfl⟩
  | reading => cases h
  | ended code => cases h
  | reporting code => cases h

/-- When every callback has run, the completion is there. -/
theorem SharedOk.reported (h : SharedOk size s) (hall : s.subReads.length = size)
    (hdone : ∀ subRead ∈ s.subReads, subRead.phase.isDone = true) :
    s.pushed.length = 1 := by
  have hphases := number_phases s
  have hcounter := h.counter_eq
  have hopen : s.number SubReadPhase.isOpen = 0 := by
    apply List.countP_eq_zero.2
    intro subRead hmem
    simp [(SubReadPhase.isOpen_of_isDone (hdone subRead hmem)).1]
  have hreporting : s.number SubReadPhase.reports = 0 := by
    apply List.countP_eq_zero.2
    intro subRead hmem
    simp [(SubReadPhase.isOpen_of_isDone (hdone subRead hmem)).2]
  have hreports := h.reports
  rw [hreporting, Nat.zero_add] at hreports
  rw [hreports]
  cases hsuccess : s.isSuccess with
  | true =>
      have hzero : s.number SubReadPhase.failed = 0 := h.flag_iff.1 hsuccess
      rw [if_pos rfl, if_pos (by omega)]
  | false =>
      have hpos := h.counter_pos (le_of_eq hall) hsuccess
      rw [if_neg (by simp), if_neg (by omega)]

/-- A read whose counter and flag agree with its sub-reads reports once and truly. -/
theorem SplitOk.reportsOnce (hsize : client.size chunkBytesize range < 2 ^ 32)
    (h : SplitOk client chunkBytesize range destination s) :
    ReportsOnce (client.size chunkBytesize range) range destination s := by
  have hlength := h.position.length_le hsize
  have hphases := number_phases s
  have hcounter := h.shared.counter_eq
  have hreturned : ∀ code, s.call = .returned code →
      s.subReads.length = client.size chunkBytesize range := by
    intro code hcode
    have hsuccess := h.returned code hcode
    rw [hsuccess] at hcode
    exact (h.position.returned hcode).2
  refine ⟨?_, ?_, ?_, ?_, ?_⟩
  · rintro ⟨code, hcode⟩
    have htiles := contiguous_map.1 h.area.tiles
    rw [h.area.offset_eq, hreturned code hcode, handedOut, if_pos rfl] at htiles
    exact htiles
  · intro subRead hmem
    exact h.area.buffers subRead.area (List.mem_map_of_mem hmem)
  · have honce := h.shared.once hlength
    rw [h.delivered]
    omega
  · rintro ⟨⟨code, hcode⟩, hdone⟩
    rw [h.delivered]
    exact h.shared.reported (hreturned code hcode) hdone
  · intro code hcode
    rw [h.delivered] at hcode
    have hbacks := h.shared.pushed code hcode
    unfold ClientRead.Backs at hbacks
    constructor
    · intro hsuccess
      rw [if_pos hsuccess] at hbacks
      obtain ⟨hall, hcounted⟩ := h.shared.all_counted hlength hbacks
      refine ⟨hall, fun subRead hmem => ?_⟩
      have hok := hcounted subRead hmem
      cases hphase : subRead.phase with
      | reading => simp [hphase, SubReadPhase.countedOk] at hok
      | ended code => simp [hphase, SubReadPhase.countedOk] at hok
      | reporting code => simpa [hphase, SubReadPhase.countedOk, SubReadPhase.succeeded] using hok
      | done code => simpa [hphase, SubReadPhase.countedOk, SubReadPhase.succeeded] using hok
    · rintro ⟨hall, hsucceeded⟩
      by_contra hne
      rw [if_neg hne] at hbacks
      have hfailed : s.number SubReadPhase.failed = 0 := by
        apply List.countP_eq_zero.2
        intro subRead hmem
        have hok := hsucceeded subRead hmem
        cases hphase : subRead.phase <;>
          simp_all [SubReadPhase.succeeded, SubReadPhase.failed]
      have htrue := h.shared.flag_iff.2 hfailed
      rw [hbacks] at htrue
      cases htrue

/-- A failed sub-read reports only when the others were started and are over. -/
def FailsLast (size : Nat) (s : ClientRead) (action : ReadAction) : Prop :=
  ∀ k subRead code, action = .pushes k → s.subReads[k]? = some subRead →
    subRead.phase = .reporting code → code ≠ .success → s.Quiet size

/-- A sub-read that moves on, and not back to reading, leaves a quiet destination quiet. -/
theorem ClientRead.Quiet.setPhase {k : Nat} {subRead : SubRead} {phase : SubReadPhase}
    (h : s.Quiet size) (hphase : phase.writes = false) :
    (s.setPhase k subRead phase).Quiet size := by
  refine ⟨by simpa [ClientRead.setPhase] using h.1, fun other hmem => ?_⟩
  cases List.mem_or_eq_of_mem_set hmem with
  | inl hold => exact h.2 other hold
  | inr hnew =>
      rw [hnew]
      exact hphase

/-- A callback does not go back to reading. -/
theorem splitCallback_writes (failure : ResponseCode → ResponseCode) (counter : Nat)
    (isSuccess : Bool) (code : ResponseCode) :
    (splitCallback failure counter isSuccess code).2.2.writes = false := by
  unfold splitCallback
  split_ifs <;> rfl

/-- If failures report last, then every completion comes last. -/
theorem ClientRead.ReportsLast.step (hsplit : client ≠ .s3)
    (hsize : client.size chunkBytesize range < 2 ^ 32)
    (hok : SplitOk client chunkBytesize range destination s)
    (h : s.ReportsLast (client.size chunkBytesize range)) (hstop : action ≠ .stop)
    (hlast : FailsLast (client.size chunkBytesize range) s action)
    (hstep : readStep client chunkBytesize range s action = some s') :
    s'.ReportsLast (client.size chunkBytesize range) := by
  have hlength := hok.position.length_le hsize
  intro hcompletions
  cases readStep_move hstep with
  | stop => exact absurd rfl hstop
  | stopResponder => exact h hcompletions
  | call hcall =>
      rw [asyncRead_split hsplit] at hcall
      cases splitAsyncRead_move hcall with
      | goesOn => exact h hcompletions
      | ends => exact h hcompletions
      | leaves => exact h hcompletions
      | @starts i hstarting =>
          have hlt := (hok.position.starting i hstarting).2 hsize
          have hall := (h hcompletions).1
          omega
  | ends hk hphase => exact (h hcompletions).setPhase rfl
  | counts hk hphase =>
      rw [callback_split hsplit]
      exact (h hcompletions).setPhase (splitCallback_writes _ _ _ _)
  | @pushes k code subRead hk hphase =>
      have hquiet : s.Quiet (client.size chunkBytesize range) := by
        by_cases hcode : code = .success
        · have hbacks := hok.shared.reporting subRead (List.mem_of_getElem? hk) code hphase
          rw [ClientRead.Backs, if_pos hcode] at hbacks
          obtain ⟨hall, hcounted⟩ := hok.shared.all_counted hlength hbacks
          refine ⟨hall, fun other hmem => ?_⟩
          have hother := hcounted other hmem
          cases hreading : other.phase with
          | reading => simp [hreading, SubReadPhase.countedOk] at hother
          | ended code => rfl
          | reporting code => rfl
          | done code => rfl
        · exact hlast k subRead code rfl hk hphase hcode
      exact @ClientRead.Quiet.setPhase _ _ k subRead (.done code) hquiet rfl

/-- The steps that a callback may still take. -/
def SubReadPhase.work : SubReadPhase → Nat
  | .reading => 3
  | .ended _ => 2
  | .reporting _ => 1
  | .done _ => 0

/-- The steps that a call may still take, and that the sub-reads it starts will take. -/
def CallPhase.work (missing : Nat) : CallPhase → Nat
  | .checking _ => 5 * missing + 2
  | .starting _ => 5 * missing + 1
  | .leaving => 1
  | .returned _ => 0

/-- The steps that a read may still take. -/
def ClientRead.work (size : Nat) (s : ClientRead) : Nat :=
  s.call.work (size - s.subReads.length) +
    (s.subReads.map fun subRead => subRead.phase.work).sum

/-- A callback that goes on has less to do. -/
theorem work_setPhase {k : Nat} {subRead : SubRead} (hk : s.subReads[k]? = some subRead)
    (phase : SubReadPhase) (hless : phase.work < subRead.phase.work) :
    (s.setPhase k subRead phase).work size < s.work size := by
  have hsum := sum_map_set hk { subRead with phase } fun subRead => subRead.phase.work
  simp only [ClientRead.work, ClientRead.setPhase, List.length_set]
  simp only at hsum
  omega

/-- Every step of a read that is not stopped leaves less to do. -/
theorem SplitOk.work_lt (hsplit : client ≠ .s3)
    (hsize : client.size chunkBytesize range < 2 ^ 32)
    (h : SplitOk client chunkBytesize range destination s) (hstop : action ≠ .stop)
    (hstep : readStep client chunkBytesize range s action = some s') :
    s'.work (client.size chunkBytesize range) < s.work (client.size chunkBytesize range) := by
  cases readStep_move hstep with
  | stop => exact absurd rfl hstop
  | stopResponder hstopped => exact absurd (hstopped.symm.trans h.running) (by simp)
  | call hcall =>
      rw [asyncRead_split hsplit] at hcall
      cases splitAsyncRead_move hcall with
      | goesOn hchecking =>
          simp only [ClientRead.work, hchecking, CallPhase.work]
          omega
      | ends hchecking =>
          simp only [ClientRead.work, hchecking, CallPhase.work]
          omega
      | leaves hleaving =>
          simp only [ClientRead.work, ClientRead.leave, hleaving, CallPhase.work]
          omega
      | @starts i hstarting =>
          have hlt := (h.position.starting i hstarting).2 hsize
          simp only [ClientRead.work, ClientRead.startSubRead, hstarting, CallPhase.work,
            List.length_append, List.length_singleton, List.map_append, List.map_singleton,
            List.sum_append, List.sum_singleton, SubReadPhase.work]
          omega
  | ends hk hphase => exact work_setPhase hk _ (by rw [hphase]; exact Nat.lt_succ_self 2)
  | @counts k code subRead hk hphase =>
      have hless : (client.callback s.counter s.isSuccess code).2.2.work <
          subRead.phase.work := by
        rw [callback_split hsplit, hphase]
        unfold splitCallback
        split_ifs <;> simp [SubReadPhase.work]
      exact work_setPhase hk _ hless
  | pushes hk hphase =>
      exact work_setPhase hk _ (by rw [hphase]; exact Nat.one_pos)

/-- A read that is not finished can go on. -/
theorem exists_readStep (hsplit : client ≠ .s3) (h : ¬ s.Finished) :
    ∃ action ≠ ReadAction.stop,
      (readStep client chunkBytesize range s action).isSome = true := by
  by_cases hreturned : ∃ code, s.call = .returned code
  · have hopen : ∃ subRead ∈ s.subReads, subRead.phase.isDone = false := by
      by_contra hnone
      refine h ⟨hreturned, fun subRead hmem => ?_⟩
      by_contra hdone
      exact hnone ⟨subRead, hmem, by simpa using hdone⟩
    obtain ⟨subRead, hmem, hdone⟩ := hopen
    obtain ⟨k, hk⟩ := List.mem_iff_getElem?.1 hmem
    cases hphase : subRead.phase with
    | reading => exact ⟨.ends k .success, by simp, by simp [readStep, hk, hphase]⟩
    | ended code => exact ⟨.counts k, by simp, by simp [readStep, hk, hphase]⟩
    | reporting code => exact ⟨.pushes k, by simp, by simp [readStep, hk, hphase]⟩
    | done code => simp [hphase, SubReadPhase.isDone] at hdone
  · refine ⟨.call, by simp, ?_⟩
    change (client.asyncRead chunkBytesize range s).isSome = true
    rw [asyncRead_split hsplit]
    unfold splitAsyncRead
    cases hcall : s.call with
    | checking i =>
        simp only
        split_ifs <;> rfl
    | starting i => rfl
    | leaving => rfl
    | returned code => exact absurd ⟨code, hcall⟩ hreturned

/-- The invariant along a run that is not stopped. -/
theorem splitOk_run (hsplit : client ≠ .s3)
    (hsize : client.size chunkBytesize range < 2 ^ 32) {actions : List ReadAction}
    (hstop : ReadAction.stop ∉ actions)
    (hrun : run (readStep client chunkBytesize range)
      (client.start chunkBytesize range destination false) actions = some s) :
    SplitOk client chunkBytesize range destination s := by
  have hnever : ∀ action ∈ actions, action ≠ .stop :=
    fun action hmem heq => hstop (heq ▸ hmem)
  exact run_invariant_of (fun s action s' h hne hstep => h.step hsplit hsize hne hstep)
    (splitOk_start client chunkBytesize range destination hsize)
    (eachStep_of_forall hnever) hrun

/-- The number of steps of a run that is not stopped. -/
theorem splitOk_run_length (hsplit : client ≠ .s3)
    (hsize : client.size chunkBytesize range < 2 ^ 32) {actions : List ReadAction}
    (hstop : ReadAction.stop ∉ actions)
    (hrun : run (readStep client chunkBytesize range)
      (client.start chunkBytesize range destination false) actions = some s) :
    actions.length ≤ 5 * client.size chunkBytesize range + 2 := by
  have hnever : ∀ action ∈ actions, action ≠ .stop :=
    fun action hmem heq => hstop (heq ▸ hmem)
  have hstep : ∀ (s : ClientRead) (action : ReadAction) (s' : ClientRead),
      SplitOk client chunkBytesize range destination s → action ≠ .stop →
      readStep client chunkBytesize range s action = some s' →
      SplitOk client chunkBytesize range destination s' ∧
        s'.work (client.size chunkBytesize range) < s.work (client.size chunkBytesize range) :=
    fun s action s' h hne hstep => ⟨h.step hsplit hsize hne hstep, h.work_lt hsplit hsize hne hstep⟩
  have hlength := run_length_le hstep
    (splitOk_start client chunkBytesize range destination hsize)
    (eachStep_of_forall hnever) hrun
  have hstart : (client.start chunkBytesize range destination false).work
      (client.size chunkBytesize range) = 5 * client.size chunkBytesize range + 2 := rfl
  omega

/-- In a run whose failures report last, every completion comes last. -/
theorem reportsLast_run (hsplit : client ≠ .s3)
    (hsize : client.size chunkBytesize range < 2 ^ 32) {actions : List ReadAction}
    (hstop : ReadAction.stop ∉ actions)
    (hlast : EachStep (readStep client chunkBytesize range)
      (FailsLast (client.size chunkBytesize range))
      (client.start chunkBytesize range destination false) actions)
    (hrun : run (readStep client chunkBytesize range)
      (client.start chunkBytesize range destination false) actions = some s) :
    s.ReportsLast (client.size chunkBytesize range) := by
  have hnever : ∀ action ∈ actions, action ≠ .stop :=
    fun action hmem heq => hstop (heq ▸ hmem)
  have hboth := run_invariant_of
    (P := fun s => SplitOk client chunkBytesize range destination s ∧
      s.ReportsLast (client.size chunkBytesize range))
    (fun s action s' h hcondition hstep =>
      ⟨h.1.step hsplit hsize hcondition.1 hstep,
        ClientRead.ReportsLast.step hsplit hsize h.1 h.2 hcondition.1 hcondition.2 hstep⟩)
    ⟨splitOk_start client chunkBytesize range destination hsize, fun hne => absurd rfl hne⟩
    ((eachStep_of_forall hnever).and hlast) hrun
  exact hboth.2

/-- A single sub-read reports last. -/
theorem failsLast_of_single (hone : client.size chunkBytesize range = 1)
    (hposition : PositionOk (client.size chunkBytesize range) s) (action : ReadAction) :
    FailsLast (client.size chunkBytesize range) s action := by
  intro k subRead code hpush hk hphase hcode
  have hle := hposition.length_le (by rw [hone]; decide)
  rw [hone] at hle ⊢
  obtain ⟨hlt, hget⟩ := List.getElem?_eq_some_iff.1 hk
  have hlength : s.subReads.length = 1 := by omega
  refine ⟨hlength, fun other hmem => ?_⟩
  obtain ⟨only, honly⟩ := List.length_eq_one_iff.1 hlength
  have hzero : k = 0 := by omega
  subst hzero
  rw [honly] at hk hmem
  have hsame : other = subRead := by
    rw [List.mem_singleton.1 hmem]
    simpa using hk
  rw [hsame, hphase]
  rfl

/-- With two parts or more, the first can fail and report before the second is started. -/
theorem exists_early_report (hsplit : client ≠ .s3) (destination : Addr)
    (htwo : 1 < client.size chunkBytesize range) :
    ∃ actions s, ReadAction.stop ∉ actions ∧
      run (readStep client chunkBytesize range)
        (client.start chunkBytesize range destination false) actions = some s ∧
      s.completions ≠ [] ∧ s.subReads.length = 1 := by
  refine ⟨[.call, .call, .ends 0 .fileAccessError, .counts 0, .pushes 0], ?_⟩
  have hcallback : client.callback (toWord 32 (client.size chunkBytesize range)) true
      .fileAccessError = (toWord 32 (client.size chunkBytesize range), false,
        .reporting .fileAccessError) := by
    cases client with
    | s3 => exact absurd rfl hsplit
    | gcs => rfl
    | azure cacheEnabled => rfl
  have hpos : 0 < client.size chunkBytesize range := by omega
  simp [run, readStep, asyncRead_split hsplit, splitAsyncRead, ObjectClient.start,
    ClientRead.start, ClientRead.startSubRead, ClientRead.setPhase, ClientRead.push, hcallback, hpos]

/-- What holds after every run of a read in parts whose counter does not wrap around. -/
theorem split_read_run (hsplit : client ≠ .s3)
    (hsize : client.size chunkBytesize range < 2 ^ 32) (destination : Addr)
    {actions : List ReadAction} (hstop : ReadAction.stop ∉ actions)
    (hrun : run (readStep client chunkBytesize range)
      (client.start chunkBytesize range destination false) actions = some s) :
    ReportsOnce (client.size chunkBytesize range) range destination s ∧
    (EachStep (readStep client chunkBytesize range)
      (FailsLast (client.size chunkBytesize range))
      (client.start chunkBytesize range destination false) actions →
      s.ReportsLast (client.size chunkBytesize range)) ∧
    actions.length ≤ 5 * client.size chunkBytesize range + 2 ∧
    (¬ s.Finished → ∃ action ≠ ReadAction.stop,
      (readStep client chunkBytesize range s action).isSome = true) := by
  refine ⟨?_, ?_, ?_, ?_⟩
  · exact (splitOk_run hsplit hsize hstop hrun).reportsOnce hsize
  · exact fun hlast => reportsLast_run hsplit hsize hstop hlast hrun
  · exact splitOk_run_length hsplit hsize hstop hrun
  · exact exists_readStep hsplit

/--
A read in parts of a client that is not stopped.  As long as the number of parts fits the
counter, the read comes to an end, its parts tile the range, and it reports once and truly.
It also reports last in every run in which a failed part reports after the others.  All of
this holds in every run exactly if there is one part.
-/
theorem split_read_contract (hsplit : client ≠ .s3) (chunkBytesize : Nat) (range : ObjectRange)
    (destination : Addr) :
    ((∀ actions s, ReadAction.stop ∉ actions →
      run (readStep client chunkBytesize range)
        (client.start chunkBytesize range destination false) actions = some s →
      ReportsOnce (client.size chunkBytesize range) range destination s ∧
        s.ReportsLast (client.size chunkBytesize range)) ↔
      client.size chunkBytesize range = 1) ∧
    (client.size chunkBytesize range < 2 ^ 32 →
      ∀ actions s, ReadAction.stop ∉ actions →
      run (readStep client chunkBytesize range)
        (client.start chunkBytesize range destination false) actions = some s →
      ReportsOnce (client.size chunkBytesize range) range destination s ∧
      (EachStep (readStep client chunkBytesize range)
        (FailsLast (client.size chunkBytesize range))
        (client.start chunkBytesize range destination false) actions →
        s.ReportsLast (client.size chunkBytesize range)) ∧
      actions.length ≤ 5 * client.size chunkBytesize range + 2 ∧
      (¬ s.Finished → ∃ action ≠ ReadAction.stop,
        (readStep client chunkBytesize range s action).isSome = true)) := by
  refine ⟨⟨?_, ?_⟩, fun hsize actions s hstop hrun =>
    split_read_run hsplit hsize destination hstop hrun⟩
  · intro hall
    have hpos := client.size_pos chunkBytesize range
    by_contra hne
    obtain ⟨actions, s, hstop, hrun, hcompletions, hlength⟩ :=
      exists_early_report hsplit destination (show 1 < client.size chunkBytesize range by omega)
    have hquiet := (hall actions s hstop hrun).2 hcompletions
    exact hne (hquiet.1.symm.trans hlength)
  · intro hone actions s hstop hrun
    have hsize : client.size chunkBytesize range < 2 ^ 32 := by
      rw [hone]
      decide
    obtain ⟨honce, hlast, -⟩ := split_read_run hsplit hsize destination hstop hrun
    refine ⟨honce, hlast ?_⟩
    exact eachStep_of_invariant (fun s action s' h hstep => h.step hsplit hstep)
      (fun s action h => failsLast_of_single hone h action)
      (positionOk_start destination _ false)

/-- A range that is read whole, through a cache. -/
theorem split_read_contract_cached :
    ObjectClient.azure true ≠ .s3 ∧
    ∀ actions s, ReadAction.stop ∉ actions →
      run (readStep (.azure true) 4 ⟨0, 10, by decide⟩)
        (ObjectClient.start (.azure true) 4 ⟨0, 10, by decide⟩ 0 false) actions = some s →
      ReportsOnce 1 ⟨0, 10, by decide⟩ 0 s ∧ s.ReportsLast 1 :=
  ⟨by decide, (@split_read_contract (.azure true) (by decide) 4 ⟨0, 10, by decide⟩ 0).1.2 rfl⟩

/-- Two parts: the first fails and reports while the SDK writes the second. -/
theorem early_report_twoParts :
    ∃ s, run (readStep .gcs 4 ⟨0, 10, by decide⟩)
        (ObjectClient.start .gcs 4 ⟨0, 10, by decide⟩ 0 false)
        [.call, .call, .call, .call, .ends 0 .fileAccessError, .counts 0, .pushes 0] = some s ∧
      s.completions = [.fileAccessError] ∧
      s.subReads[1]? = some ⟨4, 6, 4, .reading⟩ ∧
      ¬ s.ReportsLast (ObjectClient.size .gcs 4 ⟨0, 10, by decide⟩) := by
  refine ⟨_, rfl, by decide, by decide, fun hlast => ?_⟩
  have hquiet := (hlast (by decide)).2 ⟨4, 6, 4, .reading⟩ (by decide)
  cases hquiet

end Split

end ObjectStorage
end ModelStreamer
