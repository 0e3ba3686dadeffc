import ModelStreamer.Lib.Counting
import ModelStreamer.Lib.Tiling
import ModelStreamer.ObjectStorage.ClientRead

/-!
# What the steps of one read keep

The call, its callbacks and {lit}`stop` take their steps in any order.  The invariants below
say what the steps keep: where the call is, what the counter and the flag say about the
sub-reads, and which part of the range was handed out.

Main results:

- Theorem {lit}`PositionOk.step`: the loop counter is the number of sub-reads.
- Theorem {lit}`SharedOk.step`: the counter is what is missing to all successes, the flag falls
  with the first failure, and each of the two is reported once.
- Theorem {lit}`AreaOk.step`: the sub-reads tile what was handed out.
-/

namespace ModelStreamer
namespace ObjectStorage

open Common Lib Streamer

/-! ## What a step does -/

section Moves

variable {client : ObjectClient} {chunkBytesize : Nat} {range : ObjectRange}
  {s s' : ClientRead} {action : ReadAction}

/-- The state after a callback updated what the sub-reads share. -/
def ClientRead.update (s : ClientRead) (shared : Nat × Bool × SubReadPhase) (k : Nat)
    (subRead : SubRead) : ClientRead :=
  { s with counter := shared.1, isSuccess := shared.2.1 }.setPhase k subRead shared.2.2

/-- The steps of a read. -/
inductive ReadMove (client : ObjectClient) (chunkBytesize : Nat) (range : ObjectRange)
    (s : ClientRead) : ReadAction → ClientRead → Prop
  | stop : ReadMove client chunkBytesize range s .stop { s with stop := true }
  | stopResponder (hstop : s.stop = true) :
      ReadMove client chunkBytesize range s .stopResponder { s with responderStopped := true }
  | call {s' : ClientRead} (hcall : client.asyncRead chunkBytesize range s = some s') :
      ReadMove client chunkBytesize range s .call s'
  | ends {k : Nat} {code : ResponseCode} {subRead : SubRead}
      (hk : s.subReads[k]? = some subRead) (hphase : subRead.phase = .reading) :
      ReadMove client chunkBytesize range s (.ends k code) (s.setPhase k subRead (.ended code))
  | counts {k : Nat} {code : ResponseCode} {subRead : SubRead}
      (hk : s.subReads[k]? = some subRead) (hphase : subRead.phase = .ended code) :
      ReadMove client chunkBytesize range s (.counts k)
        (s.update (client.callback s.counter s.isSuccess code) k subRead)
  | pushes {k : Nat} {code : ResponseCode} {subRead : SubRead}
      (hk : s.subReads[k]? = some subRead) (hphase : subRead.phase = .reporting code) :
      ReadMove client chunkBytesize range s (.pushes k)
        ((s.push code).setPhase k subRead (.done code))

/-- Every step is one of these. -/
theorem readStep_move (h : readStep client chunkBytesize range s action = some s') :
    ReadMove client chunkBytesize range s action s' := by
  cases action with
  | stop =>
      cases h
      exact .stop
  | stopResponder =>
      simp only [readStep] at h
      split_ifs at h with hstop
      cases h
      exact .stopResponder hstop
  | call => exact .call h
  | ends k code =>
      simp only [readStep] at h
      split at h
      · rename_i subRead hk
        split_ifs at h with hphase
        cases h
        exact .ends hk hphase
      · cases h
  | counts k =>
      simp only [readStep] at h
      split at h
      · rename_i subRead hk
        split at h
        · rename_i code hphase
          cases h
          exact .counts hk hphase
        · cases h
      · cases h
  | pushes k =>
      simp only [readStep] at h
      split at h
      · rename_i subRead hk
        split at h
        · rename_i code hphase
          cases h
          exact .pushes hk hphase
        · cases h
      · cases h

/-- The steps of a call that reads in parts. -/
inductive SplitMove (size chunkBytesize : Nat) (s : ClientRead) : ClientRead → Prop
  | goesOn {i : Nat} (hcall : s.call = .checking i) (hlt : i < size) (hstop : s.stop = false) :
      SplitMove size chunkBytesize s { s with call := .starting i }
  | ends {i : Nat} (hcall : s.call = .checking i) (hend : s.stop = false → size ≤ i) :
      SplitMove size chunkBytesize s { s with call := .leaving }
  | starts {i : Nat} (hcall : s.call = .starting i) :
      SplitMove size chunkBytesize s
        (s.startSubRead (if i = size - 1 then s.total else chunkBytesize)
          (.checking (wordAdd 32 i 1)))
  | leaves (hcall : s.call = .leaving) : SplitMove size chunkBytesize s s.leave

/-- Every step of such a call is one of these. -/
theorem splitAsyncRead_move {size : Nat} (h : splitAsyncRead size chunkBytesize s = some s') :
    SplitMove size chunkBytesize s s' := by
  unfold splitAsyncRead at h
  split at h
  · rename_i i hcall
    split_ifs at h with hgo
    · cases h
      exact .goesOn hcall hgo.1 hgo.2
    · cases h
      refine .ends hcall fun hstop => ?_
      by_contra hlt
      exact hgo ⟨by omega, hstop⟩
  · rename_i i hcall
    cases h
    exact .starts hcall
  · rename_i hcall
    cases h
    exact .leaves hcall
  · cases h

/-- A client that reads in parts takes the steps of the loop. -/
theorem asyncRead_split (hsplit : client ≠ .s3) :
    client.asyncRead chunkBytesize range s =
      splitAsyncRead (client.size chunkBytesize range) chunkBytesize s := by
  cases client with
  | s3 => exact absurd rfl hsplit
  | gcs => rfl
  | azure cacheEnabled => rfl

/-- The code that a failed sub-read reports. -/
def ObjectClient.failure (client : ObjectClient) (code : ResponseCode) : ResponseCode :=
  match client with
  | .gcs => .fileAccessError
  | _ => code

/-- A client that reads in parts counts its sub-reads. -/
theorem callback_split (hsplit : client ≠ .s3) (code : ResponseCode) :
    client.callback s.counter s.isSuccess code =
      splitCallback client.failure s.counter s.isSuccess code := by
  cases client with
  | s3 => exact absurd rfl hsplit
  | gcs => rfl
  | azure cacheEnabled => rfl

/-- A failure is not reported as a success. -/
theorem ObjectClient.failure_ne_success {code : ResponseCode} (h : code ≠ .success) :
    client.failure code ≠ .success := by
  cases client with
  | s3 => exact h
  | gcs => simp [ObjectClient.failure]
  | azure cacheEnabled => exact h

/-- There is at least one sub-read. -/
theorem ObjectClient.size_pos (client : ObjectClient) (chunkBytesize : Nat)
    (range : ObjectRange) : 0 < client.size chunkBytesize range := by
  cases client with
  | s3 => exact Nat.one_pos
  | gcs =>
      simp only [ObjectClient.size, gcsSize]
      omega
  | azure cacheEnabled =>
      simp only [ObjectClient.size, azureSize]
      split_ifs <;> omega

/-- Several sub-reads fit into the range. -/
theorem ObjectClient.size_mul_le (client : ObjectClient) (chunkBytesize : Nat)
    (range : ObjectRange) (h : 1 < client.size chunkBytesize range) :
    client.size chunkBytesize range * chunkBytesize ≤ range.length := by
  have hdiv := Nat.div_mul_le_self range.length chunkBytesize
  cases client with
  | s3 => simp [ObjectClient.size] at h
  | gcs =>
      simp only [ObjectClient.size, gcsSize] at h ⊢
      rw [max_eq_right (by omega)]
      exact hdiv
  | azure cacheEnabled =>
      simp only [ObjectClient.size, azureSize] at h ⊢
      split_ifs at h ⊢ with hcache
      · omega
      · rw [max_eq_right (by omega)]
        exact hdiv

end Moves

/-! ## Where the call is -/

section Position

variable {client : ObjectClient} {chunkBytesize : Nat} {range : ObjectRange}
  {s s' : ClientRead} {action : ReadAction}

/-- The call has handed out as many sub-reads as its loop counter says. -/
structure PositionOk (size : Nat) (s : ClientRead) : Prop where
  checking : ∀ i, s.call = .checking i →
    i = toWord 32 s.subReads.length ∧ (size < 2 ^ 32 → s.subReads.length ≤ size)
  starting : ∀ i, s.call = .starting i →
    i = toWord 32 s.subReads.length ∧ (size < 2 ^ 32 → s.subReads.length < size)
  leaving : s.call = .leaving → s.stop = false → size < 2 ^ 32 ∧ s.subReads.length = size
  returned : s.call = .returned .success → size < 2 ^ 32 ∧ s.subReads.length = size
  length_le : size < 2 ^ 32 → s.subReads.length ≤ size

/-- What other threads do leaves the call where it is. -/
theorem PositionOk.congr {size : Nat} (h : PositionOk size s) (hcall : s'.call = s.call)
    (hlength : s'.subReads.length = s.subReads.length)
    (hstop : s'.stop = false → s.stop = false) : PositionOk size s' where
  checking := fun i hi => hlength ▸ h.checking i (hcall ▸ hi)
  starting := fun i hi => hlength ▸ h.starting i (hcall ▸ hi)
  leaving := fun hl hs => hlength ▸ h.leaving (hcall ▸ hl) (hstop hs)
  returned := fun hr => hlength ▸ h.returned (hcall ▸ hr)
  length_le := hlength ▸ h.length_le

/-- The loop counter steps with the number of sub-reads. -/
theorem wordAdd_toWord (n : Nat) : wordAdd 32 (toWord 32 n) 1 = toWord 32 (n + 1) := by
  simp only [wordAdd, toWord]
  omega

/-- A step of the loop keeps the counter in step. -/
theorem PositionOk.splitMove {size : Nat} (h : PositionOk size s)
    (hmove : SplitMove size chunkBytesize s s') : PositionOk size s' := by
  cases hmove with
  | @goesOn i hcall hlt hstop =>
      have hi := h.checking i hcall
      exact
        { checking := fun j hj => by cases hj
          starting := fun j hj => by
            cases hj
            refine ⟨hi.1, fun hsize => ?_⟩
            have hle := hi.2 hsize
            have hword := toWord_of_lt (show s.subReads.length < 2 ^ 32 by omega)
            change s.subReads.length < size
            omega
          leaving := fun hl => by cases hl
          returned := fun hr => by cases hr
          length_le := h.length_le }
  | @ends i hcall hend =>
      have hi := h.checking i hcall
      exact
        { checking := fun j hj => by cases hj
          starting := fun j hj => by cases hj
          leaving := fun _ hstop => by
            have hle := hend hstop
            have hlt : toWord 32 s.subReads.length < 2 ^ 32 := Nat.mod_lt _ (by decide)
            have hsize : size < 2 ^ 32 := by omega
            have hlength := hi.2 hsize
            have hword := toWord_of_lt (show s.subReads.length < 2 ^ 32 by omega)
            refine ⟨hsize, ?_⟩
            change s.subReads.length = size
            omega
          returned := fun hr => by cases hr
          length_le := h.length_le }
  | @starts i hcall =>
      have hi := h.starting i hcall
      exact
        { checking := fun j hj => by
            cases hj
            rw [hi.1, wordAdd_toWord]
            refine ⟨by simp [ClientRead.startSubRead], fun hsize => ?_⟩
            have hlt := hi.2 hsize
            simp only [ClientRead.startSubRead, List.length_append, List.length_singleton]
            omega
          starting := fun j hj => by cases hj
          leaving := fun hl => by cases hl
          returned := fun hr => by cases hr
          length_le := fun hsize => by
            have hlt := hi.2 hsize
            simp only [ClientRead.startSubRead, List.length_append, List.length_singleton]
            omega }
  | leaves hcall =>
      exact
        { checking := fun j hj => by cases hj
          starting := fun j hj => by cases hj
          leaving := fun hl => by cases hl
          returned := fun hr => by
            apply h.leaving hcall
            cases hstop : s.stop with
            | false => rfl
            | true => simp [ClientRead.leave, hstop] at hr
          length_le := h.length_le }

/-- The position is kept by every step. -/
theorem PositionOk.step (hsplit : client ≠ .s3)
    (h : PositionOk (client.size chunkBytesize range) s)
    (hstep : readStep client chunkBytesize range s action = some s') :
    PositionOk (client.size chunkBytesize range) s' := by
  cases readStep_move hstep with
  | stop => exact h.congr rfl rfl (fun hstop => by cases hstop)
  | stopResponder => exact h.congr rfl rfl id
  | call hcall =>
      rw [asyncRead_split hsplit] at hcall
      exact h.splitMove (splitAsyncRead_move hcall)
  | ends hk hphase => exact h.congr rfl (by simp [ClientRead.setPhase]) id
  | counts hk hphase =>
      exact h.congr rfl (by simp [ClientRead.update, ClientRead.setPhase]) id
  | pushes hk hphase => exact h.congr rfl (by simp [ClientRead.setPhase, ClientRead.push]) id

/-- The position at the start. -/
theorem positionOk_start (destination : Addr) (size : Nat) (stop : Bool) :
    PositionOk size (ClientRead.start range destination size stop) where
  checking := fun i hi => by
    have hzero : i = 0 := by simpa [ClientRead.start] using hi.symm
    rw [hzero]
    exact ⟨(toWord_of_lt (Nat.two_pow_pos 32)).symm, fun _ => Nat.zero_le _⟩
  starting := fun i hi => by cases hi
  leaving := fun hl => by cases hl
  returned := fun hr => by cases hr
  length_le := fun _ => Nat.zero_le _

end Position

/-! ## What the callbacks share -/

section Shared

variable {client : ObjectClient} {chunkBytesize : Nat} {range : ObjectRange}
  {s s' : ClientRead} {action : ReadAction} {size : Nat}

/-- The SDK may still write into the destination. -/
def SubReadPhase.writes : SubReadPhase → Bool
  | .reading => true
  | _ => false

/-- The callback has not updated the counter or the flag. -/
def SubReadPhase.isOpen : SubReadPhase → Bool
  | .reading | .ended _ => true
  | _ => false

/-- The callback counted a success. -/
def SubReadPhase.countedOk : SubReadPhase → Bool
  | .reporting code | .done code => code = .success
  | _ => false

/-- The callback recorded a failure. -/
def SubReadPhase.failed : SubReadPhase → Bool
  | .reporting code | .done code => code ≠ .success
  | _ => false

/-- The callback is about to push. -/
def SubReadPhase.reports : SubReadPhase → Bool
  | .reporting _ => true
  | _ => false

/-- The number of sub-reads in such a phase. -/
def ClientRead.number (s : ClientRead) (P : SubReadPhase → Bool) : Nat :=
  s.subReads.countP fun subRead => P subRead.phase

/-- A sub-read that moves is counted in its new phase instead of its old one. -/
theorem number_setPhase {k : Nat} {subRead : SubRead} (hk : s.subReads[k]? = some subRead)
    (phase : SubReadPhase) (P : SubReadPhase → Bool) :
    (s.setPhase k subRead phase).number P + (if P subRead.phase then 1 else 0) =
      s.number P + (if P phase then 1 else 0) :=
  countP_set hk { subRead with phase } fun subRead => P subRead.phase

/-- A sub-read that is started is reading. -/
theorem number_startSubRead (bytesize : Nat) (next : CallPhase) (P : SubReadPhase → Bool) :
    (s.startSubRead bytesize next).number P = s.number P + (if P .reading then 1 else 0) := by
  simp [ClientRead.number, ClientRead.startSubRead, List.countP_append]

/-- A sub-read is open, counted as a success, or counted as a failure. -/
theorem number_phases (s : ClientRead) :
    s.number SubReadPhase.isOpen + s.number SubReadPhase.countedOk +
      s.number SubReadPhase.failed = s.subReads.length := by
  unfold ClientRead.number
  induction s.subReads with
  | nil => rfl
  | cons subRead subReads ih =>
      have hone : (if subRead.phase.isOpen then 1 else 0) +
          (if subRead.phase.countedOk then 1 else 0) +
          (if subRead.phase.failed then 1 else 0) = 1 := by
        cases subRead.phase with
        | reading => rfl
        | ended code => rfl
        | reporting code =>
            by_cases hcode : code = .success <;>
              simp [SubReadPhase.isOpen, SubReadPhase.countedOk, SubReadPhase.failed, hcode]
        | done code =>
            by_cases hcode : code = .success <;>
              simp [SubReadPhase.isOpen, SubReadPhase.countedOk, SubReadPhase.failed, hcode]
      simp only [List.countP_cons, List.length_cons]
      omega

/-- A sub-read that is open is counted as such. -/
theorem number_pos {k : Nat} {subRead : SubRead} (hk : s.subReads[k]? = some subRead)
    {P : SubReadPhase → Bool} (hP : P subRead.phase = true) : 0 < s.number P :=
  List.countP_pos_iff.2 ⟨subRead, List.mem_of_getElem? hk, hP⟩

/-- What a code that is reported says about the counter and the flag. -/
def ClientRead.Backs (s : ClientRead) (code : ResponseCode) : Prop :=
  if code = .success then s.counter = 0 else s.isSuccess = false

/--
The counter and the flag agree with the sub-reads: the counter is what is missing to all
successes, the flag falls with the first failure, and each of the two events is reported once.
-/
structure SharedOk (size : Nat) (s : ClientRead) : Prop where
  counter_eq : s.counter + s.number SubReadPhase.countedOk = size
  flag_iff : s.isSuccess = true ↔ s.number SubReadPhase.failed = 0
  reports : s.number SubReadPhase.reports + s.pushed.length =
    (if s.isSuccess then 0 else 1) + (if s.counter = 0 then 1 else 0)
  reporting : ∀ subRead ∈ s.subReads, ∀ code, subRead.phase = .reporting code → s.Backs code
  pushed : ∀ code ∈ s.pushed, s.Backs code

/-- The call does not touch what the callbacks share. -/
theorem SharedOk.splitMove (h : SharedOk size s) (hmove : SplitMove size chunkBytesize s s') :
    SharedOk size s' := by
  cases hmove with
  | goesOn => exact ⟨h.counter_eq, h.flag_iff, h.reports, h.reporting, h.pushed⟩
  | ends => exact ⟨h.counter_eq, h.flag_iff, h.reports, h.reporting, h.pushed⟩
  | leaves => exact ⟨h.counter_eq, h.flag_iff, h.reports, h.reporting, h.pushed⟩
  | @starts i hcall =>
      have hcount := fun P => number_startSubRead (s := s)
        (if i = size - 1 then s.total else chunkBytesize) (.checking (wordAdd 32 i 1)) P
      refine ⟨?_, ?_, ?_, ?_, h.pushed⟩
      · rw [hcount]
        exact h.counter_eq
      · rw [hcount]
        exact h.flag_iff
      · rw [hcount]
        exact h.reports
      · intro subRead hmem code hphase
        simp only [ClientRead.startSubRead, List.mem_append, List.mem_singleton] at hmem
        cases hmem with
        | inl hold => exact h.reporting subRead hold code hphase
        | inr hnew =>
            rw [hnew] at hphase
            cases hphase

/-- A sub-read that ends is not yet counted. -/
theorem SharedOk.ends {k : Nat} {subRead : SubRead} {code : ResponseCode}
    (h : SharedOk size s) (hk : s.subReads[k]? = some subRead)
    (hphase : subRead.phase = .reading) :
    SharedOk size (s.setPhase k subRead (.ended code)) := by
  have hcount := number_setPhase hk (.ended code)
  rw [hphase] at hcount
  have hok := hcount SubReadPhase.countedOk
  have hfailed := hcount SubReadPhase.failed
  have hreports := hcount SubReadPhase.reports
  simp only [SubReadPhase.countedOk, SubReadPhase.failed, SubReadPhase.reports,
    Bool.false_eq_true, if_false, Nat.add_zero] at hok hfailed hreports
  refine ⟨?_, ?_, ?_, ?_, h.pushed⟩
  · rw [hok]
    exact h.counter_eq
  · rw [hfailed]
    exact h.flag_iff
  · rw [hreports]
    exact h.reports
  · intro other hmem code' hother
    cases List.mem_or_eq_of_mem_set hmem with
    | inl hold => exact h.reporting other hold code' hother
    | inr hnew =>
        rw [hnew] at hother
        cases hother

/-- A counted update moves one sub-read, as {lit}`setPhase` does. -/
theorem number_update {k : Nat} {subRead : SubRead} (hk : s.subReads[k]? = some subRead)
    (shared : Nat × Bool × SubReadPhase) (P : SubReadPhase → Bool) :
    (s.update shared k subRead).number P + (if P subRead.phase then 1 else 0) =
      s.number P + (if P shared.2.2 then 1 else 0) :=
  number_setPhase hk shared.2.2 P

/-- What has to be checked when a callback counts its sub-read. -/
theorem SharedOk.update {k : Nat} {subRead : SubRead} {code : ResponseCode}
    {counter : Nat} {isSuccess : Bool} {next : SubReadPhase} (h : SharedOk size s)
    (hk : s.subReads[k]? = some subRead) (hphase : subRead.phase = .ended code)
    (hcounter : counter + (s.number SubReadPhase.countedOk +
      (if next.countedOk then 1 else 0)) = size)
    (hflag : isSuccess = true ↔
      s.number SubReadPhase.failed + (if next.failed then 1 else 0) = 0)
    (hreports : s.number SubReadPhase.reports + (if next.reports then 1 else 0) +
      s.pushed.length = (if isSuccess then 0 else 1) + (if counter = 0 then 1 else 0))
    (hkeep : ∀ c, s.Backs c → if c = .success then counter = 0 else isSuccess = false)
    (hnext : ∀ c, next = .reporting c →
      if c = .success then counter = 0 else isSuccess = false) :
    SharedOk size (s.update (counter, isSuccess, next) k subRead) := by
  have hcount := number_update hk (counter, isSuccess, next)
  rw [hphase] at hcount
  have hok := hcount SubReadPhase.countedOk
  have hfailed := hcount SubReadPhase.failed
  have hpushes := hcount SubReadPhase.reports
  simp only [SubReadPhase.countedOk.eq_def (.ended code), SubReadPhase.failed.eq_def (.ended code),
    SubReadPhase.reports.eq_def (.ended code), Bool.false_eq_true, if_false,
    Nat.add_zero] at hok hfailed hpushes
  refine ⟨?_, ?_, ?_, ?_, fun c hc => hkeep c (h.pushed c hc)⟩
  · rw [hok]
    exact hcounter
  · rw [hfailed]
    exact hflag
  · rw [hpushes]
    exact hreports
  · intro other hmem c hother
    cases List.mem_or_eq_of_mem_set hmem with
    | inl hold => exact hkeep c (h.reporting other hold c hother)
    | inr hnew =>
        rw [hnew] at hother
        exact hnext c hother

/-- A success counts down, and the last one reports. -/
theorem SharedOk.succeeds {k : Nat} {subRead : SubRead}
    (failure : ResponseCode → ResponseCode) (h : SharedOk size s)
    (hlength : s.subReads.length ≤ size) (hsize : size < 2 ^ 32)
    (hk : s.subReads[k]? = some subRead) (hphase : subRead.phase = .ended .success) :
    SharedOk size (s.update (splitCallback failure s.counter s.isSuccess .success) k subRead) := by
  have hopen : 0 < s.number SubReadPhase.isOpen := number_pos hk (by rw [hphase]; rfl)
  have hphases := number_phases s
  have hcounter := h.counter_eq
  have hpos : 1 ≤ s.counter := by omega
  have hreports := h.reports
  have hne : ¬ s.counter = 0 := by omega
  rw [if_neg hne] at hreports
  rw [splitCallback, if_pos rfl, wordSub_of_le hpos (by omega)]
  have hkeep : ∀ c, s.Backs c →
      if c = .success then s.counter - 1 = 0 else s.isSuccess = false := by
    intro c hc
    unfold ClientRead.Backs at hc
    split_ifs at hc ⊢
    · omega
    · exact hc
  by_cases hlast : s.counter = 1
  · rw [if_pos hlast]
    refine h.update hk hphase ?_ h.flag_iff ?_ hkeep ?_
    · simp only [SubReadPhase.countedOk, decide_true, if_true]
      omega
    · simp only [SubReadPhase.reports, if_true, hlast, Nat.sub_self]
      omega
    · intro c hc
      cases hc
      simp [hlast]
  · rw [if_neg hlast]
    refine h.update hk hphase ?_ h.flag_iff ?_ hkeep ?_
    · simp only [SubReadPhase.countedOk, decide_true, if_true]
      omega
    · rw [if_neg (by omega : ¬ s.counter - 1 = 0)]
      simp only [SubReadPhase.reports, Bool.false_eq_true, if_false]
      omega
    · intro c hc
      cases hc

/-- The first failure lowers the flag and reports. -/
theorem SharedOk.fails {k : Nat} {subRead : SubRead} {code : ResponseCode}
    {failure : ResponseCode → ResponseCode} (hfailure : failure code ≠ .success)
    (h : SharedOk size s) (hcode : code ≠ .success)
    (hk : s.subReads[k]? = some subRead) (hphase : subRead.phase = .ended code) :
    SharedOk size (s.update (splitCallback failure s.counter s.isSuccess code) k subRead) := by
  have hcounter := h.counter_eq
  have hreports := h.reports
  rw [splitCallback, if_neg hcode]
  have hkeep : ∀ c, s.Backs c → if c = .success then s.counter = 0 else false = false := by
    intro c hc
    unfold ClientRead.Backs at hc
    split_ifs at hc ⊢
    · exact hc
    · rfl
  cases hsuccess : s.isSuccess with
  | true =>
      rw [hsuccess] at hreports
      simp only [if_true]
      refine h.update hk hphase ?_ ?_ ?_ hkeep ?_
      · simpa [SubReadPhase.countedOk, hfailure] using hcounter
      · simp [SubReadPhase.failed, hfailure]
      · simp only [SubReadPhase.reports, if_true, Bool.false_eq_true, if_false] at hreports ⊢
        omega
      · intro c hc
        cases hc
        simp [hfailure]
  | false =>
      rw [hsuccess] at hreports
      simp only [Bool.false_eq_true, if_false]
      refine h.update hk hphase ?_ ?_ ?_ hkeep ?_
      · simpa [SubReadPhase.countedOk, hcode] using hcounter
      · simp [SubReadPhase.failed, hcode]
      · simp only [SubReadPhase.reports, Bool.false_eq_true, if_false] at hreports ⊢
        omega
      · intro c hc
        cases hc

/-- A report that is pushed becomes a completion. -/
theorem SharedOk.pushes {k : Nat} {subRead : SubRead} {code : ResponseCode}
    (h : SharedOk size s) (hk : s.subReads[k]? = some subRead)
    (hphase : subRead.phase = .reporting code) :
    SharedOk size ((s.push code).setPhase k subRead (.done code)) := by
  have hcount := number_setPhase hk (.done code)
  rw [hphase] at hcount
  have hok := hcount SubReadPhase.countedOk
  have hfailed := hcount SubReadPhase.failed
  have hreports := hcount SubReadPhase.reports
  replace hok := Nat.add_right_cancel hok
  replace hfailed := Nat.add_right_cancel hfailed
  simp only [SubReadPhase.reports, if_true, Bool.false_eq_true, if_false] at hreports
  have hold := h.reports
  have hbacks := h.reporting subRead (List.mem_of_getElem? hk) code hphase
  refine ⟨?_, ?_, ?_, ?_, ?_⟩
  · change s.counter + (s.setPhase k subRead (.done code)).number _ = size
    rw [hok]
    exact h.counter_eq
  · change _ ↔ (s.setPhase k subRead (.done code)).number _ = 0
    rw [hfailed]
    exact h.flag_iff
  · change (s.setPhase k subRead (.done code)).number _ + (s.pushed ++ [code]).length =
      (if s.isSuccess then 0 else 1) + (if s.counter = 0 then 1 else 0)
    rw [List.length_append, List.length_singleton]
    omega
  · intro other hmem c hother
    cases List.mem_or_eq_of_mem_set hmem with
    | inl hin => exact h.reporting other hin c hother
    | inr hnew =>
        rw [hnew] at hother
        cases hother
  · intro c hc
    cases List.mem_append.1 hc with
    | inl hin => exact h.pushed c hin
    | inr hnew =>
        rw [List.mem_singleton.1 hnew]
        exact hbacks

/-- The agreement is kept by every step. -/
theorem SharedOk.step (hsplit : client ≠ .s3)
    (hsize : client.size chunkBytesize range < 2 ^ 32)
    (hposition : PositionOk (client.size chunkBytesize range) s)
    (h : SharedOk (client.size chunkBytesize range) s)
    (hstep : readStep client chunkBytesize range s action = some s') :
    SharedOk (client.size chunkBytesize range) s' := by
  cases readStep_move hstep with
  | stop => exact ⟨h.counter_eq, h.flag_iff, h.reports, h.reporting, h.pushed⟩
  | stopResponder => exact ⟨h.counter_eq, h.flag_iff, h.reports, h.reporting, h.pushed⟩
  | call hcall =>
      rw [asyncRead_split hsplit] at hcall
      exact h.splitMove (splitAsyncRead_move hcall)
  | ends hk hphase => exact h.ends hk hphase
  | @counts k code subRead hk hphase =>
      rw [callback_split hsplit]
      by_cases hcode : code = .success
      · subst hcode
        exact h.succeeds _ (hposition.length_le hsize) hsize hk hphase
      · exact h.fails (ObjectClient.failure_ne_success hcode) hcode hk hphase
  | pushes hk hphase => exact h.pushes hk hphase

/-- What the callbacks share at the start. -/
theorem sharedOk_start (range : ObjectRange) (destination : Addr) (stop : Bool)
    (hpos : 0 < size) (hsize : size < 2 ^ 32) :
    SharedOk size (ClientRead.start range destination size stop) := by
  have hword := toWord_of_lt hsize
  refine ⟨?_, ?_, ?_, ?_, ?_⟩
  · simpa [ClientRead.number, ClientRead.start] using hword
  · simp [ClientRead.number, ClientRead.start]
  · have hne : toWord 32 size ≠ 0 := by omega
    simp [ClientRead.number, ClientRead.start, hne]
  · simp [ClientRead.start]
  · simp [ClientRead.start]

end Shared

/-! ## Which part of the range was handed out -/

section Area

variable {client : ObjectClient} {chunkBytesize : Nat} {range : ObjectRange}
  {destination : Addr} {s s' : ClientRead} {action : ReadAction} {size : Nat}

/-- What a sub-read reads, and where to. -/
def SubRead.area (subRead : SubRead) : Nat × Nat × Addr :=
  (subRead.offset, subRead.bytesize, subRead.buffer)

/-- A sub-read that moves to another phase keeps its area. -/
theorem map_area_setPhase {k : Nat} {subRead : SubRead}
    (hk : s.subReads[k]? = some subRead) (phase : SubReadPhase) :
    (s.setPhase k subRead phase).subReads.map SubRead.area = s.subReads.map SubRead.area := by
  apply List.ext_getElem?
  intro j
  simp only [ClientRead.setPhase, List.getElem?_map, getElem?_set_of_some hk]
  split_ifs with hj
  · rw [hj, hk]
    rfl
  · rfl

/-- The bytes that the first sub-reads cover. -/
def handedOut (size chunkBytesize : Nat) (range : ObjectRange) (n : Nat) : Nat :=
  if n = size then range.length else n * chunkBytesize

/-- The sub-reads that were started tile what the variables of the loop have passed. -/
structure AreaOk (size chunkBytesize : Nat) (range : ObjectRange) (destination : Addr)
    (s : ClientRead) : Prop where
  offset_eq : s.offset =
    range.offset + handedOut size chunkBytesize range s.subReads.length
  total_eq : s.total =
    range.length - handedOut size chunkBytesize range s.subReads.length
  buffer_eq : s.buffer =
    ptrAdd destination (handedOut size chunkBytesize range s.subReads.length)
  tiles : Contiguous (fun area : Nat × Nat × Addr => area.1) (fun area => area.1 + area.2.1)
    range.offset s.offset (s.subReads.map SubRead.area)
  buffers : ∀ area ∈ s.subReads.map SubRead.area,
    area.2.2 = ptrAdd destination (area.1 - range.offset)

/-- Only the areas of the sub-reads and the variables of the loop matter. -/
theorem AreaOk.congr (h : AreaOk size chunkBytesize range destination s)
    (hoffset : s'.offset = s.offset) (htotal : s'.total = s.total)
    (hbuffer : s'.buffer = s.buffer)
    (harea : s'.subReads.map SubRead.area = s.subReads.map SubRead.area) :
    AreaOk size chunkBytesize range destination s' := by
  have hlength : s'.subReads.length = s.subReads.length := by
    simpa using congrArg List.length harea
  refine ⟨?_, ?_, ?_, ?_, ?_⟩
  · rw [hoffset, hlength]
    exact h.offset_eq
  · rw [htotal, hlength]
    exact h.total_eq
  · rw [hbuffer, hlength]
    exact h.buffer_eq
  · rw [hoffset, harea]
    exact h.tiles
  · rw [harea]
    exact h.buffers

/-- What was handed out lies in the range. -/
theorem handedOut_le (range : ObjectRange)
    (hfits : 1 < size → size * chunkBytesize ≤ range.length) {n : Nat} (hn : n ≤ size) :
    handedOut size chunkBytesize range n ≤ range.length := by
  unfold handedOut
  split_ifs with hall
  · exact le_refl _
  · by_cases hone : 1 < size
    · exact (Nat.mul_le_mul_right _ hn).trans (hfits hone)
    · have hzero : n = 0 := by omega
      simp [hzero]

/-- The next sub-read covers what comes next. -/
theorem handedOut_succ (range : ObjectRange)
    (hfits : 1 < size → size * chunkBytesize ≤ range.length) {n : Nat} (hn : n < size) :
    handedOut size chunkBytesize range n +
      (if n = size - 1 then range.length - handedOut size chunkBytesize range n
        else chunkBytesize) = handedOut size chunkBytesize range (n + 1) := by
  have hle := handedOut_le range hfits (le_of_lt hn)
  by_cases hlast : n = size - 1
  · rw [if_pos hlast, handedOut.eq_def size chunkBytesize range (n + 1), if_pos (by omega)]
    omega
  · rw [if_neg hlast]
    unfold handedOut
    rw [if_neg (by omega), if_neg (by omega), Nat.succ_mul]

/-- A step of the loop hands out the next part. -/
theorem AreaOk.splitMove (hfits : 1 < size → size * chunkBytesize ≤ range.length)
    (hsize : size < 2 ^ 32) (hposition : PositionOk size s)
    (h : AreaOk size chunkBytesize range destination s)
    (hmove : SplitMove size chunkBytesize s s') :
    AreaOk size chunkBytesize range destination s' := by
  cases hmove with
  | goesOn => exact h.congr rfl rfl rfl rfl
  | ends => exact h.congr rfl rfl rfl rfl
  | leaves => exact h.congr rfl rfl rfl rfl
  | @starts i hcall =>
      obtain ⟨hi, hlt⟩ := hposition.starting i hcall
      replace hlt := hlt hsize
      rw [toWord_of_lt (by omega)] at hi
      subst hi
      have hrange := range.fits
      have hsum := handedOut_succ range hfits hlt
      have hle := handedOut_le range hfits (show s.subReads.length + 1 ≤ size from hlt)
      rw [h.total_eq]
      generalize hbytes : (if s.subReads.length = size - 1 then
        range.length - handedOut size chunkBytesize range s.subReads.length
        else chunkBytesize) = bytesize at hsum ⊢
      have hnext : wordAdd 64 s.offset bytesize = s.offset + bytesize := by
        apply wordAdd_of_lt
        rw [h.offset_eq]
        omega
      have hlength : (s.startSubRead bytesize
          (.checking (wordAdd 32 s.subReads.length 1))).subReads.length =
            s.subReads.length + 1 := by
        simp [ClientRead.startSubRead]
      have hareas : (s.startSubRead bytesize
          (.checking (wordAdd 32 s.subReads.length 1))).subReads.map SubRead.area =
            s.subReads.map SubRead.area ++ [(s.offset, bytesize, s.buffer)] := by
        simp [ClientRead.startSubRead, SubRead.area]
      refine ⟨?_, ?_, ?_, ?_, ?_⟩
      · rw [hlength, ← hsum, ← Nat.add_assoc, ← h.offset_eq]
        exact hnext
      · rw [hlength]
        change wordSub 64 s.total bytesize = _
        rw [wordSub_of_le (by rw [h.total_eq]; omega) (by rw [h.total_eq]; omega), h.total_eq]
        omega
      · rw [hlength, ← hsum, ← ptrAdd_ptrAdd, ← h.buffer_eq]
        rfl
      · rw [hareas]
        change Contiguous _ _ _ (wordAdd 64 s.offset bytesize) _
        rw [hnext]
        exact h.tiles.concat (x := (s.offset, bytesize, s.buffer)) rfl
      · intro area harea
        rw [hareas] at harea
        cases List.mem_append.1 harea with
        | inl hold => exact h.buffers area hold
        | inr hnew =>
            rw [List.mem_singleton.1 hnew, h.buffer_eq, h.offset_eq]
            simp

/-- The areas are kept by every step. -/
theorem AreaOk.step (hsplit : client ≠ .s3)
    (hsize : client.size chunkBytesize range < 2 ^ 32)
    (hposition : PositionOk (client.size chunkBytesize range) s)
    (h : AreaOk (client.size chunkBytesize range) chunkBytesize range destination s)
    (hstep : readStep client chunkBytesize range s action = some s') :
    AreaOk (client.size chunkBytesize range) chunkBytesize range destination s' := by
  cases readStep_move hstep with
  | stop => exact h.congr rfl rfl rfl rfl
  | stopResponder => exact h.congr rfl rfl rfl rfl
  | call hcall =>
      rw [asyncRead_split hsplit] at hcall
      exact h.splitMove (client.size_mul_le chunkBytesize range) hsize hposition
        (splitAsyncRead_move hcall)
  | ends hk hphase => exact h.congr rfl rfl rfl (map_area_setPhase hk _)
  | counts hk hphase => exact h.congr rfl rfl rfl (map_area_setPhase hk _)
  | pushes hk hphase => exact h.congr rfl rfl rfl (map_area_setPhase hk _)

/-- Nothing was handed out at the start. -/
theorem areaOk_start (range : ObjectRange) (destination : Addr) (stop : Bool)
    (hpos : 0 < size) :
    AreaOk size chunkBytesize range destination
      (ClientRead.start range destination size stop) := by
  have hzero : handedOut size chunkBytesize range 0 = 0 := by
    rw [handedOut, if_neg (by omega), Nat.zero_mul]
  refine ⟨?_, ?_, ?_, rfl, by simp [ClientRead.start]⟩
  · change range.offset = range.offset + handedOut size chunkBytesize range 0
    rw [hzero, Nat.add_zero]
  · change range.length = range.length - handedOut size chunkBytesize range 0
    rw [hzero, Nat.sub_zero]
  · change destination = ptrAdd destination (handedOut size chunkBytesize range 0)
    rw [hzero, ptrAdd_zero]

end Area

end ObjectStorage
end ModelStreamer
