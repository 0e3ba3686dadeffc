import ModelStreamer.ObjectStorage.SplitRead

/-!
# Reads of a client that is stopped

{lit}`ObjectStorageWorker::submit` takes a code other than a success to mean that nothing was
started, and takes the staging buffer back.

Main results:

- Theorem {lit}`stopped_read_contract`: the code of a call says what became of its reads exactly
  if {lit}`stop` does not come between the first check and the return, and the responder is not
  stopped before a callback pushes to it.
-/

namespace ModelStreamer
namespace ObjectStorage

open Common Lib Streamer

/-! ## The steps of a call -/

section Stop

variable {client : ObjectClient} {chunkBytesize : Nat} {range : ObjectRange}
  {destination : Addr} {s s' : ClientRead} {action : ReadAction} {size : Nat}

/--
What the code of a call says: a refused read has started nothing and will not complete, and an
accepted one completes once, when its callbacks have run.
-/
structure CallContract (s : ClientRead) : Prop where
  refused : ∀ code, s.call = .returned code → code ≠ .success →
    s.subReads = [] ∧ s.completions = []
  accepted : s.call = .returned .success → s.completions.length ≤ 1 ∧
    ((∀ subRead ∈ s.subReads, subRead.phase.isDone = true) → s.completions.length = 1)

/-- The client is stopped before the first check of the call, or after its return. -/
def StopsOutside (s : ClientRead) (action : ReadAction) : Prop :=
  action = .stop → s.stop = false →
    (s.call = .checking 0 ∧ s.subReads = []) ∨ ∃ code, s.call = .returned code

/-- A callback pushes to a responder that was not stopped. -/
def DeliversPush (s : ClientRead) (action : ReadAction) : Prop :=
  ∀ k, action = .pushes k → s.responderStopped = false

/-- The steps of the call of any client. -/
inductive CallMove (s : ClientRead) : ClientRead → Prop
  | goesOn {i j : Nat} (hcall : s.call = .checking i) (hstop : s.stop = false) :
      CallMove s { s with call := .starting j }
  | refuses {i : Nat} (hcall : s.call = .checking i) (hstop : s.stop = true) :
      CallMove s { s with call := .returned .finishedError }
  | ends {i : Nat} (hcall : s.call = .checking i) : CallMove s { s with call := .leaving }
  | starts {i bytesize : Nat} {next : CallPhase} (hcall : s.call = .starting i)
      (hnext : next = .leaving ∨ ∃ j, next = .checking j) :
      CallMove s (s.startSubRead bytesize next)
  | leaves (hcall : s.call = .leaving) : CallMove s s.leave

/-- Every step of the call is one of these. -/
theorem asyncRead_move (h : client.asyncRead chunkBytesize range s = some s') :
    CallMove s s' := by
  by_cases hs3 : client = .s3
  · subst hs3
    change s3AsyncRead range s = some s' at h
    unfold s3AsyncRead at h
    split at h
    · rename_i i hcall
      split_ifs at h with hstop
      · cases h
        exact .refuses hcall hstop
      · cases h
        exact .goesOn hcall (by simpa using hstop)
    · rename_i i hcall
      cases h
      exact .starts hcall (.inl rfl)
    · rename_i hcall
      cases h
      exact .leaves hcall
    · cases h
  · rw [asyncRead_split hs3] at h
    cases splitAsyncRead_move h with
    | goesOn hcall hlt hstop => exact .goesOn hcall hstop
    | ends hcall hend => exact .ends hcall
    | starts hcall => exact .starts hcall (.inr ⟨_, rfl⟩)
    | leaves hcall => exact .leaves hcall

/-- Nothing was started on behalf of a client that was stopped in time. -/
structure RefusedOk (s : ClientRead) : Prop where
  stopped : s.stop = true → s.subReads = [] ∧ (∀ i, s.call ≠ .starting i) ∨
    ∃ code, s.call = .returned code
  refused : ∀ code, s.call = .returned code → code ≠ .success → s.subReads = []
  silent : s.subReads = [] → s.completions = []

/-- A list with an entry is not empty. -/
theorem ne_nil_of_getElem? {subReads : List SubRead} {k : Nat} {subRead : SubRead}
    (hk : subReads[k]? = some subRead) : subReads ≠ [] :=
  List.ne_nil_of_mem (List.mem_of_getElem? hk)

/-- A callback runs only where a read was started. -/
theorem RefusedOk.moved (h : RefusedOk s) (hne : s.subReads ≠ []) (hstop : s'.stop = s.stop)
    (hcall : s'.call = s.call) (hlength : s'.subReads.length = s.subReads.length) :
    RefusedOk s' := by
  have hne' : s'.subReads ≠ [] := by
    rw [← List.length_pos_iff, hlength]
    exact List.length_pos_iff.2 hne
  refine ⟨fun hstopped => .inr ?_, fun code hcode hfail => ?_, fun hnone => absurd hnone hne'⟩
  · rw [hstop] at hstopped
    cases h.stopped hstopped with
    | inl hempty => exact absurd hempty.1 hne
    | inr hreturned =>
        rw [hcall]
        exact hreturned
  · rw [hcall] at hcode
    exact absurd (h.refused code hcode hfail) hne

/-- A step under the condition keeps it so. -/
theorem RefusedOk.step (h : RefusedOk s) (houtside : StopsOutside s action)
    (hstep : readStep client chunkBytesize range s action = some s') : RefusedOk s' := by
  cases readStep_move hstep with
  | stopResponder => exact ⟨h.stopped, h.refused, h.silent⟩
  | stop =>
      refine ⟨fun _ => ?_, h.refused, h.silent⟩
      cases hstop : s.stop with
      | true => exact h.stopped hstop
      | false =>
          cases houtside rfl hstop with
          | inl hfirst => exact .inl ⟨hfirst.2, fun i hi => by rw [hfirst.1] at hi; cases hi⟩
          | inr hreturned => exact .inr hreturned
  | call hcall =>
      cases asyncRead_move hcall with
      | goesOn hchecking hstop =>
          refine ⟨fun hstopped => ?_, fun code hcode => ?_, h.silent⟩
          · rw [show s.stop = true from hstopped] at hstop
            cases hstop
          · cases hcode
      | refuses hchecking hstop =>
          have hnone : s.subReads = [] := by
            cases h.stopped hstop with
            | inl hempty => exact hempty.1
            | inr hreturned =>
                obtain ⟨code, hcode⟩ := hreturned
                rw [hchecking] at hcode
                cases hcode
          exact ⟨fun _ => .inr ⟨_, rfl⟩, fun _ _ _ => hnone, h.silent⟩
      | ends hchecking =>
          refine ⟨fun hstopped => ?_, fun code hcode => ?_, h.silent⟩
          · cases h.stopped hstopped with
            | inl hempty => exact .inl ⟨hempty.1, fun i hi => by cases hi⟩
            | inr hreturned =>
                obtain ⟨code, hcode⟩ := hreturned
                rw [hchecking] at hcode
                cases hcode
          · cases hcode
      | @starts i bytesize next hstarting hnext =>
          refine ⟨fun hstopped => ?_, fun code hcode => ?_, fun hnone => ?_⟩
          · cases h.stopped hstopped with
            | inl hempty => exact absurd hstarting (hempty.2 i)
            | inr hreturned =>
                obtain ⟨code, hcode⟩ := hreturned
                rw [hstarting] at hcode
                cases hcode
          · have hcall' : next = .returned code := hcode
            rw [hcall'] at hnext
            cases hnext with
            | inl hleaving => cases hleaving
            | inr hchecking =>
                obtain ⟨j, hj⟩ := hchecking
                cases hj
          · simp [ClientRead.startSubRead] at hnone
      | leaves hleaving =>
          refine ⟨fun _ => .inr ⟨_, rfl⟩, fun code hcode hne => ?_, h.silent⟩
          cases hstop : s.stop with
          | true =>
              cases h.stopped hstop with
              | inl hempty => exact hempty.1
              | inr hreturned =>
                  obtain ⟨code, hcode⟩ := hreturned
                  rw [hleaving] at hcode
                  cases hcode
          | false =>
              simp only [ClientRead.leave, hstop] at hcode
              cases hcode
              exact absurd rfl hne
  | ends hk => exact h.moved (ne_nil_of_getElem? hk) rfl rfl (by simp [ClientRead.setPhase])
  | counts hk =>
      exact h.moved (ne_nil_of_getElem? hk) rfl rfl
        (by simp [ClientRead.update, ClientRead.setPhase])
  | pushes hk =>
      exact h.moved (ne_nil_of_getElem? hk) rfl rfl (by simp [ClientRead.setPhase, ClientRead.push])

/-- The client was stopped too late for a call to say that nothing was started. -/
structure StoppedLate (s : ClientRead) : Prop where
  stopped : s.stop = true
  started : s.subReads ≠ [] ∨ ∃ i, s.call = .starting i
  returned : ∀ code, s.call = .returned code → code ≠ .success ∧ s.subReads ≠ []

/-- It stays too late. -/
theorem StoppedLate.step (h : StoppedLate s)
    (hstep : readStep client chunkBytesize range s action = some s') : StoppedLate s' := by
  have hsubReads : (∀ i, s.call ≠ .starting i) → s.subReads ≠ [] := by
    intro hcall
    cases h.started with
    | inl hne => exact hne
    | inr hstarting =>
        obtain ⟨i, hi⟩ := hstarting
        exact absurd hi (hcall i)
  cases readStep_move hstep with
  | stop => exact ⟨rfl, h.started, h.returned⟩
  | stopResponder => exact ⟨h.stopped, h.started, h.returned⟩
  | call hcall =>
      cases asyncRead_move hcall with
      | goesOn hchecking hstop =>
          rw [h.stopped] at hstop
          cases hstop
      | refuses hchecking =>
          have hne := hsubReads fun i hi => by rw [hchecking] at hi; cases hi
          exact ⟨h.stopped, .inl hne, fun code hcode => ⟨by cases hcode; simp, hne⟩⟩
      | ends hchecking =>
          have hne := hsubReads fun i hi => by rw [hchecking] at hi; cases hi
          exact ⟨h.stopped, .inl hne, fun code hcode => by cases hcode⟩
      | @starts i bytesize next hstarting hnext =>
          refine ⟨h.stopped, .inl (by simp [ClientRead.startSubRead]), fun code hcode => ?_⟩
          rw [show next = .returned code from hcode] at hnext
          cases hnext with
          | inl hleaving => cases hleaving
          | inr hchecking =>
              obtain ⟨j, hj⟩ := hchecking
              cases hj
      | leaves hleaving =>
          have hne := hsubReads fun i hi => by rw [hleaving] at hi; cases hi
          refine ⟨h.stopped, .inl hne, fun code hcode => ?_⟩
          simp only [ClientRead.leave, h.stopped] at hcode
          cases hcode
          exact ⟨by simp, hne⟩
  | ends hk =>
      have hne := ne_nil_of_getElem? hk
      exact ⟨h.stopped, .inl (by simpa [ClientRead.setPhase] using hne),
        fun code hcode => ⟨(h.returned code hcode).1, by simpa [ClientRead.setPhase] using hne⟩⟩
  | counts hk =>
      have hne := ne_nil_of_getElem? hk
      exact ⟨h.stopped, .inl (by simpa [ClientRead.update, ClientRead.setPhase] using hne),
        fun code hcode => ⟨(h.returned code hcode).1,
          by simpa [ClientRead.update, ClientRead.setPhase] using hne⟩⟩
  | pushes hk =>
      have hne := ne_nil_of_getElem? hk
      exact ⟨h.stopped, .inl (by simpa [ClientRead.setPhase, ClientRead.push] using hne),
        fun code hcode => ⟨(h.returned code hcode).1,
          by simpa [ClientRead.setPhase, ClientRead.push] using hne⟩⟩

/-- A completion that the caller will not get. -/
structure LostPush (s : ClientRead) : Prop where
  missing : s.completions.length < s.pushed.length
  started : s.subReads ≠ []

/-- It stays lost. -/
theorem LostPush.step (h : LostPush s)
    (hstep : readStep client chunkBytesize range s action = some s') : LostPush s' := by
  cases readStep_move hstep with
  | stop => exact ⟨h.missing, h.started⟩
  | stopResponder => exact ⟨h.missing, h.started⟩
  | call hcall =>
      cases asyncRead_move hcall with
      | goesOn => exact ⟨h.missing, h.started⟩
      | refuses => exact ⟨h.missing, h.started⟩
      | ends => exact ⟨h.missing, h.started⟩
      | starts => exact ⟨h.missing, by simp [ClientRead.startSubRead]⟩
      | leaves => exact ⟨h.missing, h.started⟩
  | ends hk => exact ⟨h.missing, by simpa [ClientRead.setPhase] using h.started⟩
  | counts hk =>
      exact ⟨h.missing, by simpa [ClientRead.update, ClientRead.setPhase] using h.started⟩
  | pushes hk =>
      refine ⟨?_, by simpa [ClientRead.setPhase, ClientRead.push] using h.started⟩
      have hmissing := h.missing
      simp only [ClientRead.setPhase, ClientRead.push, List.length_append, List.length_singleton]
      split_ifs
      · omega
      · rw [List.length_append, List.length_singleton]
        omega

/-- The responder has no more than what was pushed. -/
theorem length_completions_step (h : s.completions.length ≤ s.pushed.length)
    (hstep : readStep client chunkBytesize range s action = some s') :
    s'.completions.length ≤ s'.pushed.length := by
  cases readStep_move hstep with
  | stop => exact h
  | stopResponder => exact h
  | call hcall => cases asyncRead_move hcall <;> exact h
  | ends => exact h
  | counts => exact h
  | pushes =>
      simp only [ClientRead.setPhase, ClientRead.push, List.length_append, List.length_singleton]
      split_ifs
      · omega
      · rw [List.length_append, List.length_singleton]
        omega

/-- The responder has what was pushed while it was not stopped. -/
theorem completions_eq_step (h : s.completions = s.pushed) (hdelivers : DeliversPush s action)
    (hstep : readStep client chunkBytesize range s action = some s') :
    s'.completions = s'.pushed := by
  cases readStep_move hstep with
  | stop => exact h
  | stopResponder => exact h
  | call hcall => cases asyncRead_move hcall <;> exact h
  | ends => exact h
  | counts => exact h
  | @pushes k =>
      simp [ClientRead.setPhase, ClientRead.push, hdelivers k rfl, h]

/-- A push to a stopped responder is lost. -/
theorem lostPush_of_push (hlength : s.completions.length ≤ s.pushed.length)
    (hlost : ¬ DeliversPush s action)
    (hstep : readStep client chunkBytesize range s action = some s') : LostPush s' := by
  simp only [DeliversPush, Classical.not_forall] at hlost
  obtain ⟨k, rfl, hstopped⟩ := hlost
  cases readStep_move hstep with
  | pushes hk =>
      have hne := ne_nil_of_getElem? hk
      refine ⟨?_, by simpa [ClientRead.setPhase, ClientRead.push] using hne⟩
      have htrue : s.responderStopped = true := by simpa using hstopped
      simp only [ClientRead.setPhase, ClientRead.push, htrue, if_true, List.length_append,
        List.length_singleton]
      omega

/-- The callback has not returned. -/
def SubReadPhase.isPending (phase : SubReadPhase) : Bool :=
  !phase.isDone

/-- The single read of {lit}`S3Client` is started once, and each read reports once. -/
structure SingleOk (s : ClientRead) : Prop where
  checking : ∀ i, s.call = .checking i → i = 0 ∧ s.subReads = []
  starting : ∀ i, s.call = .starting i → s.subReads = []
  leaving : s.call = .leaving → s.subReads.length = 1
  returned : s.call = .returned .success → s.subReads.length = 1
  length_le : s.subReads.length ≤ 1
  balance : s.pushed.length + s.number SubReadPhase.isPending = s.subReads.length

/-- A callback that moves on keeps the call where it is. -/
theorem SingleOk.moved (h : SingleOk s) (hcall : s'.call = s.call)
    (hlength : s'.subReads.length = s.subReads.length)
    (hbalance : s'.pushed.length + s'.number SubReadPhase.isPending =
      s.pushed.length + s.number SubReadPhase.isPending) : SingleOk s' where
  checking := fun i hi => by
    obtain ⟨hzero, hnone⟩ := h.checking i (hcall ▸ hi)
    exact ⟨hzero, List.eq_nil_of_length_eq_zero (by rw [hlength, hnone]; rfl)⟩
  starting := fun i hi => by
    have hnone := h.starting i (hcall ▸ hi)
    exact List.eq_nil_of_length_eq_zero (by rw [hlength, hnone]; rfl)
  leaving := fun hl => hlength ▸ h.leaving (hcall ▸ hl)
  returned := fun hr => hlength ▸ h.returned (hcall ▸ hr)
  length_le := hlength ▸ h.length_le
  balance := by
    rw [hbalance, hlength]
    exact h.balance

/-- Every step of {lit}`S3Client` keeps it so. -/
theorem SingleOk.step (h : SingleOk s)
    (hstep : readStep .s3 chunkBytesize range s action = some s') : SingleOk s' := by
  cases readStep_move hstep with
  | stop => exact h.moved rfl rfl rfl
  | stopResponder => exact h.moved rfl rfl rfl
  | call hcall =>
      change s3AsyncRead range s = some s' at hcall
      unfold s3AsyncRead at hcall
      split at hcall
      · rename_i i hchecking
        have hnone := (h.checking i hchecking).2
        split_ifs at hcall with hstop
        · cases hcall
          exact ⟨fun j hj => (by cases hj), fun j hj => (by cases hj), fun hl => (by cases hl),
            fun hr => (by cases hr), h.length_le, h.balance⟩
        · cases hcall
          exact ⟨fun j hj => (by cases hj), fun _ _ => hnone, fun hl => (by cases hl),
            fun hr => (by cases hr), h.length_le, h.balance⟩
      · rename_i i hstarting
        have hnone := h.starting i hstarting
        have hbalance := h.balance
        cases hcall
        have hlength : (s.startSubRead range.length .leaving).subReads.length = 1 := by
          simp [ClientRead.startSubRead, hnone]
        refine ⟨fun j hj => (by cases hj), fun j hj => (by cases hj), fun _ => hlength,
          fun hr => (by cases hr), le_of_eq hlength, ?_⟩
        rw [hlength, number_startSubRead]
        rw [hnone] at hbalance
        change s.pushed.length + (s.number SubReadPhase.isPending + 1) = 1
        simp only [List.length_nil] at hbalance
        omega
      · rename_i hleaving
        have hone := h.leaving hleaving
        cases hcall
        exact ⟨fun j hj => (by cases hj), fun j hj => (by cases hj), fun hl => (by cases hl),
          fun _ => hone, h.length_le, h.balance⟩
      · cases hcall
  | @ends k code subRead hk hphase =>
      have hcount := number_setPhase hk (.ended code) SubReadPhase.isPending
      rw [hphase] at hcount
      refine h.moved rfl (by simp [ClientRead.setPhase]) ?_
      exact congrArg _ (Nat.add_right_cancel hcount)
  | @counts k code subRead hk hphase =>
      have hcount := number_setPhase hk (.reporting code) SubReadPhase.isPending
      rw [hphase] at hcount
      refine h.moved rfl (by simp [ClientRead.update, ClientRead.setPhase]) ?_
      exact congrArg _ (Nat.add_right_cancel hcount)
  | @pushes k code subRead hk hphase =>
      have hcount := number_setPhase hk (.done code) SubReadPhase.isPending
      rw [hphase] at hcount
      refine h.moved rfl (by simp [ClientRead.setPhase, ClientRead.push]) ?_
      change (s.pushed ++ [code]).length +
        (s.setPhase k subRead (.done code)).number SubReadPhase.isPending =
          s.pushed.length + s.number SubReadPhase.isPending
      replace hcount : (s.setPhase k subRead (.done code)).number SubReadPhase.isPending + 1 =
        s.number SubReadPhase.isPending := hcount
      rw [List.length_append, List.length_singleton]
      omega

/-- The single read at its start. -/
theorem singleOk_start (destination : Addr) (stop : Bool) :
    SingleOk (ObjectClient.start .s3 chunkBytesize range destination stop) where
  checking := fun i hi => by
    cases hi
    exact ⟨rfl, rfl⟩
  starting := fun i hi => by cases hi
  leaving := fun hl => by cases hl
  returned := fun hr => by cases hr
  length_le := Nat.zero_le _
  balance := rfl

/-- A call has started a read when its loop has gone on, or when it leaves unstopped. -/
structure StartedOk (s : ClientRead) : Prop where
  checking : ∀ i, s.call = .checking i → i ≠ 0 → s.subReads ≠ []
  leaving : s.call = .leaving → s.stop = false → s.subReads ≠ []

/-- A single read was started when the call leaves. -/
theorem SingleOk.startedOk (h : SingleOk s) : StartedOk s where
  checking := fun i hi hne => absurd (h.checking i hi).1 hne
  leaving := fun hl _ hnone => by
    have hone := h.leaving hl
    rw [hnone] at hone
    cases hone

/-- A read in parts was started when its counter is not zero, or when the call leaves. -/
theorem PositionOk.startedOk (hpos : 0 < size) (h : PositionOk size s) : StartedOk s where
  checking := fun i hi hne hnone => by
    have hword := (h.checking i hi).1
    rw [hnone, List.length_nil, toWord_of_lt (Nat.two_pow_pos 32)] at hword
    exact hne hword
  leaving := fun hl hstop hnone => by
    have hall := (h.leaving hl hstop).2
    rw [hnone, List.length_nil] at hall
    omega

/-- What is known of the reads of every client. -/
def ReadOk (client : ObjectClient) (chunkBytesize : Nat) (range : ObjectRange)
    (s : ClientRead) : Prop :=
  match client with
  | .s3 => SingleOk s
  | _ => PositionOk (client.size chunkBytesize range) s ∧
      (client.size chunkBytesize range < 2 ^ 32 →
        SharedOk (client.size chunkBytesize range) s)

/-- The form of the invariant for the clients that read in parts. -/
theorem readOk_split (hsplit : client ≠ .s3) :
    ReadOk client chunkBytesize range s ↔
      PositionOk (client.size chunkBytesize range) s ∧
        (client.size chunkBytesize range < 2 ^ 32 →
          SharedOk (client.size chunkBytesize range) s) := by
  cases client with
  | s3 => exact absurd rfl hsplit
  | gcs => rfl
  | azure cacheEnabled => rfl

/-- Every step keeps what is known of the reads. -/
theorem ReadOk.step (h : ReadOk client chunkBytesize range s)
    (hstep : readStep client chunkBytesize range s action = some s') :
    ReadOk client chunkBytesize range s' := by
  by_cases hs3 : client = .s3
  · subst hs3
    exact SingleOk.step h hstep
  · rw [readOk_split hs3] at h ⊢
    obtain ⟨hposition, hshared⟩ := h
    exact ⟨hposition.step hs3 hstep, fun hsize =>
      (hshared hsize).step hs3 hsize hposition hstep⟩

/-- What is known of the reads at the start. -/
theorem readOk_start (client : ObjectClient) (destination : Addr) (stop : Bool) :
    ReadOk client chunkBytesize range
      (client.start chunkBytesize range destination stop) := by
  by_cases hs3 : client = .s3
  · subst hs3
    exact singleOk_start destination stop
  · rw [readOk_split hs3]
    exact ⟨positionOk_start destination _ stop, fun hsize =>
      sharedOk_start range destination stop (client.size_pos chunkBytesize range) hsize⟩

/-- Where the call of any client has started a read. -/
theorem ReadOk.startedOk (h : ReadOk client chunkBytesize range s) : StartedOk s := by
  by_cases hs3 : client = .s3
  · subst hs3
    exact SingleOk.startedOk h
  · rw [readOk_split hs3] at h
    exact h.1.startedOk (client.size_pos chunkBytesize range)

/-- A read that was accepted pushes once. -/
theorem ReadOk.accepted (h : ReadOk client chunkBytesize range s)
    (hreturned : s.call = .returned .success) : s.pushed.length ≤ 1 ∧
      ((∀ subRead ∈ s.subReads, subRead.phase.isDone = true) → s.pushed.length = 1) := by
  by_cases hs3 : client = .s3
  · subst hs3
    have hone := SingleOk.returned h hreturned
    have hbalance := SingleOk.balance h
    refine ⟨by omega, fun hdone => ?_⟩
    have hnone : s.number SubReadPhase.isPending = 0 := by
      apply List.countP_eq_zero.2
      intro subRead hmem
      simp [SubReadPhase.isPending, hdone subRead hmem]
    omega
  · rw [readOk_split hs3] at h
    obtain ⟨hposition, hshared⟩ := h
    obtain ⟨hsize, hall⟩ := hposition.returned hreturned
    have honce := (hshared hsize).once (le_of_eq hall)
    exact ⟨by omega, (hshared hsize).reported hall⟩

/-- A stop between the first check and the return comes too late. -/
theorem stoppedLate_of_stop (h : StartedOk s) (houtside : ¬ StopsOutside s action)
    (hstep : readStep client chunkBytesize range s action = some s') : StoppedLate s' := by
  unfold StopsOutside at houtside
  simp only [Classical.not_imp, not_or, not_and, not_exists] at houtside
  obtain ⟨hstop, hrunning, hfirst, hreturned⟩ := houtside
  subst hstop
  cases hstep
  refine ⟨rfl, ?_, fun code hcode => absurd hcode (hreturned code)⟩
  change s.subReads ≠ [] ∨ ∃ i, s.call = .starting i
  cases hcall : s.call with
  | checking i =>
      by_cases hzero : i = 0
      · subst hzero
        exact .inl (hfirst hcall)
      · exact .inl (h.checking i hcall hzero)
  | starting i => exact .inr ⟨i, rfl⟩
  | leaving => exact .inl (h.leaving hcall hrunning)
  | returned code => exact absurd hcall (hreturned code)

/-- A call that keeps its contract was not stopped between its first check and its return. -/
theorem stopsOutside_of_contract {actions : List ReadAction} {code : ResponseCode}
    (hok : ReadOk client chunkBytesize range s)
    (hrun : run (readStep client chunkBytesize range) s actions = some s')
    (hreturned : s'.call = .returned code) (hcontract : CallContract s') :
    EachStep (readStep client chunkBytesize range) StopsOutside s actions := by
  induction actions generalizing s with
  | nil => trivial
  | cons action actions ih =>
      obtain ⟨s₁, hstep, hrest⟩ := run_cons.1 hrun
      refine (eachStep_cons hstep).2 ⟨?_, ih (hok.step hstep) hrest⟩
      by_contra houtside
      -- from here on the read is known to be running, and the call can only refuse it
      have hlate := run_invariant (P := StoppedLate) (fun s action s' h hstep => h.step hstep)
        (stoppedLate_of_stop hok.startedOk houtside hstep) hrest
      obtain ⟨hfail, hne⟩ := hlate.returned code hreturned
      exact hne (hcontract.refused code hreturned hfail).1

/-- A finished read that keeps its contract lost no push. -/
theorem deliversPush_of_contract {actions : List ReadAction}
    (hok : ReadOk client chunkBytesize range s)
    (hlength : s.completions.length ≤ s.pushed.length)
    (hrun : run (readStep client chunkBytesize range) s actions = some s')
    (hfinished : s'.Finished) (hcontract : CallContract s') :
    EachStep (readStep client chunkBytesize range) DeliversPush s actions := by
  induction actions generalizing s with
  | nil => trivial
  | cons action actions ih =>
      obtain ⟨s₁, hstep, hrest⟩ := run_cons.1 hrun
      refine (eachStep_cons hstep).2
        ⟨?_, ih (hok.step hstep) (length_completions_step hlength hstep) hrest⟩
      by_contra hlost
      have hlost' := run_invariant (P := LostPush) (fun s action s' h hstep => h.step hstep)
        (lostPush_of_push hlength hlost hstep) hrest
      have hok' := run_invariant (P := ReadOk client chunkBytesize range)
        (fun s action s' h hstep => h.step hstep) hok hrun
      obtain ⟨⟨code, hcode⟩, hdone⟩ := hfinished
      by_cases hsuccess : code = .success
      · subst hsuccess
        have hpushed := (hok'.accepted hcode).1
        have hone := (hcontract.accepted hcode).2 hdone
        have hmissing := hlost'.missing
        omega
      · exact hlost'.started (hcontract.refused code hcode hsuccess).1

/-- The client is stopped outside the call, and its responder not before a push. -/
def KeepsAnswer (s : ClientRead) (action : ReadAction) : Prop :=
  StopsOutside s action ∧ DeliversPush s action

/--
The code that a call returns says what became of its reads if the client was not stopped between
the first check of the call and its return, nor its responder before a callback pushed to it; and
of a read that is finished it says so exactly then.
-/
theorem stopped_read_contract (client : ObjectClient) (chunkBytesize : Nat)
    (range : ObjectRange) (destination : Addr) (stop : Bool) (actions : List ReadAction)
    (hrun : run (readStep client chunkBytesize range)
      (client.start chunkBytesize range destination stop) actions = some s)
    (hreturned : ∃ code, s.call = .returned code) :
    (EachStep (readStep client chunkBytesize range) KeepsAnswer
      (client.start chunkBytesize range destination stop) actions → CallContract s) ∧
    (s.Finished → (CallContract s ↔ EachStep (readStep client chunkBytesize range) KeepsAnswer
      (client.start chunkBytesize range destination stop) actions)) := by
  have hstart : ReadOk client chunkBytesize range
      (client.start chunkBytesize range destination stop) := readOk_start client destination stop
  have hsufficient : EachStep (readStep client chunkBytesize range) KeepsAnswer
      (client.start chunkBytesize range destination stop) actions → CallContract s := by
    intro hkeeps
    have hok := run_invariant (P := ReadOk client chunkBytesize range)
      (fun s action s' h hstep => h.step hstep) hstart hrun
    have hrefused : RefusedOk s := by
      refine run_invariant_of (fun s action s' h hcondition hstep => h.step hcondition.1 hstep)
        ⟨fun _ => .inl ⟨rfl, fun i hi => ?_⟩, fun code hcode => ?_, fun _ => rfl⟩ hkeeps hrun
      · cases hi
      · cases hcode
    have hdelivered : s.completions = s.pushed :=
      run_invariant_of (P := fun s => s.completions = s.pushed)
        (fun s action s' h hcondition hstep => completions_eq_step h hcondition.2 hstep) rfl
        hkeeps hrun
    refine ⟨fun code hcode hfail => ?_, fun hcode => ?_⟩
    · have hnone := hrefused.refused code hcode hfail
      exact ⟨hnone, hrefused.silent hnone⟩
    · rw [hdelivered]
      exact hok.accepted hcode
  refine ⟨hsufficient, fun hfinished => ⟨fun hcontract => ?_, hsufficient⟩⟩
  obtain ⟨code, hcode⟩ := hreturned
  exact (stopsOutside_of_contract hstart hrun hcode hcontract).and
    (deliversPush_of_contract hstart (le_refl 0) hrun hfinished hcontract)

/-- The calls of a read that is accepted, and whose completion is pushed before the stop ends. -/
def stoppedAfter : List ReadAction :=
  [.call, .call, .call, .stop, .ends 0 .success, .counts 0, .pushes 0, .stopResponder]

/-- A read that is accepted and completes; the client is stopped after the call. -/
theorem stopped_read_contract_after :
    ∃ s, run (readStep .s3 4 ⟨0, 10, by decide⟩)
        (ObjectClient.start .s3 4 ⟨0, 10, by decide⟩ 0 false) stoppedAfter = some s ∧
      s.completions = [.success] ∧ CallContract s := by
  refine ⟨_, rfl, rfl, ?_⟩
  refine (stopped_read_contract .s3 4 ⟨0, 10, by decide⟩ 0 false stoppedAfter rfl ⟨_, rfl⟩).1 ?_
  have hother : ∀ s action, action ≠ ReadAction.stop → s.responderStopped = false →
      KeepsAnswer s action :=
    fun s action hne hresponder => ⟨fun heq => absurd heq hne, fun _ _ => hresponder⟩
  refine (eachStep_cons rfl).2 ⟨hother _ _ (by decide) rfl, ?_⟩
  refine (eachStep_cons rfl).2 ⟨hother _ _ (by decide) rfl, ?_⟩
  refine (eachStep_cons rfl).2 ⟨hother _ _ (by decide) rfl, ?_⟩
  refine (eachStep_cons rfl).2 ⟨⟨fun _ _ => .inr ⟨.success, rfl⟩, fun _ _ => rfl⟩, ?_⟩
  refine (eachStep_cons rfl).2 ⟨hother _ _ (by decide) rfl, ?_⟩
  refine (eachStep_cons rfl).2 ⟨hother _ _ (by decide) rfl, ?_⟩
  refine (eachStep_cons rfl).2 ⟨hother _ _ (by decide) rfl, ?_⟩
  exact (eachStep_cons rfl).2 ⟨hother _ _ (by decide) rfl, trivial⟩

/-- A read that was started, refused because of a stop, and completes later. -/
theorem started_read_refused :
    ∃ s, run (readStep .s3 4 ⟨0, 10, by decide⟩)
        (ObjectClient.start .s3 4 ⟨0, 10, by decide⟩ 0 false)
        [.call, .call, .stop, .call, .ends 0 .success, .counts 0, .pushes 0] = some s ∧
      s.call = .returned .finishedError ∧ s.completions = [.success] ∧ ¬ CallContract s := by
  refine ⟨_, rfl, rfl, rfl, fun hcontract => ?_⟩
  have hnone := (hcontract.refused .finishedError rfl (by decide)).2
  cases hnone

/-- A read that was accepted, and whose completion the stopped responder ignores. -/
example :
    (run (readStep .s3 4 ⟨0, 10, by decide⟩)
      (ObjectClient.start .s3 4 ⟨0, 10, by decide⟩ 0 false)
      [.call, .call, .call, .stop, .stopResponder, .ends 0 .success, .counts 0, .pushes 0]).map
        (fun s => (s.call, s.pushed, s.completions)) =
      some (.returned .success, [.success], []) := by
  decide

end Stop

end ObjectStorage
end ModelStreamer
