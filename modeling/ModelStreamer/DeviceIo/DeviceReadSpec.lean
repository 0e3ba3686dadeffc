import ModelStreamer.DeviceIo.DeviceRead
import ModelStreamer.Streamer.SyncReadSpec

/-!
# What a read to a device keeps

The staging buffers are where they belong, every copy reports once, and the blocks that were
counted as landed are the first ones of the batch, whatever the order of the threads is.

Main results:

- Theorem {lit}`deviceStep_move`: every step is one of the moves.
- Theorem {lit}`SupplyInv.move`: no buffer is lost, and the posts are those of the copies.
- Theorem {lit}`OrderInv.move`: the copies that were not counted yet follow the counted ones.
-/

namespace ModelStreamer
namespace DeviceIo

open Common Lib Streamer

/-! ## What a step can do -/

/-- The state after {lit}`failure.compare_exchange_strong`. -/
def DeviceRead.withFailure (s : DeviceRead) (code : ResponseCode) : ResponseCode :=
  if s.failure = .success then code else s.failure

/-- The buffers that were given back, and one more unless the pool has all of them. -/
def DeviceRead.withReleased (s : DeviceRead) (buffer : Nat) : List Nat :=
  if s.acquired ≤ s.released.length then s.released else s.released ++ [buffer]

/-- The copy of the next block. -/
def DeviceRead.nextCopy (block : Nat) (s : DeviceRead) (buffer : Nat) : BlockCopy :=
  { block := s.submitted
    buffer
    offset := s.offset
    bytesize := s.bytesize block
    destination := ptrAdd s.destination (s.offset - s.read.batch.start) }

/-- Everything that a step can do, with its guards. -/
inductive DeviceMove (content : Nat → UInt8) (block : Nat) (heap : List Request)
    (s : DeviceRead) : DeviceRead → Prop
  | stop : DeviceMove content block heap s { s with stopped := true }
  | openFailed (code : ResponseCode) (hpc : s.pc = .opening) (hcode : code ≠ .success) :
      DeviceMove content block heap s { s with pc := .failing code }
  | openEmpty (hpc : s.pc = .opening) (hnil : s.read.batch.tasks = []) :
      DeviceMove content block heap s { s with pc := .returned }
  | opened (task : Task) (tasks : List Task) (destination : Addr) (hpc : s.pc = .opening)
      (hcons : s.read.batch.tasks = task :: tasks)
      (hdst : task.destination heap = .ok destination) :
      DeviceMove content block heap s { s with
        destination
        pos := s.read.batch.start
        pc := .looping }
  | enterLoop (hpc : s.pc = .looping) (hlt : s.offset < s.read.batch.stop) :
      DeviceMove content block heap s { s with pc := .acquiring }
  | leaveLoop (hpc : s.pc = .looping) (hend : s.stopped = true ∨ s.read.batch.stop ≤ s.offset) :
      DeviceMove content block heap s { s with pc := .draining s.submitted none }
  | acquireFailed (code : ResponseCode) (hpc : s.pc = .acquiring) (hcode : code ≠ .success) :
      DeviceMove content block heap s { s with pc := .draining s.submitted (some code) }
  | acquired (k : Nat) (hpc : s.pc = .acquiring)
      (hroom : s.acquired < s.released.length + buffersPerThread)
      (hfree : ∀ buffer < s.acquired, s.bufferOf buffer = k → buffer ∈ s.released) :
      DeviceMove content block heap s { s with
        taken := s.taken ++ [k]
        acquired := s.acquired + 1
        pc := .reading s.acquired }
  | readFailed (buffer : Nat) (code : ResponseCode) (d : FdRead) (hpc : s.pc = .reading buffer)
      (hcode : code ≠ .success) :
      DeviceMove content block heap s { s.stage buffer d with
        released := s.withReleased buffer
        pc := .draining s.submitted (some code) }
  | readDone (buffer : Nat) (file : OpenFile) (d : FdRead) (hpc : s.pc = .reading buffer)
      (hfile : file.bytes = content)
      (hread : ReadInto file 0 s.pos (s.bytesize block) (s.bytesize block) d) :
      DeviceMove content block heap s { s.stage buffer d with pc := .submitting buffer }
  | submitted (buffer : Nat) (hpc : s.pc = .submitting buffer) :
      DeviceMove content block heap s { s with
        lane := s.lane ++ [s.nextCopy block buffer]
        opened := true
        submitted := wordAdd 32 s.submitted 1
        offset := s.offset + s.bytesize block
        pc := .answering }
  | submitFailed (buffer : Nat) (code : ResponseCode) (hpc : s.pc = .submitting buffer)
      (hcode : code ≠ .success) (hopened : s.opened = false) :
      DeviceMove content block heap s { s with
        released := s.withReleased buffer
        failure := s.withFailure code
        pc := .reporting buffer }
  | reportThrew (buffer : Nat) (hpc : s.pc = .reporting buffer) :
      DeviceMove content block heap s { s with
        released := s.withReleased buffer
        pc := .draining s.submitted (some .unknownError) }
  | reportedInline (buffer : Nat) (hpc : s.pc = .reporting buffer)
      (hroom : s.ready < semValueMax) :
      DeviceMove content block heap s { s with
        ready := s.ready + 1
        reported := s.reported ++ [s.submitted]
        submitted := wordAdd 32 s.submitted 1
        offset := s.offset + s.bytesize block
        pc := .answering }
  | answered (hpc : s.pc = .answering) :
      DeviceMove content block heap s { s with
        read := s.read.finishedUntil (s.landedOffset block) .success
        pc := .looping }
  | threw (code : ResponseCode) (hpc : s.pc = .draining 0 (some code)) :
      DeviceMove content block heap s { s with pc := .failing code }
  | drained (hpc : s.pc = .draining 0 none) : DeviceMove content block heap s { s with pc := .checking }
  | waited (left : Nat) (thrown : Option ResponseCode) (hpc : s.pc = .draining (left + 1) thrown)
      (hready : 0 < s.ready) :
      DeviceMove content block heap s { s with ready := s.ready - 1, pc := .draining left thrown }
  | checkFailed (hpc : s.pc = .checking) (hfailure : s.failure ≠ .success) :
      DeviceMove content block heap s { s with pc := .failing s.failure }
  | checked (hpc : s.pc = .checking) (hfailure : s.failure = .success) :
      DeviceMove content block heap s { s with pc := .finishing }
  | finished (hpc : s.pc = .finishing) :
      DeviceMove content block heap s { s with
        read := if s.stopped then s.read else s.read.finishedUntil s.read.batch.stop .success
        pc := .ending }
  | endedStopped (hpc : s.pc = .ending) (hstopped : s.stopped = true) :
      DeviceMove content block heap s { s with pc := .failing .finishedError }
  | ended (hpc : s.pc = .ending) (hstopped : s.stopped = false) :
      DeviceMove content block heap s { s with pc := .returned }
  | failed (code : ResponseCode) (hpc : s.pc = .failing code) :
      DeviceMove content block heap s { s with read := s.read.handleError code, pc := .returned }
  | issued (copy : BlockCopy) (lane : List BlockCopy) (hissuing : s.issuing = .no)
      (hlane : s.lane = copy :: lane) :
      DeviceMove content block heap s { s with lane, stream := s.stream ++ [copy] }
  | issueReleased (copy : BlockCopy) (lane : List BlockCopy) (code : ResponseCode)
      (hissuing : s.issuing = .no) (hlane : s.lane = copy :: lane) (hcode : code ≠ .success) :
      DeviceMove content block heap s { s with
        lane
        released := s.withReleased copy.buffer
        issuing := .entered copy.block code }
  | issueRetired (copy : BlockCopy) (lane : List BlockCopy) (code : ResponseCode)
      (hissuing : s.issuing = .no) (hlane : s.lane = copy :: lane) (hcode : code ≠ .success) :
      DeviceMove content block heap s { s with
        lane
        retired := s.retired ++ [copy.buffer]
        issuing := .entered copy.block code }
  | transferred (copy : BlockCopy) (first count : Nat) (hstream : copy ∈ s.stream)
      (hle : first + count ≤ copy.bytesize) :
      DeviceMove content block heap s { s with
        read := s.read.write [s.copyWrite copy first count] }
  | landed (copy : BlockCopy) (stream : List BlockCopy) (hwaiting : s.waiting = .no)
      (hstream : s.stream = copy :: stream) :
      DeviceMove content block heap s { s with
        read := s.read.write [s.copyWrite copy 0 copy.bytesize]
        stream
        released := s.withReleased copy.buffer
        waiting := .entered copy.block .success }
  | lost (copy : BlockCopy) (stream : List BlockCopy) (hwaiting : s.waiting = .no)
      (hstream : s.stream = copy :: stream) :
      DeviceMove content block heap s { s with
        stream
        retired := s.retired ++ [copy.buffer]
        waiting := .entered copy.block .deviceDriverError }
  | issuingStored (n : Nat) (code : ResponseCode) (hissuing : s.issuing = .entered n code)
      (hcode : code ≠ .success) :
      DeviceMove content block heap s { s with failure := s.withFailure code, issuing := .posting n }
  | issuingChecked (n : Nat) (next : Completing) (hissuing : s.issuing = .entered n .success) :
      DeviceMove content block heap s { s with issuing := next }
  | issuingCounted (n : Nat) (hissuing : s.issuing = .counting n) :
      DeviceMove content block heap s { s with landed := wordAdd 32 s.landed 1, issuing := .posting n }
  | issuingPosted (n : Nat) (hissuing : s.issuing = .posting n) (hroom : s.ready < semValueMax) :
      DeviceMove content block heap s { s with
        ready := s.ready + 1
        reported := s.reported ++ [n]
        issuing := .no }
  | issuingTerminated (n : Nat) (hissuing : s.issuing = .posting n) :
      DeviceMove content block heap s { s with terminated := true, issuing := .posting n }
  | waitingStored (n : Nat) (code : ResponseCode) (hwaiting : s.waiting = .entered n code)
      (hcode : code ≠ .success) :
      DeviceMove content block heap s { s with failure := s.withFailure code, waiting := .posting n }
  | waitingChecked (n : Nat) (hwaiting : s.waiting = .entered n .success)
      (hfailure : s.failure = .success) :
      DeviceMove content block heap s { s with waiting := .counting n }
  | waitingSkipped (n : Nat) (hwaiting : s.waiting = .entered n .success)
      (hfailure : s.failure ≠ .success) :
      DeviceMove content block heap s { s with waiting := .posting n }
  | waitingCounted (n : Nat) (hwaiting : s.waiting = .counting n) :
      DeviceMove content block heap s { s with landed := wordAdd 32 s.landed 1, waiting := .posting n }
  | waitingPosted (n : Nat) (hwaiting : s.waiting = .posting n) (hroom : s.ready < semValueMax) :
      DeviceMove content block heap s { s with
        ready := s.ready + 1
        reported := s.reported ++ [n]
        waiting := .no }
  | waitingTerminated (n : Nat) (hwaiting : s.waiting = .posting n) :
      DeviceMove content block heap s { s with terminated := true, waiting := .posting n }

section Moves

variable {file : Option OpenFile} {readSize block : Nat} {heap : List Request}
  {s s' : DeviceRead}

theorem storeFailure_eq (s : DeviceRead) (code : ResponseCode) :
    s.storeFailure code = { s with failure := s.withFailure code } := by
  rw [DeviceRead.storeFailure, DeviceRead.withFailure]
  split <;> rfl

theorem release_eq (s : DeviceRead) (buffer : Nat) :
    s.release buffer = { s with released := s.withReleased buffer } := by
  rw [DeviceRead.release, DeviceRead.withReleased]
  split <;> rfl

theorem begin_move (hpc : s.pc = .opening) :
    DeviceMove (contentOf file) block heap s (s.begin file heap) := by
  unfold DeviceRead.begin
  simp only
  split
  · exact .openFailed _ hpc (by decide)
  · split
    · exact .openFailed _ hpc (by decide)
    · split
      · rename_i hnil
        exact .openEmpty hpc hnil
      · rename_i task tasks hcons
        split
        · exact .openFailed _ hpc (by decide)
        · rename_i destination hdst
          split
          · rename_i hseek
            exact .openFailed _ hpc hseek
          · exact .opened task tasks destination hpc hcons hdst

theorem step_move (hstep : s.step file readSize block heap = some s') :
    DeviceMove (contentOf file) block heap s s' := by
  unfold DeviceRead.step at hstep
  split at hstep
  · rename_i hpc
    cases hstep
    exact begin_move hpc
  · rename_i hpc
    split at hstep
    · rename_i hcond
      cases hstep
      exact .enterLoop hpc hcond.1
    · rename_i hcond
      cases hstep
      refine .leaveLoop hpc ?_
      cases hstopped : s.stopped with
      | true => exact Or.inl rfl
      | false =>
          right
          by_contra hlt
          exact hcond ⟨by omega, hstopped⟩
  · rename_i buffer hpc
    split at hstep
    · cases hstep
    · rename_i file
      have hread := (readBytes_spec file readSize s.pos (s.bytesize block) 0).2
      split at hstep
      · rename_i d hresult
        rw [hresult] at hread
        cases hstep
        exact .readDone buffer file d hpc rfl (hread rfl)
      · rename_i code d hcode _
        rw [release_eq] at hstep
        cases hstep
        exact .readFailed buffer code d hpc hcode
  · rename_i buffer hpc
    split at hstep
    · rename_i hroom
      cases hstep
      exact .reportedInline buffer hpc hroom
    · rw [release_eq] at hstep
      cases hstep
      exact .reportThrew buffer hpc
  · rename_i hpc
    cases hstep
    exact .answered hpc
  · rename_i code hpc
    cases hstep
    exact .threw code hpc
  · rename_i hpc
    cases hstep
    exact .drained hpc
  · rename_i left thrown hpc
    split at hstep
    · rename_i hready
      cases hstep
      exact .waited left thrown hpc hready
    · cases hstep
  · rename_i hpc
    split at hstep
    · rename_i hfailure
      cases hstep
      exact .checkFailed hpc hfailure
    · rename_i hfailure
      cases hstep
      exact .checked hpc (not_not.1 hfailure)
  · rename_i hpc
    cases hstep
    exact .finished hpc
  · rename_i hpc
    split at hstep
    · rename_i hstopped
      cases hstep
      exact .endedStopped hpc hstopped
    · rename_i hstopped
      cases hstep
      exact .ended hpc (Bool.not_eq_true _ ▸ hstopped)
  · rename_i code hpc
    cases hstep
    exact .failed code hpc
  · cases hstep

theorem acquire_move {result : Except ResponseCode (Option Nat)} (hstep : s.acquire result = some s') :
    DeviceMove (contentOf file) block heap s s' := by
  unfold DeviceRead.acquire at hstep
  split at hstep
  · rename_i code hpc
    split at hstep
    · rename_i hcode
      cases hstep
      exact .acquireFailed code hpc hcode
    · cases hstep
  · rename_i hpc
    cases hstep
    exact .acquireFailed _ hpc (by decide)
  · rename_i k hpc
    split at hstep
    · rename_i hcond
      cases hstep
      exact .acquired k hpc hcond.1 fun buffer hlt => hcond.2 buffer (List.mem_range.2 hlt)
    · cases hstep
  · cases hstep

theorem submit_move {failed : Option ResponseCode} (hstep : s.submit block failed = some s') :
    DeviceMove (contentOf file) block heap s s' := by
  unfold DeviceRead.submit at hstep
  split at hstep
  · rename_i buffer hpc
    cases hstep
    exact .submitted buffer hpc
  · rename_i buffer code hpc
    split at hstep
    · rename_i hcond
      rw [storeFailure_eq, release_eq] at hstep
      cases hstep
      exact .submitFailed buffer code hpc hcond.1 hcond.2
    · cases hstep
  · cases hstep

theorem issue_move {failed : Option (ResponseCode × Bool)} (hstep : s.issue failed = some s') :
    DeviceMove (contentOf file) block heap s s' := by
  unfold DeviceRead.issue at hstep
  split at hstep
  · rename_i copy lane hissuing hlane
    cases hstep
    exact .issued copy lane hissuing hlane
  · rename_i copy lane code retire hissuing hlane
    split at hstep
    · rename_i hcode
      cases retire with
      | true =>
          cases hstep
          exact .issueRetired copy lane code hissuing hlane hcode
      | false =>
          rw [release_eq] at hstep
          cases hstep
          exact .issueReleased copy lane code hissuing hlane hcode
    · cases hstep
  · cases hstep

theorem transfer_move {copy first count : Nat}
    (hstep : s.transfer copy first count = some s') :
    DeviceMove (contentOf file) block heap s s' := by
  unfold DeviceRead.transfer at hstep
  split at hstep
  · cases hstep
  · rename_i found hget
    split at hstep
    · rename_i hle
      cases hstep
      exact .transferred found first count (List.mem_of_getElem? hget) hle
    · cases hstep

theorem land_move {success : Bool} (hstep : s.land success = some s') :
    DeviceMove (contentOf file) block heap s s' := by
  unfold DeviceRead.land at hstep
  split at hstep
  · rename_i copy stream hwaiting hstream
    split at hstep
    · rw [release_eq] at hstep
      cases hstep
      exact .landed copy stream hwaiting hstream
    · cases hstep
      exact .lost copy stream hwaiting hstream
  · cases hstep

theorem issuing_move {next : Completing} {t : DeviceRead}
    (hstep : s.complete s.issuing = some (t, next)) :
    DeviceMove (contentOf file) block heap s { t with issuing := next } := by
  unfold DeviceRead.complete at hstep
  split at hstep
  · cases hstep
  · rename_i n code hissuing
    split at hstep
    · rename_i hcode
      rw [storeFailure_eq] at hstep
      cases hstep
      exact .issuingStored n code hissuing hcode
    · rename_i hcode
      rw [not_not] at hcode
      subst hcode
      split at hstep
      · cases hstep
        exact .issuingChecked n _ hissuing
      · cases hstep
        exact .issuingChecked n _ hissuing
  · rename_i n hissuing
    cases hstep
    exact .issuingCounted n hissuing
  · rename_i n hissuing
    split at hstep
    · rename_i hroom
      cases hstep
      exact .issuingPosted n hissuing hroom
    · cases hstep
      exact .issuingTerminated n hissuing

theorem waiting_move {next : Completing} {t : DeviceRead}
    (hstep : s.complete s.waiting = some (t, next)) :
    DeviceMove (contentOf file) block heap s { t with waiting := next } := by
  unfold DeviceRead.complete at hstep
  split at hstep
  · cases hstep
  · rename_i n code hwaiting
    split at hstep
    · rename_i hcode
      rw [storeFailure_eq] at hstep
      cases hstep
      exact .waitingStored n code hwaiting hcode
    · rename_i hcode
      rw [not_not] at hcode
      subst hcode
      split at hstep
      · rename_i hfailure
        cases hstep
        exact .waitingChecked n hwaiting hfailure
      · rename_i hfailure
        cases hstep
        exact .waitingSkipped n hwaiting hfailure
  · rename_i n hwaiting
    cases hstep
    exact .waitingCounted n hwaiting
  · rename_i n hwaiting
    split at hstep
    · rename_i hroom
      cases hstep
      exact .waitingPosted n hwaiting hroom
    · cases hstep
      exact .waitingTerminated n hwaiting

/-- Every step is one of the moves. -/
theorem deviceStep_move {action : DeviceAction}
    (hstep : deviceStep file readSize block heap s action = some s') :
    DeviceMove (contentOf file) block heap s s' := by
  unfold deviceStep at hstep
  split at hstep
  · cases hstep
  · cases action with
    | stop =>
        cases hstep
        exact .stop
    | step => exact step_move hstep
    | acquire result => exact acquire_move hstep
    | submit failed => exact submit_move hstep
    | issue failed => exact issue_move hstep
    | transfer copy first count => exact transfer_move hstep
    | land success => exact land_move hstep
    | issuing =>
        obtain ⟨⟨t, next⟩, hcomplete, rfl⟩ := Option.map_eq_some_iff.1 hstep
        exact issuing_move hcomplete
    | waiting =>
        obtain ⟨⟨t, next⟩, hcomplete, rfl⟩ := Option.map_eq_some_iff.1 hstep
        exact waiting_move hcomplete

end Moves

/-! ## Buffers and reports -/

/-- The copy whose completion is running. -/
def Completing.ids : Completing → List Nat
  | .no => []
  | .entered block _ => [block]
  | .counting block => [block]
  | .posting block => [block]

/-- The buffer in the hands of the reading thread. -/
def ReaderPc.buffers : ReaderPc → List Nat
  | .reading buffer => [buffer]
  | .submitting buffer => [buffer]
  | _ => []

/-- How many posts the reading thread will wait for, of the copies submitted so far. -/
def ReaderPc.owed (submitted : Nat) : ReaderPc → Nat
  | .draining left _ => left
  | .checking => 0
  | .finishing => 0
  | .ending => 0
  | .failing _ => 0
  | .returned => 0
  | _ => submitted

/-- The buffers that were taken and not given back. -/
def DeviceRead.held (s : DeviceRead) : List Nat :=
  s.pc.buffers ++ s.stream.map BlockCopy.buffer ++ s.lane.map BlockCopy.buffer

/-- The copies that have not reported. -/
def DeviceRead.pending (s : DeviceRead) : List Nat :=
  s.waiting.ids ++ s.stream.map BlockCopy.block ++ s.issuing.ids ++ s.lane.map BlockCopy.block

/-- Where the buffers and the reports are. -/
structure Supply (released retired held : List Nat) (acquired : Nat)
    (reported pending : List Nat) (submitted ready owed : Nat) : Prop where
  buffers : (released ++ retired ++ held).Perm (List.range acquired)
  acquired_le : acquired ≤ released.length + buffersPerThread
  copies : (reported ++ pending).Perm (List.range submitted)
  posts : ready + submitted = reported.length + owed
  owed_le : owed ≤ submitted
  ready_le : ready ≤ semValueMax

section Moves

variable {released retired held : List Nat} {acquired : Nat} {reported pending : List Nat}
  {submitted ready owed : Nat}

/-- There are never more copies than an {lit}`unsigned` counts. -/
theorem Supply.submitted_lt
    (h : Supply released retired held acquired reported pending submitted ready submitted)
    (hpending : pending.length ≤ held.length + 2) : submitted + 1 < 2 ^ 32 := by
  have hbuffers := h.buffers.length_eq
  have hcopies := h.copies.length_eq
  have hposts := h.posts
  have hready := h.ready_le
  have hacquired := h.acquired_le
  simp only [List.length_append, List.length_range] at hbuffers hcopies
  have hmax : semValueMax = 2 ^ 31 - 1 := rfl
  have hpool : buffersPerThread = 3 := rfl
  omega

/-- Once no post is owed every copy has reported. -/
theorem Supply.pending_eq_nil
    (h : Supply released retired held acquired reported pending submitted ready 0) :
    pending = [] := by
  have hcopies := h.copies.length_eq
  have hposts := h.posts
  simp only [List.length_append, List.length_range] at hcopies
  apply List.eq_nil_of_length_eq_zero
  omega

theorem Supply.take
    (h : Supply released retired held acquired reported pending submitted ready owed)
    (hroom : acquired < released.length + buffersPerThread) :
    Supply released retired (acquired :: held) (acquired + 1) reported pending submitted ready
      owed := by
  refine ⟨?_, hroom, h.copies, h.posts, h.owed_le, h.ready_le⟩
  rw [List.range_succ]
  refine List.perm_middle.trans ?_
  refine (List.Perm.cons _ h.buffers).trans ?_
  exact (List.perm_append_singleton _ _).symm

theorem Supply.giveBack {buffer : Nat} {rest pending' : List Nat}
    (h : Supply released retired held acquired reported pending submitted ready owed)
    (hheld : held.Perm (buffer :: rest)) (hpending : pending'.Perm pending) :
    Supply (released ++ [buffer]) retired rest acquired reported pending' submitted ready
      owed := by
  refine ⟨?_, ?_, ?_, h.posts, h.owed_le, h.ready_le⟩
  · refine List.Perm.trans ?_ h.buffers
    refine List.Perm.trans ?_ (hheld.symm.append_left _)
    rw [List.append_assoc, List.append_assoc, List.append_assoc]
    apply List.Perm.append_left released
    rw [List.singleton_append]
    exact List.perm_middle.symm
  · have hacquired := h.acquired_le
    rw [List.length_append]
    omega
  · exact (hpending.append_left reported).trans h.copies

theorem Supply.lose {buffer : Nat} {rest pending' : List Nat}
    (h : Supply released retired held acquired reported pending submitted ready owed)
    (hheld : held.Perm (buffer :: rest)) (hpending : pending'.Perm pending) :
    Supply released (retired ++ [buffer]) rest acquired reported pending' submitted ready
      owed := by
  refine ⟨?_, h.acquired_le, ?_, h.posts, h.owed_le, h.ready_le⟩
  · refine List.Perm.trans ?_ h.buffers
    refine List.Perm.trans ?_ (hheld.symm.append_left _)
    rw [← List.append_assoc, List.append_assoc]
    exact List.Perm.refl _
  · exact (hpending.append_left reported).trans h.copies

/-- The next block is submitted, and its copy is pending or has reported. -/
theorem Supply.submit {held' pending' : List Nat}
    (h : Supply released retired held acquired reported pending submitted ready submitted)
    (hheld : held'.Perm held) (hpending : pending'.Perm (pending ++ [submitted])) :
    Supply released retired held' acquired reported pending' (submitted + 1) ready
      (submitted + 1) := by
  refine ⟨?_, h.acquired_le, ?_, ?_, Nat.le_refl _, h.ready_le⟩
  · exact (hheld.append_left _).trans h.buffers
  · rw [List.range_succ]
    refine (hpending.append_left reported).trans ?_
    rw [← List.append_assoc]
    exact h.copies.append_right _
  · have hposts := h.posts
    omega

theorem Supply.reportInline
    (h : Supply released retired held acquired reported pending submitted ready submitted)
    (hroom : ready < semValueMax) :
    Supply released retired held acquired (reported ++ [submitted]) pending (submitted + 1)
      (ready + 1) (submitted + 1) := by
  refine ⟨h.buffers, h.acquired_le, ?_, ?_, Nat.le_refl _, hroom⟩
  · rw [List.range_succ, List.append_assoc]
    refine List.Perm.trans ?_ (h.copies.append_right [submitted])
    rw [List.append_assoc]
    exact List.perm_append_comm.append_left reported
  · have hposts := h.posts
    rw [List.length_append, List.length_singleton]
    omega

theorem Supply.post {block : Nat} {rest : List Nat}
    (h : Supply released retired held acquired reported pending submitted ready owed)
    (hpending : pending.Perm (block :: rest)) (hroom : ready < semValueMax) :
    Supply released retired held acquired (reported ++ [block]) rest submitted (ready + 1)
      owed := by
  refine ⟨h.buffers, h.acquired_le, ?_, ?_, h.owed_le, hroom⟩
  · rw [List.append_assoc]
    exact (hpending.symm.append_left reported).trans h.copies
  · have hposts := h.posts
    rw [List.length_append, List.length_singleton]
    omega

theorem Supply.wait
    (h : Supply released retired held acquired reported pending submitted ready (owed + 1))
    (hready : 0 < ready) :
    Supply released retired held acquired reported pending submitted (ready - 1) owed := by
  have hposts := h.posts
  have howed := h.owed_le
  have hle := h.ready_le
  exact ⟨h.buffers, h.acquired_le, h.copies, by omega, by omega, by omega⟩

end Moves

/-- The supply of a state. -/
def SupplyInv (s : DeviceRead) : Prop :=
  Supply s.released s.retired s.held s.acquired s.reported s.pending s.submitted s.ready
    (s.pc.owed s.submitted)

theorem Completing.ids_length (c : Completing) : c.ids.length ≤ 1 := by
  cases c <;> simp [Completing.ids]

theorem pending_length_le (s : DeviceRead) : s.pending.length ≤ s.held.length + 2 := by
  have hissuing := s.issuing.ids_length
  have hwaiting := s.waiting.ids_length
  simp only [DeviceRead.pending, DeviceRead.held, List.length_append, List.length_map]
  omega

section SupplySteps

variable {content : Nat → UInt8} {block : Nat} {heap : List Request} {s s' : DeviceRead}

theorem supplyInv_start (batch : Batch) (staging : Nat → Memory 64 UInt8) :
    SupplyInv (DeviceRead.start batch staging) := by
  refine ⟨?_, Nat.zero_le _, ?_, rfl, Nat.le_refl 0, Nat.zero_le _⟩
  · exact List.Perm.refl _
  · exact List.Perm.refl _

/-- No counter of copies wraps. -/
theorem SupplyInv.submitted_lt (h : SupplyInv s) (howed : s.pc.owed s.submitted = s.submitted) :
    s.submitted + 1 < 2 ^ 32 := by
  unfold SupplyInv at h
  rw [howed] at h
  exact h.submitted_lt (pending_length_le s)

/-- The pool takes a buffer back that is held. -/
theorem SupplyInv.withReleased_eq (h : SupplyInv s) (hheld : s.held ≠ []) (buffer : Nat) :
    s.withReleased buffer = s.released ++ [buffer] := by
  have hbuffers := h.buffers.length_eq
  have hpos := List.length_pos_iff.2 hheld
  simp only [List.length_append, List.length_range] at hbuffers
  rw [DeviceRead.withReleased, if_neg (by omega)]

/-- With all buffers back the pool drops another one. -/
theorem SupplyInv.withReleased_full (h : SupplyInv s) (hheld : s.held = [])
    (hretired : s.retired = []) (buffer : Nat) : s.withReleased buffer = s.released := by
  have hbuffers := h.buffers.length_eq
  rw [hheld, hretired] at hbuffers
  simp only [List.append_nil, List.length_range] at hbuffers
  rw [DeviceRead.withReleased, if_pos hbuffers.ge]

/-- Without a lane no copy was queued, and only without one does {lit}`submit` report itself. -/
structure LaneInv (s : DeviceRead) : Prop where
  lane : s.opened = false → s.lane = []
  stream : s.opened = false → s.stream = []
  retired : s.opened = false → s.retired = []
  reporting : ∀ buffer, s.pc = .reporting buffer → s.opened = false

theorem laneInv_start (batch : Batch) (staging : Nat → Memory 64 UInt8) :
    LaneInv (DeviceRead.start batch staging) :=
  ⟨fun _ => rfl, fun _ => rfl, fun _ => rfl, fun _ hpc => by cases hpc⟩

/-- A step keeps a lane that is there. -/
theorem LaneInv.move (h : LaneInv s) (hmove : DeviceMove content block heap s s') : LaneInv s' := by
  cases hmove with
  | stop | issuingStored | issuingChecked | issuingCounted | issuingPosted | issuingTerminated
  | waitingStored | waitingChecked | waitingSkipped | waitingCounted | waitingPosted
  | waitingTerminated | transferred => exact ⟨h.lane, h.stream, h.retired, h.reporting⟩
  | openFailed | openEmpty | opened | enterLoop | leaveLoop | acquireFailed | acquired
  | readFailed | readDone | reportThrew | reportedInline | answered | threw | drained | waited
  | checkFailed | checked | finished | endedStopped | ended | failed =>
      exact ⟨h.lane, h.stream, h.retired, fun _ hpc => by cases hpc⟩
  | submitted buffer hpc =>
      exact ⟨fun hno => (by cases hno), fun hno => (by cases hno), fun hno => (by cases hno),
        fun _ hpc => by cases hpc⟩
  | submitFailed buffer code hpc hcode hopened =>
      exact ⟨h.lane, h.stream, h.retired, fun _ _ => hopened⟩
  | issued copy lane hno hlane | issueReleased copy lane code hno hlane
  | issueRetired copy lane code hno hlane =>
      have hopened : s.opened ≠ false := fun hno => by
        rw [h.lane hno] at hlane
        cases hlane
      exact ⟨fun hno => absurd hno hopened, fun hno => absurd hno hopened,
        fun hno => absurd hno hopened, h.reporting⟩
  | landed copy stream hno hstream | lost copy stream hno hstream =>
      have hopened : s.opened ≠ false := fun hno => by
        rw [h.stream hno] at hstream
        cases hstream
      exact ⟨fun hno => absurd hno hopened, fun hno => absurd hno hopened,
        fun hno => absurd hno hopened, h.reporting⟩

/-- The buffer that is returned twice is dropped the second time. -/
theorem LaneInv.withReleased_eq (h : LaneInv s) (hsupply : SupplyInv s) {buffer : Nat}
    (hpc : s.pc = .reporting buffer) : s.withReleased buffer = s.released := by
  have hopened := h.reporting buffer hpc
  apply hsupply.withReleased_full _ (h.retired hopened)
  simp [DeviceRead.held, hpc, ReaderPc.buffers, h.lane hopened, h.stream hopened]

/-- A step loses no buffer, and every post is one of a copy. -/
theorem SupplyInv.move (h : SupplyInv s) (hmove : DeviceMove content block heap s s') (hlane : LaneInv s)
    (hopening : s.pc = .opening → s.submitted = 0)
    (hissuing : ∀ n, s.issuing ≠ .entered n .success) : SupplyInv s' := by
  have hlt := h.submitted_lt
  have hback := h.withReleased_eq
  have hdropped := fun {buffer : Nat} => @LaneInv.withReleased_eq _ hlane h buffer
  unfold SupplyInv at h ⊢
  simp only [DeviceRead.held, DeviceRead.pending] at h ⊢
  cases hmove with
  | stop | transferred => exact h
  | openFailed code hpc | openEmpty hpc =>
      simp only [hpc, hopening hpc] at h ⊢
      exact h
  | opened task tasks destination hpc | enterLoop hpc | leaveLoop hpc | acquireFailed code hpc
  | readDone buffer file d hpc | answered hpc | threw code hpc | drained hpc | checkFailed hpc
  | checked hpc | finished hpc | endedStopped hpc | ended hpc | failed code hpc =>
      simp only [hpc] at h
      exact h
  | acquired k hpc hroom =>
      simp only [hpc] at h
      exact h.take hroom
  | reportThrew buffer hpc =>
      simp only [hdropped hpc]
      simp only [hpc] at h
      exact h
  | readFailed buffer code d hpc | submitFailed buffer code hpc =>
      simp only [hback (by simp [DeviceRead.held, hpc, ReaderPc.buffers])]
      simp only [hpc] at h
      exact h.giveBack (List.Perm.refl _) (List.Perm.refl _)
  | submitted buffer hpc =>
      simp only [hpc] at h
      rw [wordAdd_of_lt (hlt (by rw [hpc]; rfl))]
      apply h.submit
      · simp only [List.map_append, List.map_singleton]
        rw [← List.append_assoc]
        exact List.perm_append_comm
      · simp only [List.map_append, List.map_singleton]
        rw [← List.append_assoc]
        exact List.Perm.refl _
  | reportedInline buffer hpc hroom =>
      simp only [hpc] at h
      rw [wordAdd_of_lt (hlt (by rw [hpc]; rfl))]
      exact h.reportInline hroom
  | waited left thrown hpc hready =>
      simp only [hpc] at h
      exact h.wait hready
  | issued copy lane hno hlane =>
      simp only [hno, hlane] at h ⊢
      simpa [Completing.ids] using h
  | issueReleased copy lane code hno hlane =>
      simp only [hback (by simp [DeviceRead.held, hlane])]
      simp only [hno, hlane] at h
      apply h.giveBack List.perm_middle
      simp [Completing.ids]
  | issueRetired copy lane code hno hlane =>
      simp only [hno, hlane] at h
      apply h.lose List.perm_middle
      simp [Completing.ids]
  | landed copy stream hno hstream =>
      simp only [hback (by simp [DeviceRead.held, hstream])]
      simp only [hno, hstream] at h
      exact h.giveBack (List.perm_middle.append_right _) (List.Perm.refl _)
  | lost copy stream hno hstream =>
      simp only [hno, hstream] at h
      exact h.lose (List.perm_middle.append_right _) (List.Perm.refl _)
  | issuingStored n code hentered =>
      simp only [hentered] at h
      exact h
  | issuingChecked n next hentered => exact absurd hentered (hissuing n)
  | issuingCounted n hcounting =>
      simp only [hcounting] at h
      exact h
  | issuingPosted n hposting hroom =>
      simp only [hposting] at h
      refine h.post ?_ hroom
      simp only [Completing.ids, List.append_assoc, List.nil_append, List.singleton_append]
      rw [← List.append_assoc, ← List.append_assoc]
      exact List.perm_middle
  | issuingTerminated n hposting =>
      simp only [hposting] at h
      exact h
  | waitingStored n code hentered | waitingChecked n hentered | waitingSkipped n hentered =>
      simp only [hentered] at h
      exact h
  | waitingCounted n hcounting =>
      simp only [hcounting] at h
      exact h
  | waitingPosted n hposting hroom =>
      simp only [hposting] at h
      exact h.post (List.Perm.refl _) hroom
  | waitingTerminated n hposting =>
      simp only [hposting] at h
      exact h

end SupplySteps

/-! ## The order of the copies -/

/-- The copy whose completion may still count it. -/
def Completing.uncounted : Completing → List Nat
  | .entered block _ => [block]
  | .counting block => [block]
  | _ => []

/-- The copies that were not counted, in their order, follow the counted ones. -/
structure InOrder (landed submitted : Nat) (failure : ResponseCode) (waiting : Completing)
    (stream : List Nat) (issuing : Completing) (lane : List Nat) : Prop where
  landed_le : landed ≤ submitted
  submitted_lt : submitted < 2 ^ 32
  order : failure = .success → waiting.uncounted ++ stream ++ issuing.uncounted ++ lane =
    List.range' landed (submitted - landed)
  counting : ∀ n, waiting = .counting n → n = landed ∧ n < submitted
  issuing_entered : ∀ n, issuing ≠ .entered n .success
  issuing_counting : ∀ n, issuing ≠ .counting n

/-- The order of the copies of a state. -/
def OrderInv (s : DeviceRead) : Prop :=
  InOrder s.landed s.submitted s.failure s.waiting (s.stream.map BlockCopy.block) s.issuing
    (s.lane.map BlockCopy.block)

section InOrder

variable {landed submitted : Nat} {failure : ResponseCode} {waiting : Completing}
  {stream : List Nat} {issuing : Completing} {lane : List Nat}

/-- The next block is submitted; nothing is promised once a copy failed. -/
theorem InOrder.submit {lane' : List Nat}
    (h : InOrder landed submitted failure waiting stream issuing lane)
    (hlt : submitted + 1 < 2 ^ 32) (hlane : failure = .success → lane' = lane ++ [submitted]) :
    InOrder landed (submitted + 1) failure waiting stream issuing lane' := by
  have hle := h.landed_le
  refine ⟨by omega, hlt, fun hsuccess => ?_, fun n hn => ?_, h.issuing_entered,
    h.issuing_counting⟩
  · rw [hlane hsuccess, ← List.append_assoc, h.order hsuccess,
      show submitted + 1 - landed = submitted - landed + 1 by omega, List.range'_concat,
      show landed + 1 * (submitted - landed) = submitted by omega]
  · have hcounting := h.counting n hn
    exact ⟨hcounting.1, by omega⟩

/-- An error is stored; from then on no copy is counted that was not being counted. -/
theorem InOrder.store {code : ResponseCode} {waiting' issuing' : Completing}
    {stream' lane' : List Nat}
    (h : InOrder landed submitted failure waiting stream issuing lane) (hcode : code ≠ .success)
    (hwaiting : ∀ n, waiting' = .counting n → waiting = .counting n)
    (hentered : ∀ n, issuing' ≠ .entered n .success)
    (hcounting : ∀ n, issuing' ≠ .counting n) :
    InOrder landed submitted code waiting' stream' issuing' lane' :=
  ⟨h.landed_le, h.submitted_lt, fun hsuccess => absurd hsuccess hcode,
    fun n hn => h.counting n (hwaiting n hn), hentered, hcounting⟩

/-- The copies move on in their order. -/
theorem InOrder.shift {waiting' issuing' : Completing} {stream' lane' : List Nat}
    (h : InOrder landed submitted failure waiting stream issuing lane)
    (horder : waiting'.uncounted ++ stream' ++ issuing'.uncounted ++ lane' =
      waiting.uncounted ++ stream ++ issuing.uncounted ++ lane)
    (hwaiting : ∀ n, waiting' = .counting n → waiting = .counting n)
    (hentered : ∀ n, issuing' ≠ .entered n .success)
    (hcounting : ∀ n, issuing' ≠ .counting n) :
    InOrder landed submitted failure waiting' stream' issuing' lane' :=
  ⟨h.landed_le, h.submitted_lt, fun hsuccess => horder.trans (h.order hsuccess),
    fun n hn => h.counting n (hwaiting n hn), hentered, hcounting⟩

/-- A copy that is counted while nothing failed is the next one. -/
theorem InOrder.check {n : Nat}
    (h : InOrder landed submitted .success (.entered n .success) stream issuing lane) :
    InOrder landed submitted .success (.counting n) stream issuing lane := by
  refine ⟨h.landed_le, h.submitted_lt, h.order, fun m hm => ?_, h.issuing_entered,
    h.issuing_counting⟩
  cases hm
  have horder : n :: (stream ++ issuing.uncounted ++ lane) =
    List.range' landed (submitted - landed) := h.order rfl
  have hlength := congrArg List.length horder
  rw [List.length_cons, List.length_range'] at hlength
  rw [← hlength, List.range'_succ, List.cons.injEq] at horder
  exact ⟨horder.1, by omega⟩

theorem InOrder.count {n : Nat}
    (h : InOrder landed submitted failure (.counting n) stream issuing lane) :
    InOrder (wordAdd 32 landed 1) submitted failure (.posting n) stream issuing lane := by
  obtain ⟨rfl, hlt⟩ := h.counting n rfl
  have hbound := h.submitted_lt
  rw [wordAdd_of_lt (by omega)]
  refine ⟨hlt, hbound, fun hsuccess => ?_, fun m hm => (by cases hm), h.issuing_entered,
    h.issuing_counting⟩
  have horder : n :: (stream ++ issuing.uncounted ++ lane) =
    List.range' n (submitted - n) := h.order hsuccess
  rw [show submitted - n = submitted - (n + 1) + 1 by omega, List.range'_succ,
    List.cons.injEq] at horder
  exact horder.2

end InOrder

theorem withFailure_ne {s : DeviceRead} {code : ResponseCode} (hcode : code ≠ .success) :
    s.withFailure code ≠ .success := by
  rw [DeviceRead.withFailure]
  split
  · exact hcode
  · assumption

section OrderSteps

variable {content : Nat → UInt8} {block : Nat} {heap : List Request} {s s' : DeviceRead}

theorem orderInv_start (batch : Batch) (staging : Nat → Memory 64 UInt8) :
    OrderInv (DeviceRead.start batch staging) :=
  ⟨Nat.le_refl 0, Nat.two_pow_pos 32, fun _ => rfl, fun n hn => (by cases hn),
    fun n hn => (by cases hn), fun n hn => (by cases hn)⟩

/-- A step keeps the order. -/
theorem OrderInv.move (h : OrderInv s) (hsupply : SupplyInv s)
    (hreporting : ∀ buffer, s.pc = .reporting buffer → s.failure ≠ .success)
    (hmove : DeviceMove content block heap s s') : OrderInv s' := by
  have hlt := hsupply.submitted_lt
  unfold OrderInv at h ⊢
  cases hmove with
  | stop | openFailed | openEmpty | opened | enterLoop | leaveLoop | acquireFailed | acquired
  | readFailed | readDone | reportThrew | answered | threw | drained | waited | checkFailed
  | checked | finished | endedStopped | ended | failed | transferred => exact h
  | submitted buffer hpc =>
      have hbound := hlt (by rw [hpc]; rfl)
      simp only [wordAdd_of_lt (show s.submitted + 1 < 2 ^ 32 from hbound), List.map_append,
        List.map_singleton]
      exact h.submit hbound fun _ => rfl
  | submitFailed buffer code hpc hcode =>
      exact h.store (withFailure_ne hcode) (fun _ hn => hn) h.issuing_entered h.issuing_counting
  | reportedInline buffer hpc hroom =>
      have hbound := hlt (by rw [hpc]; rfl)
      simp only [wordAdd_of_lt (show s.submitted + 1 < 2 ^ 32 from hbound)]
      exact h.submit hbound fun hsuccess => absurd hsuccess (hreporting buffer hpc)
  | issued copy lane hno hlane =>
      simp only [hlane] at h
      refine h.shift ?_ (fun _ hn => hn) h.issuing_entered h.issuing_counting
      simp [hno, Completing.uncounted]
  | issueReleased copy lane code hno hlane hcode | issueRetired copy lane code hno hlane hcode =>
      simp only [hlane] at h
      refine h.shift ?_ (fun _ hn => hn) (fun n hn => ?_) fun n hn => by cases hn
      · simp [hno, Completing.uncounted]
      · cases hn
        exact hcode rfl
  | landed copy stream hno hstream | lost copy stream hno hstream =>
      simp only [hno, hstream] at h
      exact h.shift rfl (fun n hn => by cases hn) h.issuing_entered h.issuing_counting
  | issuingStored n code hentered hcode =>
      exact h.store (withFailure_ne hcode) (fun _ hn => hn) (fun n hn => by cases hn)
        fun n hn => by cases hn
  | issuingChecked n next hentered => exact absurd hentered (h.issuing_entered n)
  | issuingCounted n hcounting => exact absurd hcounting (h.issuing_counting n)
  | issuingPosted n hposting hroom =>
      simp only [hposting] at h
      exact h.shift rfl (fun _ hn => hn) (fun n hn => by cases hn) fun n hn => by cases hn
  | issuingTerminated n hposting =>
      simp only [hposting] at h
      exact h
  | waitingStored n code hentered hcode =>
      exact h.store (withFailure_ne hcode) (fun n hn => by cases hn) h.issuing_entered
        h.issuing_counting
  | waitingChecked n hentered hfailure =>
      simp only [hentered, hfailure] at h ⊢
      exact h.check
  | waitingSkipped n hentered hfailure =>
      exact h.store hfailure (fun n hn => by cases hn) h.issuing_entered h.issuing_counting
  | waitingCounted n hcounting =>
      simp only [hcounting] at h
      exact h.count
  | waitingPosted n hposting hroom =>
      simp only [hposting] at h
      exact h.shift rfl (fun n hn => by cases hn) h.issuing_entered h.issuing_counting
  | waitingTerminated n hposting =>
      simp only [hposting] at h
      exact h

end OrderSteps

end DeviceIo
end ModelStreamer
