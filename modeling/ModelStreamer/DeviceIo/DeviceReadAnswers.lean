import ModelStreamer.DeviceIo.DeviceStaging
import ModelStreamer.Lib.Run

/-!
# The answers of the synchronous reader, to the host and to a device

Main results:

- Theorem {lit}`deviceInv_run`: the invariant of a read to a device, over every run.
- Theorem {lit}`sync_reads_answer_a_true_prefix`: what is answered with success is in memory, all
  tasks are answered in the end, no staging buffer is lost, and every copy has reported before
  tasks are failed.
-/

namespace ModelStreamer
namespace DeviceIo

open Common Lib Streamer

/-! ## Where the blocks are -/

/-- The copy of a block of the batch. -/
structure CopyOf (base : Addr) (batch : Batch) (block : Nat) (copy : BlockCopy) : Prop where
  offset_eq : copy.offset = batch.start + copy.block * block
  offset_lt : copy.offset < batch.stop
  bytesize_eq : copy.bytesize = min block (batch.stop - copy.offset)
  destination_eq : copy.destination = ptrAdd base (copy.offset - batch.start)

/-- The bytes of a block were written to the device. -/
def BlockWritten (base : Addr) (batch : Batch) (content : Nat → UInt8) (block : Nat)
    (log : List ReadEvent) (n : Nat) : Prop :=
  ∀ x, batch.start + n * block ≤ x → x < min (batch.start + (n + 1) * block) batch.stop →
    batch.WrittenAt base content log x

/-- The reader goes through the batch block after block. -/
def PlaceInv (base : Addr) (batch : Batch) (block : Nat) (s : DeviceRead) : Prop :=
  s.offset = min (batch.start + s.submitted * block) batch.stop ∧
    ∀ copy ∈ s.stream ++ s.lane, CopyOf base batch block copy

/-- What the reading thread knows where it is. -/
def PcInv (base : Addr) (batch : Batch) (s : DeviceRead) : Prop :=
  match s.pc with
  | .opening => s.submitted = 0 ∧ s.read = ⟨batch, []⟩
  | .looping => s.destination = base
  | .acquiring => s.destination = base ∧ s.offset < batch.stop
  | .reading _ => s.destination = base ∧ s.offset < batch.stop
  | .submitting _ => s.destination = base ∧ s.offset < batch.stop
  | .reporting _ => s.destination = base ∧ s.offset < batch.stop ∧ s.failure ≠ .success
  | .answering => s.destination = base
  | .draining _ (some code) => code ≠ .success
  | .draining _ none => s.stopped = true ∨ s.offset = batch.stop
  | .checking => s.stopped = true ∨ s.offset = batch.stop
  | .finishing => (s.stopped = true ∨ s.offset = batch.stop) ∧ s.landed = s.submitted
  | .ending => s.stopped = true ∨ s.read.batch.unfinished = batch.tasks.length
  | .failing code => code ≠ .success
  | .returned => True

/-- The tasks are answered up to the blocks that were counted as landed. -/
structure Going (base : Addr) (batch : Batch) (content : Nat → UInt8) (block landed : Nat)
    (waiting : Completing) (read : BatchRead) : Prop where
  start_eq : read.batch.start = batch.start
  stop_eq : read.batch.stop = batch.stop
  written : ∀ n, waiting = .entered n .success ∨ waiting = .counting n →
    BlockWritten base batch content block read.log n
  inv : ReadInv base batch content (min (batch.start + landed * block) batch.stop)
    read.batch.unfinished read

/-- All tasks are answered, and truly. -/
def Done (heap : List Request) (content : Nat → UInt8) (batch : Batch) (read : BatchRead) :
    Prop :=
  AllAnswered batch.tasks.length read.log ∧
    EveryMoment (AnswersTruly heap content batch) read.log

/-- What is answered, before and after the function returned. -/
def ReadingInv (heap : List Request) (base : Addr) (batch : Batch) (content : Nat → UInt8)
    (block : Nat) (s : DeviceRead) : Prop :=
  (s.pc = .returned → Done heap content batch s.read) ∧
    (s.pc ≠ .returned → Going base batch content block s.landed s.waiting s.read)

/-- The invariant of a read to a device. -/
structure DeviceInv (heap : List Request) (base : Addr) (batch : Batch)
    (content : Nat → UInt8) (block : Nat) (s : DeviceRead) : Prop where
  supply : SupplyInv s
  lane : LaneInv s
  order : OrderInv s
  place : PlaceInv base batch block s
  pc : PcInv base batch s
  stage : StageInv content block s
  reading : ReadingInv heap base batch content block s

section Steps

variable {heap : List Request} {base : Addr} {batch : Batch} {content : Nat → UInt8}
  {block : Nat} {s s' : DeviceRead}

theorem DeviceInv.reporting (h : DeviceInv heap base batch content block s) (buffer : Nat)
    (hpc : s.pc = .reporting buffer) :
    s.failure ≠ .success := by
  have hfacts := h.pc
  simp only [PcInv, hpc] at hfacts
  exact hfacts.2.2

theorem DeviceInv.opening (h : DeviceInv heap base batch content block s) (hpc : s.pc = .opening) :
    s.submitted = 0 ∧ s.read = ⟨batch, []⟩ := by
  have hfacts := h.pc
  simp only [PcInv, hpc] at hfacts
  exact hfacts

/-- While the function runs, the answers are those of the landed blocks. -/
theorem DeviceInv.going (h : DeviceInv heap base batch content block s) (hpc : s.pc ≠ .returned) :
    Going base batch content block s.landed s.waiting s.read :=
  h.reading.2 hpc

/-- A thread has a copy only while the reader may still wait for it. -/
theorem DeviceInv.pending (h : DeviceInv heap base batch content block s)
    (howed : s.pc.owed s.submitted = 0) : s.pending = [] := by
  have hsupply := h.supply
  unfold SupplyInv at hsupply
  rw [howed] at hsupply
  exact hsupply.pending_eq_nil

/-! ## The places -/

/-- The offset after one more block. -/
theorem PlaceInv.advance (h : PlaceInv base batch block s) (hstop : s.read.batch.stop = batch.stop)
    (hlt : s.offset < batch.stop) :
    s.offset + s.bytesize block = min (batch.start + (s.submitted + 1) * block) batch.stop ∧
      s.offset = batch.start + s.submitted * block := by
  have hoffset := h.1
  have heq : s.offset = batch.start + s.submitted * block := by omega
  refine ⟨?_, heq⟩
  rw [DeviceRead.bytesize, hstop, heq, Nat.add_mul, Nat.one_mul]
  omega

/-- A step keeps the places. -/
theorem DeviceInv.place_move (h : DeviceInv heap base batch content block s)
    (hmove : DeviceMove content block heap s s') : PlaceInv base batch block s' := by
  have hplace := h.place
  have hpc := h.pc
  have hlt := h.supply.submitted_lt
  cases hmove with
  | stop | reportThrew | openFailed | openEmpty | opened | enterLoop | leaveLoop | acquireFailed
  | acquired | readFailed | readDone | submitFailed | answered | threw | drained | waited
  | checkFailed | checked | finished | endedStopped | ended | failed | issuingStored
  | issuingChecked | issuingCounted | issuingPosted | issuingTerminated | waitingStored
  | waitingChecked | waitingSkipped | waitingCounted | waitingPosted | waitingTerminated
  | transferred =>
      exact hplace
  | submitted buffer hat =>
      simp only [PcInv, hat] at hpc
      obtain ⟨hdst, hinside⟩ := hpc
      have hgoing := h.going (by rw [hat]; simp)
      obtain ⟨hoffset, heq⟩ := hplace.advance hgoing.stop_eq hinside
      refine ⟨?_, fun copy hcopy => ?_⟩
      · simp only [wordAdd_of_lt (show s.submitted + 1 < 2 ^ 32 from hlt (by rw [hat]; rfl))]
        exact hoffset
      · simp only [← List.append_assoc] at hcopy
        rcases List.mem_append.1 hcopy with hold | hnew
        · exact hplace.2 copy hold
        · rw [List.mem_singleton.1 hnew]
          refine ⟨heq, hinside, ?_, ?_⟩
          · simp only [DeviceRead.nextCopy, DeviceRead.bytesize, hgoing.stop_eq]
          · simp only [DeviceRead.nextCopy, hdst, hgoing.start_eq]
  | reportedInline buffer hat hroom =>
      simp only [PcInv, hat] at hpc
      have hgoing := h.going (by rw [hat]; simp)
      obtain ⟨hoffset, -⟩ := hplace.advance hgoing.stop_eq hpc.2.1
      refine ⟨?_, hplace.2⟩
      simp only [wordAdd_of_lt (show s.submitted + 1 < 2 ^ 32 from hlt (by rw [hat]; rfl))]
      exact hoffset
  | issued copy lane hno hlane =>
      refine ⟨hplace.1, fun other hother => hplace.2 other ?_⟩
      simpa [hlane] using hother
  | issueReleased copy lane code hno hlane | issueRetired copy lane code hno hlane =>
      refine ⟨hplace.1, fun other hother => hplace.2 other ?_⟩
      rcases List.mem_append.1 hother with hstream | hmem
      · exact List.mem_append_left _ hstream
      · exact List.mem_append_right _ (by rw [hlane]; exact List.mem_cons_of_mem _ hmem)
  | landed copy stream hno hstream | lost copy stream hno hstream =>
      refine ⟨hplace.1, fun other hother => hplace.2 other ?_⟩
      rcases List.mem_append.1 hother with hmem | hlane
      · exact List.mem_append_left _ (by rw [hstream]; exact List.mem_cons_of_mem _ hmem)
      · exact List.mem_append_right _ hlane

/-! ## The reading thread -/

/-- With every copy reported and none failed, all of them were counted. -/
theorem DeviceInv.landed_eq (h : DeviceInv heap base batch content block s)
    (howed : s.pc.owed s.submitted = 0) (hfailure : s.failure = .success) :
    s.landed = s.submitted := by
  have hpending := h.pending howed
  simp only [DeviceRead.pending, List.append_eq_nil_iff, List.map_eq_nil_iff] at hpending
  obtain ⟨⟨⟨hwaiting, hstream⟩, hissuing⟩, hlane⟩ := hpending
  have hnone : ∀ {c : Completing}, c.ids = [] → c.uncounted = [] := by
    intro c hc
    cases c with
    | no => rfl
    | entered | counting | posting => cases hc
  have horder := h.order.order hfailure
  rw [hnone hwaiting, hstream, hnone hissuing, hlane] at horder
  have hlength := congrArg List.length horder
  have hle := h.order.landed_le
  simp only [List.map_nil, List.append_nil, List.length_nil, List.length_range'] at hlength
  omega

/-- Nothing lands once every copy has reported. -/
theorem DeviceInv.stream_eq_nil (h : DeviceInv heap base batch content block s)
    (howed : s.pc.owed s.submitted = 0) : s.stream = [] := by
  have hpending := h.pending howed
  simp only [DeviceRead.pending, List.append_eq_nil_iff, List.map_eq_nil_iff] at hpending
  exact hpending.1.1.2

/-- No completion runs once every copy has reported. -/
theorem DeviceInv.waiting_eq_no (h : DeviceInv heap base batch content block s)
    (howed : s.pc.owed s.submitted = 0) : s.waiting = .no := by
  have hpending := h.pending howed
  simp only [DeviceRead.pending, List.append_eq_nil_iff] at hpending
  cases hwaiting : s.waiting with
  | no => rfl
  | entered | counting | posting =>
      rw [hwaiting] at hpending
      cases hpending.1.1.1

/-- What the reading thread knows is not changed by other threads. -/
theorem PcInv.other (h : PcInv base batch s) (hpc : s'.pc = s.pc)
    (hsubmitted : s'.submitted = s.submitted) (hdestination : s'.destination = s.destination)
    (hoffset : s'.offset = s.offset)
    (hfailure : s.failure ≠ .success → s'.failure ≠ .success)
    (hstopped : s.stopped = true → s'.stopped = true)
    (hlanded : s.pc = .finishing → s'.landed = s.landed)
    (hread : s.pc = .opening → s'.read = s.read)
    (hunfinished : s'.read.batch.unfinished = s.read.batch.unfinished) :
    PcInv base batch s' := by
  unfold PcInv at h ⊢
  rw [hpc]
  cases hat : s.pc with
  | opening =>
      simp only [hat] at h ⊢
      rw [hsubmitted, hread hat]
      exact h
  | looping | answering =>
      simp only [hat] at h ⊢
      rw [hdestination]
      exact h
  | acquiring | reading | submitting =>
      simp only [hat] at h ⊢
      rw [hdestination, hoffset]
      exact h
  | reporting buffer =>
      simp only [hat] at h ⊢
      rw [hdestination, hoffset]
      exact ⟨h.1, h.2.1, hfailure h.2.2⟩
  | draining left thrown =>
      cases thrown with
      | none =>
          simp only [hat] at h ⊢
          rw [hoffset]
          exact h.imp hstopped id
      | some code =>
          simp only [hat] at h ⊢
          exact h
  | checking =>
      simp only [hat] at h ⊢
      rw [hoffset]
      exact h.imp hstopped id
  | finishing =>
      simp only [hat] at h ⊢
      rw [hoffset, hsubmitted, hlanded hat]
      exact ⟨h.1.imp hstopped id, h.2⟩
  | ending =>
      simp only [hat] at h ⊢
      rw [hunfinished]
      exact h.imp hstopped id
  | failing code =>
      simp only [hat] at h ⊢
      exact h
  | returned => trivial

/-- Answering up to a byte that the landed blocks reach. -/
theorem Going.finishedUntil (hb : batch.Readable heap base) {landed : Nat} {waiting : Completing}
    {read : BatchRead} (h : Going base batch content block landed waiting read) {fileOffset : Nat}
    (hto : fileOffset ≤ min (batch.start + landed * block) batch.stop) :
    Going base batch content block landed waiting (read.finishedUntil fileOffset .success) ∧
      AnsweredTo batch fileOffset read.batch.unfinished
        (read.finishedUntil fileOffset .success).batch.unfinished := by
  obtain ⟨u, hinv, hunfinished, hanswered⟩ := h.inv.finishedUntil hb rfl hto
  have hrange := finishTasks_range fileOffset .success
    (read.batch.tasks.drop read.batch.unfinished) read.batch.unfinished read
  refine ⟨⟨hrange.1.trans h.start_eq, hrange.2.trans h.stop_eq, fun n hn x hlow hhigh => ?_, ?_⟩,
    ?_⟩
  · exact (h.written n hn x hlow hhigh).mono
      (List.filterMap_subset _ (finishTasks_log _ _ _ _ _))
  · rw [hunfinished]
    exact hinv
  · rw [hunfinished]
    exact hanswered

/-- When everything landed, everything is answered. -/
theorem DeviceInv.finish (hb : batch.Readable heap base) (h : DeviceInv heap base batch content block s)
    (hpc : s.pc = .finishing) (hstopped : s.stopped = false) :
    Going base batch content block s.landed s.waiting
        (s.read.finishedUntil s.read.batch.stop .success) ∧
      (s.read.finishedUntil s.read.batch.stop .success).batch.unfinished =
        batch.tasks.length := by
  have hgoing := h.going (by rw [hpc]; decide)
  have hfacts := h.pc
  simp only [PcInv, hpc] at hfacts
  obtain ⟨hend, hlanded⟩ := hfacts
  have hoffset := h.place.1
  have hto : s.read.batch.stop ≤ min (batch.start + s.landed * block) batch.stop := by
    rw [hgoing.stop_eq, hlanded]
    rcases hend with htrue | heq
    · rw [hstopped] at htrue
      cases htrue
    · omega
  obtain ⟨hdone, hanswered⟩ := hgoing.finishedUntil hb hto
  refine ⟨hdone, ?_⟩
  by_contra hne
  have hlt := lt_of_le_of_ne hdone.inv.le_length hne
  have hget := List.getElem?_eq_getElem hlt
  have hbound := (hb.bounds (List.mem_of_getElem? hget)).2
  exact Nat.lt_irrefl _ ((hanswered _ _ hget).2 (Or.inr (hbound.trans hgoing.stop_eq.ge)))

/-- A step keeps what the reading thread knows. -/
theorem DeviceInv.pc_move (hb : batch.Readable heap base)
    (h : DeviceInv heap base batch content block s) (hmove : DeviceMove content block heap s s') :
    PcInv base batch s' := by
  have hpc := h.pc
  have hoffset := h.place.1
  cases hmove with
  | stop => exact hpc.other rfl rfl rfl rfl id (fun _ => rfl) (fun _ => rfl) (fun _ => rfl) rfl
  | issued | issueReleased | issueRetired | lost | issuingChecked | issuingPosted
  | issuingTerminated | waitingChecked | waitingSkipped | waitingPosted | waitingTerminated =>
      exact hpc.other rfl rfl rfl rfl id id (fun _ => rfl) (fun _ => rfl) rfl
  | transferred copy first count hstream =>
      refine hpc.other rfl rfl rfl rfl id id (fun _ => rfl) (fun hat => ?_) rfl
      rw [h.stream_eq_nil (by rw [hat]; exact (h.opening hat).1)] at hstream
      cases hstream
  | issuingStored n code hentered hcode | waitingStored n code hentered hcode =>
      exact hpc.other rfl rfl rfl rfl (fun _ => withFailure_ne hcode) id (fun _ => rfl)
        (fun _ => rfl) rfl
  | issuingCounted n hcounting => exact absurd hcounting (h.order.issuing_counting n)
  | waitingCounted n hcounting =>
      refine hpc.other rfl rfl rfl rfl id id (fun hat => ?_) (fun _ => rfl) rfl
      have hno := h.waiting_eq_no (by rw [hat]; rfl)
      rw [hcounting] at hno
      cases hno
  | landed copy stream hno hstream =>
      refine hpc.other rfl rfl rfl rfl id id (fun _ => rfl) (fun hat => ?_) rfl
      have hnil := h.stream_eq_nil (by rw [hat]; exact (h.opening hat).1)
      rw [hstream] at hnil
      cases hnil
  | openFailed code hat hcode | acquireFailed code hat hcode | readFailed buffer code d hat hcode =>
      exact hcode
  | openEmpty | ended | failed => trivial
  | opened task tasks destination hat hcons hdst =>
      obtain ⟨-, hread⟩ := h.opening hat
      rw [hread] at hcons
      change batch.tasks = task :: tasks at hcons
      have hmem : task ∈ batch.tasks := by simp [hcons]
      have hfirst : task.info.offset = batch.start := by
        have hchain := hb.contiguous
        rw [hcons] at hchain
        exact hchain.1
      rw [hb.destination task hmem, hfirst, Nat.sub_self, ptrAdd_zero] at hdst
      exact (Except.ok.inj hdst).symm
  | enterLoop hat hlt =>
      simp only [PcInv, hat] at hpc ⊢
      rw [(h.going (by rw [hat]; decide)).stop_eq] at hlt
      exact ⟨hpc, hlt⟩
  | leaveLoop hat hend =>
      rw [(h.going (by rw [hat]; decide)).stop_eq] at hend
      exact hend.imp id fun hge => by simp only; omega
  | acquired k hat hroom | readDone buffer file d hat | drained hat =>
      simp only [PcInv, hat] at hpc ⊢
      exact hpc
  | reportThrew buffer hat => simp [PcInv]
  | submitted buffer hat | reportedInline buffer hat hroom =>
      simp only [PcInv, hat] at hpc ⊢
      exact hpc.1
  | submitFailed buffer code hat hcode =>
      simp only [PcInv, hat] at hpc ⊢
      exact ⟨hpc.1, hpc.2, withFailure_ne hcode⟩
  | answered hat =>
      simp only [PcInv, hat] at hpc ⊢
      exact hpc
  | threw code hat =>
      simp only [PcInv, hat] at hpc ⊢
      exact hpc
  | waited left thrown hat hready =>
      simp only [PcInv, hat] at hpc ⊢
      cases thrown with
      | none => exact hpc
      | some code => exact hpc
  | checkFailed hat hfailure => exact hfailure
  | checked hat hfailure =>
      simp only [PcInv, hat] at hpc ⊢
      exact ⟨hpc, h.landed_eq (by rw [hat]; rfl) hfailure⟩
  | finished hat =>
      cases hstopped : s.stopped with
      | true => exact Or.inl rfl
      | false => exact Or.inr (h.finish hb hat hstopped).2
  | endedStopped hat hstopped =>
      simp [PcInv]

/-! ## The answers -/

/-- The end of a block. -/
theorem CopyOf.end_eq {copy : BlockCopy} (h : CopyOf base batch block copy) :
    copy.offset + copy.bytesize =
      min (batch.start + (copy.block + 1) * block) batch.stop := by
  have hoffset := h.offset_eq
  have hlt := h.offset_lt
  rw [h.bytesize_eq, Nat.add_mul, Nat.one_mul]
  omega

/-- What the device writes of a copy is the part of the file that belongs there. -/
theorem DeviceInv.copyWrite_eq (h : DeviceInv heap base batch content block s)
    {copy : BlockCopy} (hcopy : copy ∈ s.stream) {first count : Nat}
    (hle : first + count ≤ copy.bytesize) :
    s.copyWrite copy first count =
        partWrite base batch.start content (copy.offset + first) count ∧
      batch.start ≤ copy.offset ∧ copy.offset + copy.bytesize ≤ batch.stop := by
  have hmem : copy ∈ s.stream ++ s.lane := List.mem_append_left _ hcopy
  have hplace := h.place.2 copy hmem
  have hoffset := hplace.offset_eq
  have hend := hplace.end_eq
  refine ⟨?_, by omega, by omega⟩
  rw [DeviceRead.copyWrite, partWrite, hplace.destination_eq, ptrAdd_ptrAdd]
  congr 1
  · rw [ptrAdd]
    congr 2
    omega
  · refine cellsFrom_congr fun i hi => ?_
    rw [h.stage.copies copy hmem (first + i) (by omega), Nat.add_assoc]

/-- Bytes of a copy that the device writes do no harm to the answers. -/
theorem Going.transfer {landed : Nat} {waiting : Completing} {read : BatchRead}
    (h : Going base batch content block landed waiting read) {p n : Nat}
    (hp : batch.start ≤ p) (hn : p + n ≤ batch.stop) :
    Going base batch content block landed waiting
      (read.write [partWrite base batch.start content p n]) := by
  refine ⟨h.start_eq, h.stop_eq, fun m hm x hlow hhigh => ?_, h.inv.write fun write hwrite => ?_⟩
  · refine (h.written m hm x hlow hhigh).mono ?_
    rw [BatchRead.write, writesOf_append]
    exact List.subset_append_left _ _
  · exact ⟨p, n, hp, hn, List.mem_singleton.1 hwrite⟩

/-- A block that has landed was written. -/
theorem Going.land {landed : Nat} {read : BatchRead}
    (h : Going base batch content block landed .no read) {copy : BlockCopy}
    (hcopy : CopyOf base batch block copy) :
    Going base batch content block landed (.entered copy.block .success)
      (read.write [partWrite base batch.start content copy.offset copy.bytesize]) := by
  have hoffset := hcopy.offset_eq
  have hend := hcopy.end_eq
  have hwritten := h.transfer (p := copy.offset) (n := copy.bytesize) (by omega) (by omega)
  refine ⟨hwritten.start_eq, hwritten.stop_eq, fun n hn x hlow hhigh => ?_, hwritten.inv⟩
  have hn' : n = copy.block := by
    rcases hn with hentered | hcounting
    · cases hentered
      rfl
    · cases hcounting
  subst hn'
  refine ⟨copy.offset, copy.bytesize, ?_, by omega, by omega, by omega, by omega⟩
  rw [BatchRead.write, writesOf_append]
  exact List.mem_append_right _ (List.mem_singleton_self _)

/-- The block that was being counted has arrived, and the tasks may be answered up to it. -/
theorem Going.count {landed : Nat} {read : BatchRead}
    (h : Going base batch content block landed (.counting landed) read) :
    Going base batch content block (landed + 1) (.posting landed) read := by
  refine ⟨h.start_eq, h.stop_eq, fun n hn => ?_, h.inv.extend fun x hlow hhigh => ?_⟩
  · rcases hn with hn | hn <;> cases hn
  · apply h.written landed (Or.inr rfl) x _ hhigh
    omega

/-- The thread of the waiter goes on without a new block. -/
theorem Going.waitingOn {landed : Nat} {waiting waiting' : Completing} {read : BatchRead}
    (h : Going base batch content block landed waiting read)
    (hwaiting : ∀ n, waiting' = .entered n .success ∨ waiting' = .counting n →
      waiting = .entered n .success ∨ waiting = .counting n) :
    Going base batch content block landed waiting' read :=
  ⟨h.start_eq, h.stop_eq, fun n hn => h.written n (hwaiting n hn), h.inv⟩

/-- The landed blocks reach at least the offset that is answered. -/
theorem DeviceInv.landedOffset_le (h : DeviceInv heap base batch content block s)
    (hpc : s.pc ≠ .returned) :
    s.landedOffset block ≤ min (batch.start + s.landed * block) batch.stop := by
  have hgoing := h.going hpc
  rw [DeviceRead.landedOffset, hgoing.start_eq, hgoing.stop_eq]
  have hword : wordAdd 64 batch.start (toWord 64 (s.landed * block)) ≤
      batch.start + s.landed * block := by
    calc wordAdd 64 batch.start (toWord 64 (s.landed * block))
        ≤ batch.start + toWord 64 (s.landed * block) := Nat.mod_le _ _
      _ ≤ batch.start + s.landed * block := Nat.add_le_add_left (Nat.mod_le _ _) _
  omega

/-- Returning with an error fails what is left. -/
theorem Going.fail (hb : batch.Readable heap base) {landed : Nat} {waiting : Completing}
    {read : BatchRead} (h : Going base batch content block landed waiting read)
    {code : ResponseCode} (hcode : code ≠ .success) :
    Done heap content batch (read.handleError code) := by
  obtain ⟨hfinishes, hmoments, hinPlace⟩ :=
    h.inv.handleError hb fun hsuccess => absurd hsuccess hcode
  exact ⟨⟨_, h.inv.le_length, code, fun _ => hcode, hfinishes⟩,
    everyMoment_truly hb hmoments hinPlace⟩

/-- Returning without an error leaves nothing to fail. -/
theorem Going.done (hb : batch.Readable heap base) {landed : Nat} {waiting : Completing}
    {read : BatchRead} (h : Going base batch content block landed waiting read)
    (hall : read.batch.unfinished = batch.tasks.length) : Done heap content batch read := by
  refine ⟨⟨batch.tasks.length, Nat.le_refl _, .success, fun hlt => ?_, ?_⟩,
    everyMoment_truly hb h.inv.moments h.inv.inPlace⟩
  · exact absurd hlt (Nat.lt_irrefl _)
  · rw [h.inv.finishes_eq, hall, Nat.sub_self]
    simp

/-- While the function runs, only the blocks matter. -/
theorem ReadingInv.running (hpc : s.pc ≠ .returned)
    (h : Going base batch content block s.landed s.waiting s.read) :
    ReadingInv heap base batch content block s :=
  ⟨fun hreturned => absurd hreturned hpc, fun _ => h⟩

/-- A completion runs only while the function does. -/
theorem DeviceInv.pc_ne_of_waiting (h : DeviceInv heap base batch content block s)
    (hwaiting : s.waiting ≠ .no) : s.pc ≠ .returned := fun hpc =>
  hwaiting (h.waiting_eq_no (by rw [hpc]; rfl))

/-- A step keeps the answers. -/
theorem DeviceInv.reading_move (hb : batch.Readable heap base)
    (h : DeviceInv heap base batch content block s) (hmove : DeviceMove content block heap s s') :
    ReadingInv heap base batch content block s' := by
  have hpc := h.pc
  cases hmove with
  | stop | issued | issueReleased | issueRetired | issuingStored | issuingChecked
  | issuingPosted | issuingTerminated => exact h.reading
  | openFailed code hat | opened task tasks destination hat | enterLoop hat | leaveLoop hat
  | acquireFailed code hat | acquired k hat | readFailed buffer code d hat
  | readDone buffer file d hat
  | submitted buffer hat | submitFailed buffer code hat | reportThrew buffer hat
  | reportedInline buffer hat | threw code hat | drained hat | waited left thrown hat
  | checkFailed hat | checked hat | endedStopped hat =>
      exact ReadingInv.running (by simp) (h.going (by rw [hat]; simp))
  | openEmpty hat hnil =>
      obtain ⟨-, hread⟩ := h.opening hat
      rw [hread] at hnil
      change batch.tasks = [] at hnil
      refine ⟨fun _ => ?_, fun hne => absurd rfl hne⟩
      apply (h.going (by rw [hat]; simp)).done hb
      rw [hread, hnil]
      exact hb.unfinished_eq
  | answered hat =>
      have hne : s.pc ≠ .returned := by rw [hat]; simp
      apply ReadingInv.running (by simp)
      exact ((h.going hne).finishedUntil hb (h.landedOffset_le hne)).1
  | finished hat =>
      apply ReadingInv.running (by simp)
      cases hstopped : s.stopped with
      | true => exact h.going (by rw [hat]; simp)
      | false => exact (h.finish hb hat hstopped).1
  | ended hat hstopped =>
      simp only [PcInv, hat, hstopped, Bool.false_eq_true, false_or] at hpc
      exact ⟨fun _ => (h.going (by rw [hat]; simp)).done hb hpc, fun hne => absurd rfl hne⟩
  | failed code hat =>
      simp only [PcInv, hat] at hpc
      exact ⟨fun _ => (h.going (by rw [hat]; simp)).fail hb hpc, fun hne => absurd rfl hne⟩
  | landed copy stream hno hstream =>
      have hne : s.pc ≠ .returned := fun hat => by
        have hnil := h.stream_eq_nil (by rw [hat]; rfl)
        rw [hstream] at hnil
        cases hnil
      have hmem : copy ∈ s.stream := by
        rw [hstream]
        exact List.mem_cons_self
      have hcopy := h.place.2 copy (List.mem_append_left _ hmem)
      have hgoing := h.going hne
      have hwrite := (h.copyWrite_eq hmem (Nat.zero_add copy.bytesize).le).1
      rw [hno] at hgoing
      refine ReadingInv.running hne ?_
      simp only [hwrite]
      exact hgoing.land hcopy
  | transferred copy first count hstream hle =>
      have hne : s.pc ≠ .returned := fun hat => by
        rw [h.stream_eq_nil (by rw [hat]; rfl)] at hstream
        cases hstream
      obtain ⟨hwrite, hlow, hhigh⟩ := h.copyWrite_eq hstream hle
      refine ReadingInv.running hne ?_
      simp only [hwrite]
      exact (h.going hne).transfer (by omega) (by omega)
  | lost copy stream hno hstream =>
      have hne : s.pc ≠ .returned := fun hat => by
        have hnil := h.stream_eq_nil (by rw [hat]; rfl)
        rw [hstream] at hnil
        cases hnil
      refine ReadingInv.running hne ((h.going hne).waitingOn fun n hn => ?_)
      rcases hn with hn | hn <;> cases hn
  | issuingCounted n hcounting => exact absurd hcounting (h.order.issuing_counting n)
  | waitingStored n code hentered | waitingSkipped n hentered | waitingPosted n hentered
  | waitingTerminated n hentered =>
      have hne := h.pc_ne_of_waiting (by rw [hentered]; simp)
      refine ReadingInv.running hne ((h.going hne).waitingOn fun m hm => ?_)
      rcases hm with hm | hm <;> cases hm
  | waitingChecked n hentered =>
      have hne := h.pc_ne_of_waiting (by rw [hentered]; simp)
      refine ReadingInv.running hne ((h.going hne).waitingOn fun m hm => ?_)
      rcases hm with hm | hm <;> cases hm
      exact Or.inl hentered
  | waitingCounted n hcounting =>
      have hne := h.pc_ne_of_waiting (by rw [hcounting]; simp)
      obtain ⟨rfl, hlt⟩ := h.order.counting n hcounting
      have hbound := h.order.submitted_lt
      have hgoing := h.going hne
      rw [hcounting] at hgoing
      refine ReadingInv.running hne ?_
      simp only [wordAdd_of_lt (show s.landed + 1 < 2 ^ 32 by omega)]
      exact hgoing.count

/-! ## Runs -/

theorem deviceInv_start (hb : batch.Readable heap base) (content : Nat → UInt8) (block : Nat)
    (staging : Nat → Memory 64 UInt8) :
    DeviceInv heap base batch content block (DeviceRead.start batch staging) := by
  have hle : batch.start ≤ batch.stop := hb.contiguous.le fun task htask => by
    have hstop := hb.stop_eq task htask
    omega
  refine ⟨supplyInv_start batch staging, laneInv_start batch staging,
    orderInv_start batch staging, ⟨?_, fun copy hcopy => ?_⟩, ⟨rfl, rfl⟩,
    stageInv_start content block batch staging,
    ReadingInv.running (by simp [DeviceRead.start]) ⟨rfl, rfl, fun n hn => ?_, ?_⟩⟩
  · simp only [DeviceRead.start]
    omega
  · simp [DeviceRead.start] at hcopy
  · rcases hn with hn | hn <;> cases hn
  · have hstart := readInv_start base batch content
    rw [← hb.unfinished_eq] at hstart
    simp only [DeviceRead.start, Nat.zero_mul, Nat.add_zero, Nat.min_eq_left hle]
    exact hstart

/-- A block is no longer than a batch. -/
theorem DeviceInv.bytesize_le (hb : batch.Readable heap base)
    (h : DeviceInv heap base batch content block s) (hpc : s.pc ≠ .returned) :
    s.bytesize block ≤ 2 ^ 64 := by
  have hstop := (h.going hpc).stop_eq
  have hlt := hb.stop_lt
  rw [DeviceRead.bytesize, hstop]
  omega

/-- A step keeps the invariant. -/
theorem DeviceInv.move (hb : batch.Readable heap base)
    (h : DeviceInv heap base batch content block s) (hmove : DeviceMove content block heap s s') :
    DeviceInv heap base batch content block s' :=
  { supply := h.supply.move hmove h.lane (fun hat => (h.opening hat).1) h.order.issuing_entered
    lane := h.lane.move hmove
    order := h.order.move h.supply h.reporting hmove
    place := h.place_move hmove
    pc := h.pc_move hb hmove
    stage := h.stage.move h.supply (fun buffer hat => h.bytesize_le hb (by rw [hat]; simp)) hmove
    reading := h.reading_move hb hmove }

/-- Every run keeps the invariant. -/
theorem deviceInv_run (hb : batch.Readable heap base) {file : Option OpenFile} {readSize : Nat}
    {staging : Nat → Memory 64 UInt8} {actions : List DeviceAction}
    (hrun : run (deviceStep file readSize block heap) (.start batch staging) actions = some s) :
    DeviceInv heap base batch (contentOf file) block s :=
  run_invariant (fun _ _ _ h hstep => h.move hb (deviceStep_move hstep))
    (deviceInv_start hb _ _ staging) hrun

/-! ## Quiet states -/

/-- Every copy that was submitted has reported, once, and none is on its way. -/
structure AllReported (s : DeviceRead) : Prop where
  lane : s.lane = []
  stream : s.stream = []
  waiting : s.waiting = .no
  issuing : s.issuing = .no
  reported : s.reported.Perm (List.range s.submitted)

/-- Once the guard has waited, every copy has reported. -/
theorem DeviceInv.allReported (h : DeviceInv heap base batch content block s)
    (howed : s.pc.owed s.submitted = 0) : AllReported s := by
  have hpending := h.pending howed
  have hcopies := h.supply.copies
  rw [hpending, List.append_nil] at hcopies
  simp only [DeviceRead.pending, List.append_eq_nil_iff, List.map_eq_nil_iff] at hpending
  refine ⟨hpending.2, h.stream_eq_nil howed, h.waiting_eq_no howed, ?_, hcopies⟩
  cases hissuing : s.issuing with
  | no => rfl
  | entered | counting | posting =>
      rw [hissuing] at hpending
      cases hpending.1.2

/-- When the function returned, every buffer was given back or retired, and none twice. -/
theorem DeviceInv.buffers_returned (h : DeviceInv heap base batch content block s)
    (hpc : s.pc = .returned) :
    (s.released ++ s.retired).Perm (List.range s.acquired) := by
  have hquiet := h.allReported (by rw [hpc]; rfl)
  have hbuffers := h.supply.buffers
  have hheld : s.held = [] := by
    simp [DeviceRead.held, hpc, ReaderPc.buffers, hquiet.lane, hquiet.stream]
  rwa [hheld, List.append_nil] at hbuffers

/-! ## Both destinations -/

/-- A read to a device that came this far. -/
theorem DeviceInv.answers (hb : batch.Readable heap base)
    (h : DeviceInv heap base batch content block s) :
    EveryMoment (AnswersTruly heap content batch) s.read.log := by
  by_cases hpc : s.pc = .returned
  · exact (h.reading.1 hpc).2
  · exact everyMoment_truly hb (h.going hpc).inv.moments (h.going hpc).inv.inPlace

end Steps

/--
A batch of a transfer that was divided, read to the host for every file, block size and moment
of the stop, or to a device in every run: at every moment the tasks answered with success are
the first ones, and their destinations hold their bytes of the file.  When the function returned
every task was answered, those that are left with one error.  On the way to a device no staging
buffer is given back twice or forgotten, and before tasks are failed every submitted copy has
reported.
-/
theorem sync_reads_answer_a_true_prefix {config : Config} {origin : BatchOrigin}
    {heap : List Request} {t : ContiguousTransfer} (h : Sliced t)
    (hsize : t.size = t.rangeSizes.sum) (hoffset : t.offset < 2 ^ 64) (hlt : t.size < 2 ^ 64)
    {made : List Request × List Batch} (hmade : makeBatches config origin t heap = .ok made)
    {batch : Batch} (hbatch : batch ∈ made.2) (file : Option OpenFile) (block : Nat) :
    (∀ stopped : Nat → Bool, (∀ c, stopped c = true → stopped (c + 1) = true) →
      EveryMoment (AnswersTruly made.1 (contentOf file) batch)
        (batch.execute file block stopped made.1).log ∧
      AllAnswered batch.tasks.length (batch.execute file block stopped made.1).log) ∧
    ∀ readSize staging actions s,
      run (deviceStep file readSize block made.1) (.start batch staging) actions = some s →
        EveryMoment (AnswersTruly made.1 (contentOf file) batch) s.read.log ∧
        (s.pc = .returned → AllAnswered batch.tasks.length s.read.log) ∧
        (s.released ++ s.retired ++ s.held).Perm (List.range s.acquired) ∧
        (s.pc = .returned → (s.released ++ s.retired).Perm (List.range s.acquired)) ∧
        ∀ code, s.pc = .failing code → AllReported s := by
  obtain ⟨base, hb⟩ := makeBatches_readable h hsize hoffset hlt hmade hbatch
  refine ⟨fun stopped hmono => execute_answers hb file block hmono,
    fun readSize staging actions s hrun => ?_⟩
  have hinv := deviceInv_run hb hrun
  exact ⟨hinv.answers hb, fun hpc => (hinv.reading.1 hpc).1, hinv.supply.buffers,
    hinv.buffers_returned, fun code hpc => hinv.allReported (by rw [hpc]; rfl)⟩

/-- A file of five bytes. -/
def fiveBytes : OpenFile :=
  { length := 5
    bytes := fun pos => UInt8.ofNat (pos + 1)
    read := fun pos count => some (min count (5 - pos))
    read_le := fun pos count n hread => by
      cases hread
      exact Nat.min_le_left _ _ }

/-- A transfer of two ranges for one worker. -/
def pairTransfer : ContiguousTransfer :=
  { fileIndex := 0, offset := 0, size := 5, destination := 100, firstRangeIndex := 0
    rangeSizes := [2, 3], tasks := [⟨0, 0, 0, 5, 100⟩] }

def pairHeap : List Request :=
  [Request.make 0 0 0 1 2 100, Request.make 2 0 1 2 3 102]

/-- The batch that is made of it, for a device. -/
def pairBatch : Batch :=
  { submissionId := 1, workloadIndex := 0, fileIndex := 0, path := ['a']
    isObjectStorage := false, device := ⟨.cuda, 0⟩
    tasks := [Task.make 0 (TaskInfo.make 0 2 0), Task.make 1 (TaskInfo.make 2 1 0),
      Task.make 1 (TaskInfo.make 3 2 1)]
    chunks := [⟨0, 3, 100, 0, 2⟩, ⟨3, 2, 103, 2, 1⟩], start := 0, stop := 5, unfinished := 0 }

theorem makeBatches_pairTransfer :
    makeBatches tinyConfig ⟨1, 0, ['a'], false, ⟨.cuda, 0⟩⟩ pairTransfer [] =
      .ok (pairHeap, [pairBatch]) := by
  rfl

/-- Two blocks, of which the second one lands after the guard began to wait. -/
def pairRun : List DeviceAction :=
  [.step, .step, .acquire (.ok (some 0)), .step, .submit none, .step, .step, .issue none,
   .acquire (.ok (some 1)), .step, .transfer 0 1 2, .land true, .submit none, .waiting, .waiting,
   .waiting, .step, .issue none, .step, .land true, .waiting, .waiting, .waiting, .step, .step,
   .step, .step, .step, .step]

theorem sync_reads_answer_a_true_prefix_pair :
    ∃ s, run (deviceStep (some fiveBytes) 8 4 pairHeap) (.start pairBatch fun _ _ => 0) pairRun =
        some s ∧
      s.pc = .returned ∧ AllAnswered 3 s.read.log ∧
      (s.released ++ s.retired).Perm (List.range s.acquired) := by
  have hsliced : Sliced pairTransfer :=
    ⟨⟨_, _, rfl, rfl⟩, rfl, fun _ task htask => by
      rw [List.mem_singleton.1 htask]
      decide⟩
  have hreturned : (run (deviceStep (some fiveBytes) 8 4 pairHeap)
      (.start pairBatch fun _ _ => 0) pairRun).map DeviceRead.pc = some .returned := by
    decide +kernel
  obtain ⟨s, hrun, hpc⟩ := Option.map_eq_some_iff.1 hreturned
  have hanswers := sync_reads_answer_a_true_prefix hsliced rfl (by decide) (by decide)
    makeBatches_pairTransfer (List.mem_singleton_self _) (some fiveBytes) 4
  have h := hanswers.2 8 (fun _ _ => 0) pairRun s hrun
  exact ⟨s, hrun, hpc, h.2.1 hpc, h.2.2.2.1 hpc⟩

end DeviceIo
end ModelStreamer
