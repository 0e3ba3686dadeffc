import ModelStreamer.Lib.IssueQueue
import ModelStreamer.PosixIo.IoUringEngine

/-!
# The io_uring engine as a queue

An owner that keeps to the size of the ring sees the same queue as that of a libaio engine.  Its
stages never find the submission queue full, and the kernel never drops a completion.

Main results:

- Theorem {lit}`io_uring_step_queue`: one call of the engine is an operation of the queue.
- Theorem {lit}`io_uring_is_queue`: every run of an owner that stays inside the depth is one of
  the queue.
-/

namespace ModelStreamer
namespace PosixIo

open Common Lib

/-- What a call of the engine is for the queue. -/
def ioUringOps (s : IoUringRun) : IoUringCall → List (QueueOp Nat)
  | .stage id _ _ _ _ _ _ => [.stage id]
  | .flush ret => [.flush (s.engine.flush s.kernel ret).outIssued]
  | .lands _ _ => []
  | .wait max block timeoutMs answer =>
      [.collect ((s.engine.waitForCompletions s.kernel max block timeoutMs answer).completions.map
        Completion.id)]

/-- The reads that a completion will arrive for, or has arrived for. -/
def RingKernel.owed (k : RingKernel) : List Nat :=
  k.reads.map Sqe.userData ++ k.completions.map Completion.id

/-- The owner stages a read only when fewer than the depth are staged or owed. -/
def IoUringRun.InWindow (s : IoUringRun) : IoUringCall → Prop
  | .stage _ _ _ _ _ _ _ => s.engine.prepared.length + s.kernel.owed.length < s.engine.depth
  | _ => True

instance IoUringRun.decidableInWindow (s : IoUringRun) : DecidablePred s.InWindow
  | .stage _ _ _ _ _ _ _ => inferInstanceAs (Decidable (_ < _))
  | .flush _ => .isTrue trivial
  | .lands _ _ => .isTrue trivial
  | .wait _ _ _ _ => .isTrue trivial

/-- The reads of the engine are those of the queue, and none was lost. -/
structure IoUringHolds (depth : Nat) (s : IoUringRun) (q : IssueQueue Nat) : Prop where
  depth_eq : s.engine.depth = depth
  count : s.engine.staged = s.engine.prepared.length
  staged : q.staged = s.engine.prepared.map Sqe.userData
  owed : q.owed.Perm s.kernel.owed
  bound : s.engine.prepared.length + s.kernel.owed.length ≤ depth
  room : s.kernel.cqEntries = 2 * depth
  overflow : s.kernel.overflow = 0

section Calls

variable {depth : Nat} {s : IoUringRun} {q : IssueQueue Nat} {call : IoUringCall}
  {e : IoUringEngine} {k : RingKernel}

/-! ## What a call leaves alone -/

/-- What registering changes: the engine's memory of the regions, and the kernel's table. -/
structure Registers (e e' : IoUringEngine) (k k' : RingKernel) : Prop where
  depth_eq : e'.depth = e.depth
  staged : e'.staged = e.staged
  prepared : e'.prepared = e.prepared
  reported : e'.overflowReported = e.overflowReported
  reads : k'.reads = k.reads
  completions : k'.completions = k.completions
  room : k'.cqEntries = k.cqEntries
  overflow : k'.overflow = k.overflow

/-- A region that is not known is registered or refused. -/
theorem IoUringEngine.register_registers (registration : Registration) (answer : RegisterAnswer) :
    Registers e (e.register k registration answer).2.1 k
      (e.register k registration answer).2.2 := by
  unfold IoUringEngine.register
  dsimp only
  constructor <;> split_ifs <;> rfl

/-- The index of a region is looked up. -/
theorem IoUringEngine.registeredIndex_registers (registration : Registration)
    (answer : RegisterAnswer) :
    Registers e (e.registeredIndex k registration answer).2.1 k
      (e.registeredIndex k registration answer).2.2 := by
  unfold IoUringEngine.registeredIndex
  split_ifs
  case pos => exact ⟨rfl, rfl, rfl, rfl, rfl, rfl, rfl, rfl⟩
  case pos => exact ⟨rfl, rfl, rfl, rfl, rfl, rfl, rfl, rfl⟩
  case neg =>
    dsimp only
    split
    · exact ⟨rfl, rfl, rfl, rfl, rfl, rfl, rfl, rfl⟩
    · exact ⟨rfl, rfl, rfl, rfl, rfl, rfl, rfl, rfl⟩
    · have h := IoUringEngine.register_registers (e := e.grow registration.id) (k := k)
        registration answer
      exact ⟨h.depth_eq, h.staged, h.prepared, h.reported, h.reads, h.completions, h.room,
        h.overflow⟩

/-- The region that a read is staged with. -/
def IoUringEngine.indexFor (e : IoUringEngine) (k : RingKernel) (bytesize : Nat)
    (buffer : BitVec 64) (registration : Registration) (answer : RegisterAnswer) :
    Option Nat × IoUringEngine × RingKernel :=
  if offersThisBuffer registration buffer bytesize then e.registeredIndex k registration answer
  else (none, e, k)

/-- A read that is staged with or without a region. -/
theorem IoUringEngine.indexFor_registers (bytesize : Nat) (buffer : BitVec 64)
    (registration : Registration) (answer : RegisterAnswer) :
    Registers e (e.indexFor k bytesize buffer registration answer).2.1 k
      (e.indexFor k bytesize buffer registration answer).2.2 := by
  unfold IoUringEngine.indexFor
  split
  · exact IoUringEngine.registeredIndex_registers registration answer
  · exact ⟨rfl, rfl, rfl, rfl, rfl, rfl, rfl, rfl⟩

/-- A read is staged when the submission queue has room. -/
theorem IoUringEngine.stage_of_room (hroom : e.prepared.length < e.depth) (id : Nat)
    (file : FileRef) (offset bytesize : Nat) (buffer : BitVec 64) (registration : Registration)
    (answer : RegisterAnswer) {index : Option Nat} {e' : IoUringEngine} {k' : RingKernel}
    (hindex : e.indexFor k bytesize buffer registration answer = (index, e', k')) :
    e.stage k id file offset bytesize buffer registration answer =
      (.success,
        { e' with
          prepared := e.prepared ++ [sqeFor id file offset bytesize buffer index]
          staged := wordAdd 32 e.staged 1 }, k') := by
  have hkept := IoUringEngine.indexFor_registers (e := e) (k := k) bytesize buffer registration
    answer
  rw [hindex] at hkept
  have hroom' : ¬ e'.depth ≤ e'.prepared.length := by
    rw [hkept.depth_eq, hkept.prepared]
    omega
  unfold IoUringEngine.stage
  unfold IoUringEngine.indexFor at hindex
  rw [hindex]
  dsimp only
  rw [if_neg hroom', hkept.prepared, hkept.staged]

/-! ## The steps -/

/-- A stage of an owner that has room for it. -/
theorem IoUringHolds.stage (hdepth : depth < 2 ^ 32) (h : IoUringHolds depth s q) {id : Nat}
    {file : FileRef} {offset bytesize : Nat} {buffer : BitVec 64} {registration : Registration}
    {answer : RegisterAnswer}
    (hroom : s.engine.prepared.length + s.kernel.owed.length < s.engine.depth) :
    q.staged.length + q.owed.length < depth ∧
      IoUringHolds depth (ioUringNext s (.stage id file offset bytesize buffer registration answer))
        { q with staged := q.staged ++ [id] } := by
  have hbelow : s.engine.prepared.length < s.engine.depth := by omega
  rcases hindex : s.engine.indexFor s.kernel bytesize buffer registration answer with ⟨index, e, k⟩
  have hkept := IoUringEngine.indexFor_registers (e := s.engine) (k := s.kernel) bytesize buffer
    registration answer
  rw [hindex] at hkept
  have hstage :=
    IoUringEngine.stage_of_room hbelow id file offset bytesize buffer registration answer hindex
  have howed : k.owed = s.kernel.owed := by
    unfold RingKernel.owed
    rw [hkept.reads, hkept.completions]
  have hdepth_eq := h.depth_eq
  have hcount := h.count
  constructor
  · rw [h.staged, List.length_map, h.owed.length_eq]
    omega
  · unfold ioUringNext
    dsimp only
    rw [hstage]
    constructor
    · exact hkept.depth_eq.trans h.depth_eq
    · change wordAdd 32 s.engine.staged 1 = _
      rw [List.length_append, List.length_singleton, hcount]
      exact wordAdd_of_lt (by omega)
    · change q.staged ++ [id] = _
      rw [List.map_append, h.staged]
      rfl
    · change q.owed.Perm k.owed
      rw [howed]
      exact h.owed
    · change (s.engine.prepared ++ [_]).length + k.owed.length ≤ depth
      rw [List.length_append, List.length_singleton, howed]
      omega
    · exact hkept.room.trans h.room
    · exact hkept.overflow.trans h.overflow

/-- Reads move to the kernel. -/
theorem IoUringHolds.issue (h : IoUringHolds depth s q) {count staged : Nat}
    {replies : List Reply} (hstaged : staged = s.engine.prepared.length - count) :
    IoUringHolds depth
      { engine := { s.engine with prepared := s.engine.prepared.drop count, staged }
        kernel := { s.kernel with reads := s.kernel.reads ++ s.engine.prepared.take count }
        replies }
      { staged := q.staged.drop count, owed := q.owed ++ q.staged.take count } := by
  have hmoved : RingKernel.owed
      { s.kernel with reads := s.kernel.reads ++ s.engine.prepared.take count } =
      s.kernel.reads.map Sqe.userData ++ (s.engine.prepared.take count).map Sqe.userData ++
        s.kernel.completions.map Completion.id := by
    unfold RingKernel.owed
    rw [List.map_append]
  have hbound := h.bound
  have hperm := h.owed
  unfold RingKernel.owed at hbound hperm
  constructor
  · exact h.depth_eq
  · change staged = (s.engine.prepared.drop count).length
    rw [List.length_drop]
    exact hstaged
  · change q.staged.drop count = (s.engine.prepared.drop count).map Sqe.userData
    rw [h.staged, List.map_drop]
  · change (q.owed ++ q.staged.take count).Perm _
    rw [hmoved, h.staged, ← List.map_take]
    refine (hperm.append_right _).trans ?_
    rw [List.append_assoc, List.append_assoc]
    exact (List.perm_append_comm).append_left _
  · rw [hmoved]
    change (s.engine.prepared.drop count).length + _ ≤ depth
    simp only [List.length_append, List.length_map, List.length_drop, List.length_take] at hbound ⊢
    omega
  · exact h.room
  · exact h.overflow

/-- A flush takes reads off the front of the queue, whatever the kernel says. -/
theorem IoUringHolds.flush (h : IoUringHolds depth s q) (ret : Int) :
    (s.engine.flush s.kernel ret).outIssued ≤ q.staged.length ∧
      IoUringHolds depth (ioUringNext s (.flush ret))
        { staged := q.staged.drop (s.engine.flush s.kernel ret).outIssued
          owed := q.owed ++ q.staged.take (s.engine.flush s.kernel ret).outIssued } := by
  have hcount := h.count
  have hlength : q.staged.length = s.engine.prepared.length := by
    rw [h.staged, List.length_map]
  have hnone : IoUringHolds depth s { staged := q.staged.drop 0, owed := q.owed ++ q.staged.take 0 } := by
    rw [List.drop_zero, List.take_zero, List.append_nil]
    exact h
  have hsame := fun reply : Reply =>
    (⟨hnone.depth_eq, hnone.count, hnone.staged, hnone.owed, hnone.bound, hnone.room,
      hnone.overflow⟩ : IoUringHolds depth { s with replies := s.replies ++ [reply] } _)
  unfold ioUringNext IoUringEngine.flush
  dsimp only
  by_cases hempty : s.engine.staged = 0
  · rw [if_pos hempty]
    exact ⟨Nat.zero_le _, hsame _⟩
  · rw [if_neg hempty]
    by_cases hfails : ret < 0
    · rw [if_pos hfails]
      by_cases hdefer : submitCanDefer (-ret) = true
      · rw [if_pos hdefer]
        exact ⟨Nat.zero_le _, hsame _⟩
      · rw [if_neg hdefer]
        exact ⟨Nat.zero_le _, hsame _⟩
    · rw [if_neg hfails]
      by_cases hmore : s.engine.staged < ret.toNat
      · -- The kernel says that it took more than there were, so it took all.
        rw [if_pos hmore]
        have htake : s.engine.prepared.take ret.toNat =
            s.engine.prepared.take s.engine.staged := by
          rw [List.take_of_length_le (by omega), List.take_of_length_le (by omega)]
        have hdrop : s.engine.prepared.drop ret.toNat =
            s.engine.prepared.drop s.engine.staged := by
          rw [List.drop_of_length_le (by omega), List.drop_of_length_le (by omega)]
        have hle : s.engine.staged ≤ q.staged.length := by omega
        rw [htake, hdrop]
        exact ⟨hle, h.issue (by omega)⟩
      · have hle : ret.toNat ≤ q.staged.length := by omega
        rw [if_neg hmore]
        exact ⟨hle, h.issue (by omega)⟩

/-- A completion is posted, since there is room for one of every read. -/
theorem IoUringHolds.lands (h : IoUringHolds depth s q) (index : Nat) (res : Int) :
    IoUringHolds depth (ioUringNext s (.lands index res)) q := by
  unfold ioUringNext RingKernel.lands
  dsimp only
  split
  case h_1 => exact h
  case h_2 read hread =>
    have hlt : index < s.kernel.reads.length := (List.getElem?_eq_some_iff.1 hread).1
    have hread' : s.kernel.reads[index] = read := (List.getElem?_eq_some_iff.1 hread).2
    have hbound := h.bound
    have hroom := h.room
    unfold RingKernel.owed at hbound
    rw [List.length_append, List.length_map, List.length_map] at hbound
    have hfits : s.kernel.completions.length < s.kernel.cqEntries := by omega
    have hmoved : (RingKernel.owed
        { s.kernel with
          reads := s.kernel.reads.eraseIdx index
          completions := s.kernel.completions ++
            [⟨read.userData, s.kernel.result read res⟩] }).Perm
        s.kernel.owed := by
      unfold RingKernel.owed
      have herase := (List.getElem_cons_eraseIdx_perm hlt).map Sqe.userData
      rw [hread', List.map_cons] at herase
      rw [List.map_append, List.map_singleton, ← List.append_assoc]
      refine (List.perm_append_singleton _ _).trans ?_
      rw [← List.cons_append]
      exact herase.append_right _
    rw [if_pos hfits]
    constructor
    · exact h.depth_eq
    · exact h.count
    · exact h.staged
    · exact h.owed.trans hmoved.symm
    · rw [hmoved.length_eq]
      exact h.bound
    · exact h.room
    · exact h.overflow

/-- A wait hands out completions and leaves nothing else. -/
theorem IoUringHolds.wait (h : IoUringHolds depth s q) (max : Nat) (block : Bool) (timeoutMs : Nat)
    (answer : Option (Nat × Nat) → Int) {ids : List Nat}
    (hids : ids = (s.engine.waitForCompletions s.kernel max block timeoutMs answer).completions.map
      Completion.id) :
    ids.Subperm q.owed ∧
      IoUringHolds depth (ioUringNext s (.wait max block timeoutMs answer))
        { q with owed := q.owed.diff ids } := by
  subst hids
  unfold ioUringNext IoUringEngine.waitForCompletions
  dsimp only
  split
  case isTrue =>
    refine ⟨List.nil_subperm, ?_⟩
    rw [List.map_nil, List.diff_nil]
    exact ⟨h.depth_eq, h.count, h.staged, h.owed, h.bound, h.room, h.overflow⟩
  case isFalse =>
    have hsplit : (s.kernel.completions.take max).map Completion.id ++
        (s.kernel.completions.drop max).map Completion.id =
        s.kernel.completions.map Completion.id := by
      rw [← List.map_append, List.take_append_drop]
    have howed : ((s.kernel.completions.take max).map Completion.id ++
        (s.kernel.reads.map Sqe.userData ++
          (s.kernel.completions.drop max).map Completion.id)).Perm q.owed := by
      refine List.Perm.trans ?_ h.owed.symm
      unfold RingKernel.owed
      rw [← hsplit]
      exact List.perm_append_comm_assoc ..
    have hsub : ((s.kernel.completions.take max).map Completion.id).Subperm q.owed :=
      (List.sublist_append_left _ _).subperm.trans howed.subperm
    have hleft := (List.perm_append_left_iff _).1 ((IssueQueue.perm_diff hsub).trans howed.symm)
    have hbound := h.bound
    unfold RingKernel.owed at hbound
    refine ⟨hsub, ?_⟩
    rw [if_neg (by rw [h.overflow]; exact Nat.not_lt_zero _)]
    constructor
    · exact h.depth_eq
    · exact h.count
    · exact h.staged
    · exact hleft
    · unfold RingKernel.owed
      simp only [List.length_append, List.length_map, List.length_drop] at hbound ⊢
      omega
    · exact h.room
    · exact h.overflow

/-- One call of the engine is an operation of the queue. -/
theorem io_uring_step_queue (hdepth : depth < 2 ^ 32) (h : IoUringHolds depth s q)
    (hroom : s.InWindow call) :
    ∃ q', run (IssueQueue.step depth) q (ioUringOps s call) = some q' ∧
      IoUringHolds depth (ioUringNext s call) q' := by
  cases call with
  | stage id file offset bytesize buffer registration answer =>
      rcases h.stage hdepth hroom with ⟨hcount, hafter⟩
      refine ⟨_, run_cons.2 ⟨_, ?_, rfl⟩, hafter⟩
      unfold IssueQueue.step
      dsimp only
      rw [if_pos hcount]
  | flush ret =>
      rcases h.flush ret with ⟨hle, hafter⟩
      refine ⟨_, run_cons.2 ⟨_, ?_, rfl⟩, hafter⟩
      unfold IssueQueue.step
      dsimp only
      rw [if_pos hle]
  | lands index res => exact ⟨q, rfl, h.lands index res⟩
  | wait max block timeoutMs answer =>
      rcases h.wait max block timeoutMs answer rfl with ⟨hsub, hafter⟩
      refine ⟨_, run_cons.2 ⟨_, ?_, rfl⟩, hafter⟩
      unfold IssueQueue.step
      dsimp only
      rw [if_pos hsub]

/-- An owner whose calls the queue allows stays inside the ring. -/
theorem IoUringHolds.inWindow {q' : IssueQueue Nat} (h : IoUringHolds depth s q)
    (hops : run (IssueQueue.step depth) q (ioUringOps s call) = some q') : s.InWindow call := by
  cases call with
  | stage id file offset bytesize buffer registration answer =>
      rcases run_cons.1 hops with ⟨q₁, hstage, -⟩
      have hroom := (IssueQueue.step_stage hstage).1
      rw [h.staged, List.length_map, h.owed.length_eq, ← h.depth_eq] at hroom
      exact hroom
  | flush ret => trivial
  | lands index res => trivial
  | wait max block timeoutMs answer => trivial

/-- A new engine holds nothing. -/
theorem io_uring_holds_start (ringEntries : UInt32) (registerBuffers fixedBuffers : Bool) :
    IoUringHolds ringEntries.toNat (.start ringEntries registerBuffers fixedBuffers) {} :=
  ⟨rfl, rfl, rfl, List.Perm.refl _, Nat.zero_le _, rfl, rfl⟩

/-- An engine whose calls are those of a queue holds the reads of the queue. -/
theorem io_uring_follows {ringEntries : UInt32} {registerBuffers fixedBuffers : Bool}
    {calls : List IoUringCall}
    (hrun : run ioUringStep (IoUringRun.start ringEntries registerBuffers fixedBuffers) calls =
      some s)
    (hops : run (IssueQueue.step ringEntries.toNat) {}
      (traceOf ioUringStep ioUringOps
        (IoUringRun.start ringEntries registerBuffers fixedBuffers) calls) = some q) :
    IoUringHolds ringEntries.toNat s q := by
  refine run_follows (R := IoUringHolds ringEntries.toNat) ?_
    (io_uring_holds_start ringEntries registerBuffers fixedBuffers) hrun hops
  intro s q call s' q' hholds hstep hqueue
  cases hstep
  rcases io_uring_step_queue ringEntries.toNat_lt hholds (hholds.inWindow hqueue) with
    ⟨q₁, hsame, hafter⟩
  rw [Option.some.inj (hqueue.symm.trans hsame)]
  exact hafter

/-! ## What the owner is told -/

/-- The ids that the owner stages. -/
def IoUringCall.stagedIds : IoUringCall → List Nat
  | .stage id _ _ _ _ _ _ => [id]
  | _ => []

/-- The ids that the owner was answered for. -/
def IoUringRun.answered (s : IoUringRun) : List Nat :=
  s.replies.flatMap fun reply => reply.completions.map Completion.id

/-- The items that enter the queue are those that are staged. -/
theorem ioUringOps_entering (s : IoUringRun) (call : IoUringCall) :
    (ioUringOps s call).flatMap QueueOp.entering = call.stagedIds := by
  cases call <;> rfl

/-- The items that leave the queue are those that the owner is answered for. -/
theorem ioUringOps_leaving (s : IoUringRun) (call : IoUringCall) :
    (ioUringNext s call).answered =
      s.answered ++ (ioUringOps s call).flatMap QueueOp.leaving := by
  unfold IoUringRun.answered
  cases call with
  | lands index res => exact (List.append_nil _).symm
  | stage id file offset bytesize buffer registration answer =>
      change (s.replies ++ [_]).flatMap _ = _
      rw [List.flatMap_append, List.flatMap_singleton]
      rfl
  | flush ret =>
      change (s.replies ++ [_]).flatMap _ = _
      rw [List.flatMap_append, List.flatMap_singleton]
      rfl
  | wait max block timeoutMs answer =>
      change (s.replies ++ [_]).flatMap _ = _
      rw [List.flatMap_append, List.flatMap_singleton]
      exact congrArg _ (List.append_nil _).symm

/-- What enters and leaves the queue along a run. -/
theorem ioUring_trace {s s' : IoUringRun} {calls : List IoUringCall}
    (hrun : run ioUringStep s calls = some s') :
    (traceOf ioUringStep ioUringOps s calls).flatMap QueueOp.entering =
        calls.flatMap IoUringCall.stagedIds ∧
      s'.answered =
        s.answered ++ (traceOf ioUringStep ioUringOps s calls).flatMap QueueOp.leaving := by
  induction calls generalizing s with
  | nil =>
      cases hrun
      exact ⟨rfl, (List.append_nil _).symm⟩
  | cons call calls ih =>
      rcases ih (s := ioUringNext s call) hrun with ⟨hentering, hleaving⟩
      have htrace : traceOf ioUringStep ioUringOps s (call :: calls) =
          ioUringOps s call ++ traceOf ioUringStep ioUringOps (ioUringNext s call) calls := rfl
      rw [htrace, List.flatMap_append, List.flatMap_append, List.flatMap_cons, hentering, hleaving,
        ioUringOps_entering, ioUringOps_leaving, List.append_assoc]
      exact ⟨rfl, rfl⟩

/-- An owner that keeps to the size of the ring sees a queue, whatever the kernel does: every run
of an io_uring engine is a run of the queue, with the reads that it staged and issued and the
completions that it handed out; no stage finds the ring full, no completion is dropped, and every
read that was staged is in the ring or was answered, once. -/
theorem io_uring_is_queue {ringEntries : UInt32} {registerBuffers fixedBuffers : Bool}
    {calls : List IoUringCall}
    (hwindow : EachStep ioUringStep IoUringRun.InWindow
      (IoUringRun.start ringEntries registerBuffers fixedBuffers) calls)
    (hrun : run ioUringStep (IoUringRun.start ringEntries registerBuffers fixedBuffers) calls =
      some s) :
    (∃ q, run (IssueQueue.step ringEntries.toNat) {}
        (traceOf ioUringStep ioUringOps
          (IoUringRun.start ringEntries registerBuffers fixedBuffers) calls) = some q ∧
      IoUringHolds ringEntries.toNat s q) ∧
    (s.engine.prepared.map Sqe.userData ++ s.kernel.owed ++ s.answered).Perm
      (calls.flatMap IoUringCall.stagedIds) := by
  have hsimulates : ∃ q, run (IssueQueue.step ringEntries.toNat) {}
      (traceOf ioUringStep ioUringOps
        (IoUringRun.start ringEntries registerBuffers fixedBuffers) calls) = some q ∧
      IoUringHolds ringEntries.toNat s q := by
    refine run_simulates (R := IoUringHolds ringEntries.toNat) ?_
      (io_uring_holds_start ringEntries registerBuffers fixedBuffers) hwindow hrun
    intro s q call s' hholds hroom hstep
    cases hstep
    exact io_uring_step_queue ringEntries.toNat_lt hholds hroom
  refine ⟨hsimulates, ?_⟩
  rcases hsimulates with ⟨q, hqueue, hholds⟩
  have hconserved := IssueQueue.run_conserves hqueue
  rcases ioUring_trace hrun with ⟨hentering, hleaving⟩
  have hanswered : s.answered = (traceOf ioUringStep ioUringOps
      (IoUringRun.start ringEntries registerBuffers fixedBuffers) calls).flatMap
        QueueOp.leaving := hleaving
  rw [hentering, ← hanswered, hholds.staged] at hconserved
  refine List.Perm.trans ?_ hconserved
  exact (hholds.owed.symm.append_left _).append_right _

/-- The second read ends first, and the kernel says that it took more than there were. -/
def ringCalls : List IoUringCall :=
  [.stage 7 ⟨3, false⟩ 0 4 64 { base := 64, bytesize := 16, id := 0 } ⟨0, 0⟩,
    .stage 8 ⟨3, true⟩ 4 4 68 { base := 64, bytesize := 16, id := 0 } ⟨0, 0⟩, .flush 3,
    .lands 1 4, .wait 4 true 0 fun _ => 0]

theorem io_uring_is_queue_ring : ∃ s, run ioUringStep (.start 2 true true) ringCalls = some s ∧
    (s.engine.prepared.map Sqe.userData ++ s.kernel.owed ++ s.answered).Perm [7, 8] := by
  have hends : ((run ioUringStep (.start 2 true true) ringCalls).map fun s =>
      (s.kernel.owed, s.answered)) = some ([7], [8]) := by
    decide +kernel
  rcases Option.map_eq_some_iff.1 hends with ⟨s, hrun, -⟩
  exact ⟨s, hrun, (io_uring_is_queue (by decide +kernel) hrun).2⟩

end Calls

end PosixIo
end ModelStreamer
