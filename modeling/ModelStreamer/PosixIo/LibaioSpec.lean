import Mathlib.Algebra.Order.Ring.Nat
import Mathlib.Data.List.Perm.Basic
import ModelStreamer.PosixIo.LibaioEngine

/-!
# Accounting of the libaio engine

Every iocb is in one place and every staged read is either on its way or answered, whatever
the kernel does.

Main results:

- Theorem {lit}`flushLoop_spec`: a flush takes a prefix off the queue and keeps the accounting.
- Theorem {lit}`libaio_accounting`: every sequence of calls returns and keeps the accounting,
  and a caller that stays inside the depth can always stage.
-/

namespace ModelStreamer
namespace PosixIo

open Common Lib

/-! ## The accounting -/

/-- The ids of the staged reads that were not issued, in order. -/
def LibaioEngine.pendingIds (e : LibaioEngine) : List Nat :=
  e.pending.map e.dataAt

/-- The ids the engine owes an answer for or has answered, by where they are. -/
def LibaioRun.places (s : LibaioRun) : List Nat :=
  s.engine.pendingIds ++ s.ctx.reads.map KernelRead.data ++
    s.engine.submitFailures.map Completion.id ++ s.delivered.map Completion.id

/-- What holds between two calls of an engine of the given depth. -/
structure LibaioAccounting (depth : Nat) (s : LibaioRun) : Prop where
  depth_eq : s.engine.depth = depth
  iocbs_length : s.engine.iocbs.length = depth
  slots : (s.engine.free ++ s.engine.pending ++ s.ctx.reads.map KernelRead.slot).Perm
    (List.range depth)
  ids : s.places.Perm s.staged
  issued_sum : s.issuedSum =
    s.delivered.length + s.ctx.reads.length + s.engine.submitFailures.length
  in_order : (s.ctx.accepted ++ s.engine.pendingIds).Sublist s.staged

variable {depth : Nat} {s : LibaioRun}

/-- No iocb is in two places. -/
theorem LibaioAccounting.slots_nodup (h : LibaioAccounting depth s) :
    (s.engine.free ++ s.engine.pending ++ s.ctx.reads.map KernelRead.slot).Nodup :=
  h.slots.nodup_iff.2 List.nodup_range

/-- The iocbs add up to the depth. -/
theorem LibaioAccounting.slots_length (h : LibaioAccounting depth s) :
    s.engine.free.length + s.engine.pending.length + s.ctx.reads.length = depth := by
  have hlength := h.slots.length_eq
  simpa [Nat.add_assoc] using hlength

/-- What was staged and not handed out is staged, in the kernel or refused. -/
theorem LibaioAccounting.outstanding (h : LibaioAccounting depth s) :
    s.engine.pending.length + s.ctx.reads.length + s.engine.submitFailures.length +
      s.delivered.length = s.staged.length := by
  have hlength := h.ids.length_eq
  simpa [LibaioRun.places, LibaioEngine.pendingIds, Nat.add_assoc] using hlength

/-- A new engine has all its iocbs free. -/
theorem libaioAccounting_start (depth : UInt32) :
    LibaioAccounting depth.toNat (LibaioRun.start depth) := by
  refine ⟨rfl, by simp [LibaioRun.start, LibaioEngine.make], ?_, List.Perm.refl _, rfl,
    List.Sublist.refl _⟩
  simp only [LibaioRun.start, LibaioEngine.make, List.append_nil, List.map_nil]
  exact List.reverse_perm _

/-! ## Staging -/

/-- Staging into a free iocb keeps the accounting. -/
theorem LibaioAccounting.stage (h : LibaioAccounting depth s) {slot : Nat} {free : List Nat}
    (hfree : s.engine.free = slot :: free) (iocb : Iocb) :
    LibaioAccounting depth
      { s with
        engine :=
          { s.engine with
            iocbs := s.engine.iocbs.set slot iocb
            free
            pending := s.engine.pending ++ [slot] }
        staged := s.staged ++ [iocb.data] } := by
  have hnodup := h.slots_nodup
  have hslots := h.slots
  rw [hfree] at hnodup hslots
  have hlt : slot < s.engine.iocbs.length := by
    have hmem := (hslots.mem_iff (a := slot)).1 (by simp)
    rw [h.iocbs_length]
    exact List.mem_range.1 hmem
  have hpending : slot ∉ s.engine.pending := by
    intro hmem
    rw [List.append_assoc, List.cons_append, List.nodup_cons] at hnodup
    exact hnodup.1 (by simp [hmem])
  have hids : (s.engine.pending ++ [slot]).map
      (LibaioEngine.dataAt { s.engine with
        iocbs := s.engine.iocbs.set slot iocb, free, pending := s.engine.pending ++ [slot] }) =
      s.engine.pendingIds ++ [iocb.data] := by
    rw [List.map_append, List.map_singleton]
    congr 1
    · refine List.map_congr_left fun other hother => ?_
      unfold LibaioEngine.dataAt
      rw [List.getElem?_set_ne]
      rintro rfl
      exact hpending hother
    · simp [LibaioEngine.dataAt, List.getElem?_set_self hlt]
  constructor
  · exact h.depth_eq
  · simp [h.iocbs_length]
  · apply List.perm_iff_count.2
    intro a
    have hcount := hslots.count_eq a
    simp only [List.count_append, List.count_cons, List.count_nil] at hcount ⊢
    omega
  · apply List.perm_iff_count.2
    intro a
    have hcount := h.ids.count_eq a
    simp only [LibaioRun.places, LibaioEngine.pendingIds, hids, List.count_append,
      List.count_cons, List.count_nil] at hcount ⊢
    omega
  · exact h.issued_sum
  · simp only [LibaioEngine.pendingIds, hids]
    rw [← List.append_assoc]
    exact h.in_order.append (List.Sublist.refl _)

/-! ## Flushing -/

/-- The kernel takes the first reads of the queue. -/
theorem LibaioAccounting.accept (h : LibaioAccounting depth s) (n : Nat) :
    LibaioAccounting depth
      { s with
        engine := { s.engine with pending := s.engine.pending.drop n }
        ctx :=
          { reads := s.ctx.reads ++
              (s.engine.pending.take n).map fun slot => ⟨slot, s.engine.dataAt slot⟩
            accepted := s.ctx.accepted ++ (s.engine.pending.take n).map s.engine.dataAt }
        issuedSum := s.issuedSum + (s.engine.pending.take n).length } := by
  have hdata : LibaioEngine.dataAt { s.engine with pending := s.engine.pending.drop n } =
      s.engine.dataAt := rfl
  have hsplit : ∀ (f : Nat → Nat) a, (s.engine.pending.map f).count a =
      ((s.engine.pending.take n).map f).count a + ((s.engine.pending.drop n).map f).count a := by
    intro f a
    rw [← List.count_append, ← List.map_append, List.take_append_drop]
  constructor
  · exact h.depth_eq
  · exact h.iocbs_length
  · apply List.perm_iff_count.2
    intro a
    have hcount := h.slots.count_eq a
    have hparts := hsplit id a
    simp only [List.map_id] at hparts
    have hslots : (s.engine.pending.take n).map (KernelRead.slot ∘
        fun slot => ⟨slot, s.engine.dataAt slot⟩) = s.engine.pending.take n := by
      simp [Function.comp_def]
    simp only [List.count_append, List.map_append, List.map_map, hslots] at hcount ⊢
    omega
  · apply List.perm_iff_count.2
    intro a
    have hcount := h.ids.count_eq a
    have hparts := hsplit s.engine.dataAt a
    have hids : (s.engine.pending.take n).map (KernelRead.data ∘
        fun slot => ⟨slot, s.engine.dataAt slot⟩) =
        (s.engine.pending.take n).map s.engine.dataAt := rfl
    simp only [LibaioRun.places, LibaioEngine.pendingIds, hdata, List.count_append,
      List.map_append, List.map_map, hids] at hcount ⊢
    omega
  · have hsum := h.issued_sum
    simp only [List.length_append, List.length_map]
    omega
  · simp only [LibaioEngine.pendingIds, hdata]
    rw [List.append_assoc, ← List.map_append, List.take_append_drop]
    exact h.in_order

/-- The engine answers a refused head itself. -/
theorem LibaioAccounting.refuse (h : LibaioAccounting depth s) {head : Nat} {rest : List Nat}
    (hpending : s.engine.pending = head :: rest) (error : Int) :
    LibaioAccounting depth
      { s with
        engine := s.engine.refuse head rest error
        issuedSum := s.issuedSum + 1 } := by
  have hdata : (s.engine.refuse head rest error).dataAt = s.engine.dataAt := rfl
  have hids : s.engine.pendingIds = s.engine.dataAt head :: rest.map s.engine.dataAt := by
    rw [LibaioEngine.pendingIds, hpending, List.map_cons]
  have hrest : (s.engine.refuse head rest error).pendingIds = rest.map s.engine.dataAt := rfl
  have hfailures : (s.engine.refuse head rest error).submitFailures =
      s.engine.submitFailures ++ [⟨s.engine.dataAt head, -error⟩] := rfl
  constructor
  · exact h.depth_eq
  · exact h.iocbs_length
  · apply List.perm_iff_count.2
    intro a
    have hcount := h.slots.count_eq a
    simp only [LibaioEngine.refuse, hpending, List.count_append, List.count_cons] at hcount ⊢
    omega
  · apply List.perm_iff_count.2
    intro a
    have hcount := h.ids.count_eq a
    simp only [LibaioRun.places, hids, hrest, hfailures, List.map_append, List.map_cons,
      List.map_nil, List.count_append, List.count_cons, List.count_nil] at hcount ⊢
    omega
  · have hsum := h.issued_sum
    simp only [hfailures, List.length_append, List.length_singleton]
    omega
  · have horder := h.in_order
    rw [hids] at horder
    simp only [hrest]
    exact ((List.sublist_cons_self _ _).append_left _).trans horder

/-- The answer defers what is offered: nothing is taken, or the errno says to try again. -/
def SubmitAnswer.defers : SubmitAnswer → Bool
  | .accepts n => n = 0
  | .fails errno => errno = 0 || submitCanDefer errno

/-- What one flush does from a state of the loop that has issued {lit}`n` reads. -/
structure Flushed (depth : Nat) (s : LibaioRun) (answers : Nat → SubmitAnswer) (n : Nat)
    (r : FlushResult) : Prop where
  code_eq : r.code = .success
  le : n ≤ r.outIssued
  accounting : LibaioAccounting depth
    { s with engine := r.engine, ctx := r.ctx, issuedSum := s.issuedSum + (r.outIssued - n) }
  pending_eq : r.engine.pending = s.engine.pending.drop (r.outIssued - n)
  progress : r.outDeferred = false → r.engine.pending = [] ∨ n < r.outIssued
  deferred : r.outDeferred = true → ∃ k, (answers k).defers = true

/-- What the kernel is offered when the queue is not empty. -/
theorem offered_ne_nil {e : LibaioEngine} {head : Nat} {rest : List Nat}
    (h : e.pending = head :: rest) : e.offered ≠ [] := by
  simp [LibaioEngine.offered, h, submitBatch]

/-- The prefix the kernel takes of an offer is a prefix of the queue. -/
theorem take_offered (e : LibaioEngine) (n : Nat) :
    e.offered.take n = (e.pending.take (e.offered.take n).length).map
      fun slot => ⟨slot, e.dataAt slot⟩ := by
  simp only [LibaioEngine.offered, ← List.map_take, List.take_take, List.length_map,
    List.length_take]
  congr 2
  omega

/--
The loop keeps the accounting and takes the reads it reports off the queue.  Every turn that
goes on takes a read, so a turn for each of them and a last one are enough.
-/
theorem flushLoop_spec (answers : Nat → SubmitAnswer) (fuel k : Nat) {n : Nat} {s : LibaioRun}
    (h : LibaioAccounting depth s) (hfuel : s.engine.pending.length < fuel)
    (hn : n + s.engine.pending.length < 2 ^ 32) :
    ∃ r, flushLoop answers fuel k n s.engine s.ctx = some r ∧
      Flushed depth s answers n r := by
  induction fuel generalizing k n s with
  | zero => omega
  | succ fuel ih =>
      rw [flushLoop]
      cases hpending : s.engine.pending with
      | nil =>
          refine ⟨_, rfl, rfl, le_refl _, ?_, ?_, fun _ => Or.inl hpending, by simp⟩
          · rw [Nat.sub_self, Nat.add_zero]
            exact h
          · rw [Nat.sub_self, List.drop_zero]
      | cons head rest =>
          have hlength : s.engine.pending.length = rest.length + 1 := by simp [hpending]
          cases hanswer : answers k with
          | fails errno =>
              have hsubmit : ioSubmit s.ctx s.engine.offered (.fails errno) =
                  (-(errno : Int), s.ctx) := rfl
              rw [hsubmit]
              dsimp only
              by_cases hneg : -(errno : Int) < 0
              · rw [if_pos hneg, Int.neg_neg]
                by_cases hdefer : submitCanDefer errno = true
                · rw [if_pos hdefer]
                  refine ⟨_, rfl, rfl, le_refl _, ?_, ?_, by simp, fun _ => ⟨k, ?_⟩⟩
                  · rw [Nat.sub_self, Nat.add_zero]
                    exact h
                  · rw [Nat.sub_self, List.drop_zero]
                  · simp [hanswer, SubmitAnswer.defers, hdefer]
                · have hone : wordAdd 32 n 1 = n + 1 := wordAdd_of_lt (by omega)
                  rw [if_neg hdefer, hone]
                  refine ⟨_, rfl, rfl, Nat.le_succ n, ?_, ?_, fun _ => Or.inr ?_, by simp⟩
                  · rw [show n + 1 - n = 1 by omega]
                    exact h.refuse hpending errno
                  · rw [show n + 1 - n = 1 by omega, hpending]
                    rfl
                  · exact Nat.lt_succ_self n
              · -- an errno of zero is no failure, and nothing was taken
                have hzero : errno = 0 := by omega
                subst hzero
                have hone : wordAdd 32 n 0 = n := wordAdd_of_lt (by omega)
                have hret : -((0 : Nat) : Int) = 0 := rfl
                rw [hret, if_neg (by decide), Int.toNat_zero, if_pos (Nat.zero_le _), hone,
                  if_pos rfl, List.drop_zero, ← hpending]
                refine ⟨_, rfl, rfl, le_refl _, ?_, ?_, by simp, fun _ => ⟨k, ?_⟩⟩
                · rw [Nat.sub_self, Nat.add_zero]
                  exact h
                · rw [Nat.sub_self, List.drop_zero]
                · simp [hanswer, SubmitAnswer.defers]
          | accepts m =>
              have htake := take_offered s.engine m
              generalize htaken : (s.engine.offered.take m).length = taken at htake
              have hle : taken ≤ s.engine.offered.length := by
                rw [← htaken, List.length_take]
                exact min_le_right _ _
              have hpos : 0 < s.engine.offered.length :=
                List.length_pos_of_ne_nil (offered_ne_nil hpending)
              have hbound : taken ≤ s.engine.pending.length := by
                refine le_trans hle ?_
                simp only [LibaioEngine.offered, List.length_map, List.length_take]
                exact min_le_right _ _
              have hnonneg : ¬ (taken : Int) < 0 := by omega
              have hone : wordAdd 32 n taken = n + taken := wordAdd_of_lt (by omega)
              have haccept := h.accept taken
              rw [← htake] at haccept
              have hmap : (s.engine.pending.take taken).map s.engine.dataAt =
                  (s.engine.offered.take m).map KernelRead.data := by
                rw [htake, List.map_map]
                rfl
              have hcount : (s.engine.pending.take taken).length = taken := by
                rw [List.length_take]
                omega
              rw [hmap, hcount] at haccept
              have hsubmit : ioSubmit s.ctx s.engine.offered (.accepts m) =
                  ((taken : Int),
                    { reads := s.ctx.reads ++ s.engine.offered.take m
                      accepted := s.ctx.accepted ++
                        (s.engine.offered.take m).map KernelRead.data }) := by
                rw [← htaken]
                rfl
              rw [hsubmit]
              dsimp only
              rw [if_neg hnonneg, Int.toNat_natCast, if_pos hle, hone]
              by_cases hzero : taken = 0
              · rw [if_pos hzero]
                refine ⟨_, rfl, rfl, Nat.le_add_right _ _, ?_, ?_, by simp, fun _ => ⟨k, ?_⟩⟩
                · rw [Nat.add_sub_cancel_left, ← hpending]
                  exact haccept
                · rw [Nat.add_sub_cancel_left, ← hpending]
                · rw [hanswer]
                  rw [hzero, List.length_take] at htaken
                  simp only [SubmitAnswer.defers, decide_eq_true_eq]
                  omega
              · rw [if_neg hzero]
                have hshort : (s.engine.pending.drop taken).length < fuel := by
                  rw [List.length_drop]
                  omega
                have hfits : n + taken + (s.engine.pending.drop taken).length < 2 ^ 32 := by
                  rw [List.length_drop]
                  omega
                obtain ⟨r, hr, hflushed⟩ := ih (k + 1) haccept hshort hfits
                have hge := hflushed.le
                refine ⟨r, ?_, hflushed.code_eq, by omega, ?_, ?_, ?_, hflushed.deferred⟩
                · rw [← hpending]
                  exact hr
                · have hacc := hflushed.accounting
                  simp only at hacc
                  rw [show s.issuedSum + (r.outIssued - n) =
                    s.issuedSum + taken + (r.outIssued - (n + taken)) by omega]
                  exact hacc
                · rw [hflushed.pending_eq]
                  simp only [List.drop_drop]
                  congr 1
                  omega
                · intro hfalse
                  cases hflushed.progress hfalse with
                  | inl hnil => exact Or.inl hnil
                  | inr hlt => exact Or.inr (by omega)

/-- A flush returns and keeps the accounting. -/
theorem flush_spec (h : LibaioAccounting depth s) (hdepth : depth < 2 ^ 32)
    (answers : Nat → SubmitAnswer) :
    ∃ r, s.engine.flush answers s.ctx = some r ∧ Flushed depth s answers 0 r := by
  have hslots := h.slots_length
  exact flushLoop_spec answers _ 0 h (Nat.lt_succ_self _) (by omega)

/-! ## Waiting -/

/-- The read behind an event. -/
def IoEvent.read (event : IoEvent) : KernelRead :=
  ⟨event.obj, event.data⟩

/-- The events are reads that leave the kernel. -/
theorem collectEvents_perm (picks : List (Nat × Int)) (reads : List KernelRead) :
    ((collectEvents picks reads).1.map IoEvent.read ++ (collectEvents picks reads).2).Perm
      reads := by
  induction picks generalizing reads with
  | nil => exact List.Perm.refl _
  | cons pick picks ih =>
      obtain ⟨slot, res⟩ := pick
      rw [collectEvents]
      cases hfind : reads.find? fun read => read.slot = slot with
      | none => exact ih reads
      | some read =>
          have hmem := List.mem_of_find?_eq_some hfind
          have hrest := (ih (reads.erase read)).cons read
          exact hrest.trans (List.perm_cons_erase hmem).symm

/-- A wait returns and keeps the accounting. -/
theorem wait_spec (h : LibaioAccounting depth s) (max : Nat) (block : Bool) (timeoutMs : Nat)
    (answer : GeteventsArgs → GeteventsAnswer) :
    ∃ r, s.engine.waitForCompletions max block timeoutMs answer s.ctx = some r ∧
      LibaioAccounting depth
        { s with
          engine := r.engine
          ctx := r.ctx
          delivered := s.delivered ++ r.completions } := by
  unfold LibaioEngine.waitForCompletions
  have hunchanged : LibaioAccounting depth { s with delivered := s.delivered ++ [] } := by
    rw [List.append_nil]
    exact h
  by_cases hmax : max = 0
  · rw [if_pos hmax]
    exact ⟨_, rfl, hunchanged⟩
  · rw [if_neg hmax]
    by_cases hfailures : s.engine.submitFailures ≠ []
    · rw [if_pos hfailures]
      generalize htaken : min max s.engine.submitFailures.length = taken
      refine ⟨_, rfl, h.depth_eq, h.iocbs_length, h.slots, ?_, ?_, h.in_order⟩
      · apply List.perm_iff_count.2
        intro a
        have hcount := h.ids.count_eq a
        have hsplit : (s.engine.submitFailures.map Completion.id).count a =
            ((s.engine.submitFailures.take taken).map Completion.id).count a +
              ((s.engine.submitFailures.drop taken).map Completion.id).count a := by
          rw [← List.count_append, ← List.map_append, List.take_append_drop]
        have hpending : LibaioEngine.pendingIds { s.engine with
            submitFailures := s.engine.submitFailures.drop taken } =
            s.engine.pendingIds := rfl
        simp only [LibaioRun.places, hpending, List.map_append, List.count_append]
          at hcount ⊢
        omega
      · have hsum := h.issued_sum
        simp only [List.length_append, List.length_take, List.length_drop]
        omega
    · rw [if_neg hfailures]
      dsimp only
      generalize waitArgs s.engine.depth max block timeoutMs = args
      cases answer args with
      | fails errno =>
          have hevents : ioGetevents s.ctx args (.fails errno) = (-(errno : Int), [], s.ctx) :=
            rfl
          rw [hevents]
          dsimp only
          by_cases hneg : -(errno : Int) < 0
          · rw [if_pos hneg]
            split
            · exact ⟨_, rfl, hunchanged⟩
            · exact ⟨_, rfl, hunchanged⟩
          · rw [if_neg hneg, if_pos (by simp)]
            exact ⟨_, rfl, hunchanged⟩
      | returns picks =>
          have hperm := collectEvents_perm (picks.take args.nr) s.ctx.reads
          have hevents : ioGetevents s.ctx args (.returns picks) =
              (((collectEvents (picks.take args.nr) s.ctx.reads).1.length : Int),
                (collectEvents (picks.take args.nr) s.ctx.reads).1,
                { s.ctx with reads := (collectEvents (picks.take args.nr) s.ctx.reads).2 }) :=
            rfl
          rw [hevents]
          dsimp only
          generalize collectEvents (picks.take args.nr) s.ctx.reads = collected at hperm ⊢
          obtain ⟨events, reads⟩ := collected
          dsimp only at hperm ⊢
          have hslot : events.map IoEvent.obj =
              (events.map IoEvent.read).map KernelRead.slot := by
            rw [List.map_map]
            rfl
          have hid : (events.map fun event => (⟨event.data, event.res⟩ : Completion)).map
              Completion.id = (events.map IoEvent.read).map KernelRead.data := by
            rw [List.map_map, List.map_map]
            rfl
          have hnonneg : ¬ (events.length : Int) < 0 := by omega
          have howned : ∀ event ∈ events, event.obj < s.engine.iocbs.length := by
            intro event hevent
            have hread : event.read ∈ s.ctx.reads :=
              hperm.mem_iff.1 (List.mem_append_left _ (List.mem_map_of_mem hevent))
            have hrange := h.slots.mem_iff.1
              (List.mem_append_right _ (List.mem_map_of_mem hread))
            rw [h.iocbs_length]
            exact List.mem_range.1 hrange
          rw [if_neg hnonneg, if_pos howned]
          refine ⟨_, rfl, h.depth_eq, h.iocbs_length, ?_, ?_, ?_, h.in_order⟩
          · apply List.perm_iff_count.2
            intro a
            have hcount := h.slots.count_eq a
            have hkernel := (hperm.map KernelRead.slot).count_eq a
            simp only [List.map_append, List.count_append] at hkernel
            simp only [List.count_append, List.count_reverse, hslot] at hcount ⊢
            omega
          · apply List.perm_iff_count.2
            intro a
            have hcount := h.ids.count_eq a
            have hkernel := (hperm.map KernelRead.data).count_eq a
            simp only [List.map_append, List.count_append] at hkernel
            have hpending : LibaioEngine.pendingIds { s.engine with
                free := (events.map IoEvent.obj).reverse ++ s.engine.free } =
                s.engine.pendingIds := rfl
            simp only [LibaioRun.places, hpending, List.map_append, hid, List.count_append]
              at hcount ⊢
            omega
          · have hsum := h.issued_sum
            have hlength := hperm.length_eq
            simp only [List.length_append, List.length_map] at hlength ⊢
            omega

/-! ## Runs -/

/-- Every call returns and keeps the accounting. -/
theorem LibaioAccounting.step (h : LibaioAccounting depth s) (hdepth : depth < 2 ^ 32)
    (call : LibaioCall) : ∃ s', libaioStep s call = some s' ∧ LibaioAccounting depth s' := by
  cases call with
  | stage id file offset bytesize buffer =>
      unfold libaioStep LibaioEngine.stage
      cases hfree : s.engine.free with
      | nil => exact ⟨_, rfl, h⟩
      | cons slot free =>
          exact ⟨_, rfl, h.stage hfree ⟨file.fd, buffer, bytesize, offset, id⟩⟩
  | flush answers =>
      obtain ⟨r, hr, hflushed⟩ := flush_spec h hdepth answers
      refine ⟨_, by rw [libaioStep, hr]; rfl, ?_⟩
      have haccounting := hflushed.accounting
      rwa [Nat.sub_zero] at haccounting
  | wait max block timeoutMs answer =>
      obtain ⟨r, hr, haccounting⟩ := wait_spec h max block timeoutMs answer
      exact ⟨_, by rw [libaioStep, hr]; rfl, haccounting⟩

/-- Every sequence of calls returns and keeps the accounting. -/
theorem LibaioAccounting.run (h : LibaioAccounting depth s) (hdepth : depth < 2 ^ 32)
    (calls : List LibaioCall) :
    ∃ s', Lib.run libaioStep s calls = some s' ∧ LibaioAccounting depth s' := by
  induction calls generalizing s with
  | nil => exact ⟨s, rfl, h⟩
  | cons call calls ih =>
      obtain ⟨s₁, hstep, h₁⟩ := h.step hdepth call
      obtain ⟨s', hrun, h'⟩ := ih h₁
      exact ⟨s', run_cons.2 ⟨s₁, hstep, hrun⟩, h'⟩

/-- A caller that stays inside the depth can stage. -/
theorem LibaioAccounting.stage_success (h : LibaioAccounting depth s)
    (hroom : s.staged.length < s.delivered.length + depth) (id : Nat) (file : FileRef)
    (offset bytesize : Nat) (buffer : BitVec 64) :
    (s.engine.stage id file offset bytesize buffer).1 = .success := by
  have hslots := h.slots_length
  have houtstanding := h.outstanding
  unfold LibaioEngine.stage
  cases hfree : s.engine.free with
  | nil =>
      rw [hfree, List.length_nil] at hslots
      omega
  | cons slot free => rfl

/--
The engine's accounting, for every sequence of calls and everything the kernel can do: all
calls return; every staged id is in one place or answered; reads are issued in order; the
iocbs add up; the issued counts run ahead of the completions by what is in the kernel or
refused; a flush takes what it counts off the head of the queue and makes progress unless the
kernel deferred it; and a caller inside the depth can stage.
-/
theorem libaio_accounting (depth : UInt32) (calls : List LibaioCall) :
    ∃ s, run libaioStep (LibaioRun.start depth) calls = some s ∧
      LibaioAccounting depth.toNat s ∧
      (s.staged.Nodup → s.places.Nodup) ∧
      (s.engine.free ++ s.engine.pending ++ s.ctx.reads.map KernelRead.slot).Nodup ∧
      s.engine.free.length + s.engine.pending.length + s.ctx.reads.length = depth.toNat ∧
      (∀ answers, ∃ r, s.engine.flush answers s.ctx = some r ∧
        r.engine.pending = s.engine.pending.drop r.outIssued ∧
        (r.outDeferred = false → r.engine.pending = [] ∨ 0 < r.outIssued) ∧
        (r.outDeferred = true → ∃ k, (answers k).defers = true)) ∧
      (s.staged.length < s.delivered.length + depth.toNat →
        ∀ id file offset bytesize buffer,
          (s.engine.stage id file offset bytesize buffer).1 = .success) := by
  have hdepth : depth.toNat < 2 ^ 32 := depth.toNat_lt
  obtain ⟨s, hrun, h⟩ := (libaioAccounting_start depth).run hdepth calls
  refine ⟨s, hrun, h, fun hnodup => h.ids.nodup_iff.2 hnodup, h.slots_nodup, h.slots_length,
    ?_, h.stage_success⟩
  intro answers
  obtain ⟨r, hr, hflushed⟩ := flush_spec h hdepth answers
  have hpending := hflushed.pending_eq
  rw [Nat.sub_zero] at hpending
  exact ⟨r, hr, hpending, hflushed.progress, hflushed.deferred⟩

/-- The head of two reads is refused and handed out, and the other read is in the kernel. -/
def refusedHeadCalls : List LibaioCall :=
  [.stage 7 ⟨3, false⟩ 0 4 0, .stage 8 ⟨3, false⟩ 4 4 4, .flush fun _ => .fails 22,
    .flush fun _ => .accepts 1, .wait 4 true 0 fun _ => .returns []]

theorem libaio_accounting_refusedHead :
    ∃ s, run libaioStep (LibaioRun.start 2) refusedHeadCalls = some s ∧ LibaioAccounting 2 s ∧
      s.staged = [7, 8] ∧ s.delivered = [⟨7, -22⟩] ∧ s.places.Nodup ∧
      (s.engine.stage 9 ⟨3, false⟩ 8 4 8).1 = .success := by
  obtain ⟨s, hrun, hbooks, hnodup, -, -, -, hroom⟩ := libaio_accounting 2 refusedHeadCalls
  have hends : ((run libaioStep (LibaioRun.start 2) refusedHeadCalls).map fun s =>
      (s.staged, s.delivered)) = some ([7, 8], [⟨7, -22⟩]) := by
    decide +kernel
  rw [hrun] at hends
  simp only [Option.map_some, Option.some.injEq, Prod.mk.injEq] at hends
  obtain ⟨hstaged, hdelivered⟩ := hends
  have hdistinct : s.staged.Nodup := by
    rw [hstaged]
    decide
  have hinside : s.staged.length < s.delivered.length + (2 : UInt32).toNat := by
    rw [hstaged, hdelivered]
    decide
  exact ⟨s, hrun, hbooks, hstaged, hdelivered, hnodup hdistinct, hroom hinside 9 _ 8 4 8⟩

end PosixIo
end ModelStreamer
