import ModelStreamer.DeviceIo.StagingRuns

/-!
# What a staging pool promises

Results about every run of a staging pool, for any number of threads.  A thread that sleeps in
{lit}`acquire` may find no buffer in flight any more, namely when a buffer came back and the
notification for it has not reached anyone who took it: this is the time in which another
thread is on its way.

Main results:

- Theorem {lit}`staging_contract`: where the buffers are, what memory they have, and what the
  calls return.
- Theorem {lit}`staging_sleeper_without_buffer`: a thread sleeps although no buffer is held, a
  late call returns no code, and a retire without a failure does not count.
-/

namespace ModelStreamer
namespace DeviceIo
namespace Staging

open Common
open Lib

/-! ## Statements -/

/-- The thread takes the lock in one of its calls next. -/
def StagingRun.Looks {ι : Type*} (s : StagingRun ι) (t : ι) (call : Acquire) : Prop :=
  s.place t = .looking call ∨
    (s.place t = .waiting ∧ t ∈ s.ready.woken ∧ call = .acquire)

/-- As many buffers as the pool may have exist, and all of them are retired. -/
def StagingRun.AllRetired {ι : Type*} (s : StagingRun ι) : Prop :=
  s.pool.buffers.length = s.pool.params.maxBuffers ∧
    s.retiredBuffers.length = s.pool.params.maxBuffers

/-- Only one thread takes buffers. -/
def OnlyConsumer {ι : Type*} (consumer : ι) (actions : List (StagingAction ι)) : Prop :=
  ∀ t call, StagingAction.call t call ∈ actions → t = consumer

/-- What a pool promises to the threads that use it. -/
structure StagingContract (ι : Type*) [DecidableEq ι] (pool : StagingPool) : Prop where
  /-- Every created buffer is in exactly one of the states free, held and retired. -/
  partition : ∀ actions s, run stagingStep (StagingRun.start ι pool) actions = some s →
    (s.pool.free ++ s.held.map StagingBuffer.index ++
        s.retiredBuffers.map StagingBuffer.index).Perm (List.range s.pool.buffers.length) ∧
      ∀ buffer, buffer ∈ s.held ∨ buffer ∈ s.retiredBuffers →
        s.pool.buffers[buffer.index]? = some buffer
  /-- Buffers are pairwise disjoint, aligned and inside their own slab. -/
  memory : ∀ actions s, run stagingStep (StagingRun.start ι pool) actions = some s →
    s.pool.buffers.Pairwise StagingBuffer.Apart ∧
      ∀ buffer ∈ s.pool.buffers, buffer.valid = true ∧
        buffer.bytesize = pool.params.bufferBytesize ∧ pool.params.alignment ∣ buffer.data ∧
        ∃ slab, s.pool.slabs[buffer.slab]? = some slab ∧ buffer.Inside slab ∧
          (s.destroyed = false → slab ∈ s.pinnedMemory)
  /-- No more buffers are created than the pool may have. -/
  ceiling : ∀ actions s, run stagingStep (StagingRun.start ι pool) actions = some s →
    s.pool.buffers.length ≤ pool.params.maxBuffers
  /-- A retired buffer is never handed out again and its slab is never freed. -/
  retired : ∀ actions s, run stagingStep (StagingRun.start ι pool) actions = some s →
    ∀ buffer ∈ s.retiredBuffers, ∀ later s', run stagingStep s later = some s' →
      buffer ∈ s'.retiredBuffers ∧
        (∃ returned, s'.answers = s.answers ++ returned ∧
          ∀ answer ∈ returned, answer.out ≠ buffer) ∧
        ∃ slab, s'.pool.slabs[buffer.slab]? = some slab ∧ slab ∈ s'.pinnedMemory
  /-- A thread goes to sleep only while a buffer is held. -/
  sleeps : ∀ actions s, run stagingStep (StagingRun.start ι pool) actions = some s →
    ∀ t s', stagingStep s (.look t) = some s' → s'.place t = .waiting → s.held ≠ []
  /-- While a thread sleeps a buffer is held, or someone is about to be woken or to look. -/
  waits : ∀ actions s, run stagingStep (StagingRun.start ι pool) actions = some s →
    s.ready.waiting ≠ [] → s.held ≠ [] ∨ 0 < s.ready.wakeups ∨ 0 < s.ready.alls
  /-- A call that looks at a pool of retired buffers returns the first failure. -/
  spent : ∀ actions s, run stagingStep (StagingRun.start ι pool) actions = some s →
    s.AllRetired → s.pool.stopped = false → s.destroyed = false →
    ∀ t call, s.Looks t call → ∃ s', stagingStep s (.look t) = some s' ∧
      s'.place t = .outside ∧ s'.answers = s.answers ++
        [{ thread := t, call, code := firstRetireCode s.retireCodes, out := {} }]
  /-- With one consumer an invalid buffer means that none can be had now. -/
  single : ∀ consumer actions s, OnlyConsumer consumer actions →
    run stagingStep (StagingRun.start ι pool) actions = some s →
    ∀ action s' answer, stagingStep s action = some s' →
      s'.answers = s.answers ++ [answer] →
      answer.code = .success → answer.out.valid = false →
      s'.pool.stopped = true ∨
        (s'.pool.buffers.length = pool.params.maxBuffers ∧ s'.pool.free = [])

/-! ## Buffers that do not come back -/

section Retired

variable {ι : Type*} {params : StagingParams} {s s' : StagingRun ι} {buffer : StagingBuffer}

/-- A held or retired buffer exists. -/
theorem StagingInv.mem_buffers (h : StagingInv params s)
    (hmem : buffer ∈ s.held ++ s.retiredBuffers) : buffer ∈ s.pool.buffers :=
  List.mem_of_getElem? (h.accounted.created buffer hmem)

/-- A buffer that exists has memory. -/
theorem StagingInv.valid (h : StagingInv params s) (hmem : buffer ∈ s.pool.buffers) :
    buffer.valid = true := by
  rcases h.cut.inside buffer hmem with ⟨slab, hslab, hge, -⟩
  have hpos := (h.cut.slabs_pos slab (List.mem_of_getElem? hslab)).1
  unfold StagingBuffer.valid
  rw [decide_eq_true_eq]
  omega

/-- A held buffer is not a retired one. -/
theorem StagingInv.held_ne (h : StagingInv params s) {out : StagingBuffer} (hout : out ∈ s.held)
    (hretired : buffer ∈ s.retiredBuffers) : out ≠ buffer := by
  rintro rfl
  have hnodup := h.accounted.partition.nodup_iff.2 List.nodup_range
  rw [List.map_append] at hnodup
  have hdisjoint := (List.nodup_append.1 (List.nodup_append.1 hnodup).2.1).2.2
  exact hdisjoint _ (List.mem_map_of_mem hout) _ (List.mem_map_of_mem hretired) rfl

/-- Two slabs at different places are different. -/
theorem Cut.slab_inj {pool : StagingPool} (h : Cut pool) {i j : Nat} {slab : Slab}
    (hi : pool.slabs[i]? = some slab) (hj : pool.slabs[j]? = some slab) : i = j := by
  rcases List.getElem?_eq_some_iff.1 hi with ⟨hilt, hi⟩
  rcases List.getElem?_eq_some_iff.1 hj with ⟨hjlt, hj⟩
  have hpos := (h.slabs_pos slab (hi ▸ List.getElem_mem hilt)).2
  have hapart := List.pairwise_iff_getElem.1 h.slabs_apart
  rcases Nat.lt_trichotomy i j with hlt | heq | hlt
  · exact absurd (hi.trans hj.symm) ((hapart i j hilt hjlt hlt).ne (hi ▸ hpos))
  · exact heq
  · exact absurd (hj.trans hi.symm) ((hapart j i hjlt hilt hlt).ne (hj ▸ hpos))

/-- The destructor does not free the slab of a retired buffer. -/
theorem StagingInv.slab_pinned (h : StagingInv params s)
    (hretired : buffer ∈ s.retiredBuffers) :
    ∃ slab, s.pool.slabs[buffer.slab]? = some slab ∧ slab ∈ s.pinnedMemory := by
  have hbuffer := h.mem_buffers (List.mem_append_right _ hretired)
  rcases h.cut.inside buffer hbuffer with ⟨slab, hslab, -⟩
  have hlive := h.owned.live slab (List.mem_of_getElem? hslab)
  refine ⟨slab, hslab, ?_⟩
  unfold StagingRun.pinnedMemory
  split
  · rw [List.mem_filter, decide_eq_true_eq]
    refine ⟨hlive, fun hfreed => ?_⟩
    rcases List.mem_map.1 hfreed with ⟨⟨freed, j⟩, hmem, rfl⟩
    rcases List.mem_filter.1 hmem with ⟨hmem, hkept⟩
    have hj := List.mem_zipIdx_iff_getElem?.1 hmem
    rw [decide_eq_true_eq, h.retires.leaked, ← h.cut.slab_inj hslab hj] at hkept
    exact hkept (List.mem_map_of_mem hretired)
  · exact hlive

/-- What a step adds to the history. -/
structure Follows (s s' : StagingRun ι) : Prop where
  retired : ∀ buffer ∈ s.retiredBuffers, buffer ∈ s'.retiredBuffers
  answers : ∃ returned, s'.answers = s.answers ++ returned ∧
    ∀ answer ∈ returned, answer.out.valid = true → answer.out ∈ s'.held

/-- A step that returns nothing. -/
theorem follows_of_eq (hretired : s'.retiredBuffers = s.retiredBuffers)
    (hanswers : s'.answers = s.answers) : Follows s s' := by
  refine ⟨fun _ hb => hretired ▸ hb, [], ?_, fun _ ha => absurd ha List.not_mem_nil⟩
  rw [hanswers, List.append_nil]

/-- A step from a state with the same history. -/
theorem Follows.after {s₁ : StagingRun ι} (h : Follows s₁ s')
    (hretired : s₁.retiredBuffers = s.retiredBuffers) (hanswers : s₁.answers = s.answers) :
    Follows s s' :=
  ⟨fun buffer hb => h.retired buffer (hretired ▸ hb), hanswers ▸ h.answers⟩

variable [DecidableEq ι] {t : ι} {call : Acquire}

theorem follows_refuse (code : ResponseCode) : Follows s (s.refuse t call code) := by
  refine ⟨fun _ hb => hb, _, rfl, fun answer ha hvalid => ?_⟩
  rw [List.mem_singleton.1 ha] at hvalid
  cases hvalid

theorem follows_give (pool : StagingPool) (out : StagingBuffer) :
    Follows s ({ s with pool }.give t call out) := by
  refine ⟨fun _ hb => hb, _, rfl, fun answer ha _ => ?_⟩
  rw [List.mem_singleton.1 ha]
  exact List.mem_cons_self

theorem follows_look : Follows s (s.look t call) := by
  unfold StagingRun.look
  split
  · exact follows_refuse _
  · exact follows_give _ _
  · exact follows_of_eq rfl rfl
  · exact follows_refuse _
  · exact follows_refuse _
  · split
    · exact follows_refuse _
    · exact follows_of_eq rfl rfl

theorem follows_handOver : Follows s (s.handOver t call) := by
  unfold StagingRun.handOver
  split
  · exact follows_give _ _
  · split
    · exact follows_refuse _
    · exact follows_of_eq rfl rfl

theorem follows_addSlab (slab : Slab) (perSlab : Nat) :
    Follows s ((s.publish slab perSlab).handOver t call) := by
  unfold StagingRun.publish
  split
  · exact follows_handOver.after rfl rfl
  · exact follows_handOver.after rfl rfl

/-- What every step adds to the history. -/
theorem follows_step {action : StagingAction ι} (hstep : stagingStep s action = some s') :
    Follows s s' := by
  unfold stagingStep at hstep
  split at hstep
  · cases hstep
  · cases action with
    | look t =>
        dsimp only at hstep
        split at hstep
        · cases hstep
          exact follows_look
        · rw [Option.ite_none_right_eq_some] at hstep
          cases hstep.2
          exact follows_look.after rfl rfl
        · cases hstep
    | hostAlloc t code base =>
        dsimp only at hstep
        split at hstep
        · split at hstep
          · cases hstep
            exact follows_refuse code
          · rw [Option.ite_none_right_eq_some] at hstep
            cases hstep.2
            exact follows_of_eq rfl rfl
        · cases hstep
    | addSlab t =>
        dsimp only at hstep
        split at hstep
        · cases hstep
          exact follows_addSlab _ _
        · cases hstep
    | retire buffer code =>
        rw [Option.ite_none_right_eq_some] at hstep
        cases hstep.2
        refine ⟨fun _ hb => List.mem_append_left _ hb, [], ?_, nofun⟩
        rw [List.append_nil]
        rfl
    | release buffer =>
        rw [Option.ite_none_right_eq_some] at hstep
        cases hstep.2
        unfold StagingRun.release
        split
        · exact follows_of_eq rfl rfl
        · exact follows_of_eq rfl rfl
    | call t call =>
        dsimp only at hstep
        split at hstep
        · cases hstep
          exact follows_of_eq rfl rfl
        · cases hstep
    | hostAllocThrows t =>
        dsimp only at hstep
        split at hstep
        · cases hstep
          exact follows_of_eq rfl rfl
        · cases hstep
    | stop =>
        cases hstep
        exact follows_of_eq rfl rfl
    | notifyOne t =>
        rcases Option.map_eq_some_iff.1 hstep with ⟨ready, -, rfl⟩
        exact follows_of_eq rfl rfl
    | notifyAll =>
        rcases Option.map_eq_some_iff.1 hstep with ⟨ready, -, rfl⟩
        exact follows_of_eq rfl rfl
    | spurious t =>
        rcases Option.map_eq_some_iff.1 hstep with ⟨ready, -, rfl⟩
        exact follows_of_eq rfl rfl
    | destroy =>
        cases hstep
        exact follows_of_eq rfl rfl

/-- From its retirement on, a buffer is never handed out again. -/
theorem StagingInv.never_again (h : StagingInv params s) (hvalid : params.Valid)
    (hretired : buffer ∈ s.retiredBuffers) {later : List (StagingAction ι)}
    (hrun : run stagingStep s later = some s') :
    StagingInv params s' ∧ buffer ∈ s'.retiredBuffers ∧
      ∃ returned, s'.answers = s.answers ++ returned ∧
        ∀ answer ∈ returned, answer.out ≠ buffer := by
  refine run_invariant (P := fun s' => StagingInv params s' ∧ buffer ∈ s'.retiredBuffers ∧
    ∃ returned, s'.answers = s.answers ++ returned ∧
      ∀ answer ∈ returned, answer.out ≠ buffer) ?_ ⟨h, hretired, [], ?_, nofun⟩ hrun
  · rintro s₁ action s₂ ⟨h₁, hretired₁, returned, hanswers, hne⟩ hstep
    have h₂ := h₁.step hvalid hstep
    have hfollows := follows_step hstep
    have hretired₂ := hfollows.retired buffer hretired₁
    rcases hfollows.answers with ⟨new, hnew, hheld⟩
    refine ⟨h₂, hretired₂, returned ++ new, ?_, fun answer ha => ?_⟩
    · rw [hnew, hanswers, List.append_assoc]
    · rcases List.mem_append.1 ha with ha | ha
      · exact hne answer ha
      · cases hout : answer.out.valid with
        | true => exact h₂.held_ne (hheld answer ha hout) hretired₂
        | false =>
            rintro rfl
            have hbuffer := h₂.valid (h₂.mem_buffers (List.mem_append_right _ hretired₂))
            rw [hout] at hbuffer
            cases hbuffer
  · rw [List.append_nil]

end Retired

/-! ## Calls that sleep and calls that find nothing -/

section Sleepers

variable {ι : Type*} {params : StagingParams} {s s' : StagingRun ι} {t : ι} {call : Acquire}

/-- While a thread sleeps a buffer is held, or someone is about to be woken or to look. -/
theorem StagingInv.sleeper (h : StagingInv params s) (hwaiting : s.ready.waiting ≠ []) :
    s.held ≠ [] ∨ 0 < s.ready.wakeups ∨ 0 < s.ready.alls := by
  rcases h.waits.told hwaiting with hall | ⟨-, hless⟩
  · exact Or.inr (Or.inr hall)
  · rcases h.waits.covered hwaiting with hall | hcovered
    · exact Or.inr (Or.inr hall)
    · have hlength := h.accounted.length_eq
      rw [h.retires.count] at hless
      cases hheld : s.held with
      | cons buffer held => exact Or.inl (List.cons_ne_nil _ _)
      | nil =>
          rw [hheld, List.length_nil] at hlength
          right
          left
          omega

/-- When all buffers are retired, a call that looks finds the code of the first failure. -/
theorem StagingInv.look_spent (h : StagingInv params s) (hvalid : params.Valid)
    (hall : s.AllRetired) (hstopped : s.pool.stopped = false) :
    s.pool.look = .spent (firstRetireCode s.retireCodes) := by
  have hmeans := h.accounted.look (h.params_eq ▸ hvalid) h.le_max
  have hlength := h.accounted.length_eq
  have hcount := h.retires.count
  rcases hall with ⟨hfull, hretired⟩
  cases hlook : s.pool.look with
  | stopped =>
      rw [hlook] at hmeans
      rw [show s.pool.stopped = true from hmeans] at hstopped
      cases hstopped
  | buffer out pool =>
      rw [hlook] at hmeans
      rcases hmeans with ⟨-, i, free, hfree, -⟩
      rw [hfree, List.length_cons] at hlength
      omega
  | room perSlab bytesize =>
      rw [hlook] at hmeans
      have hpos := hmeans.1.pos
      have hroom := hmeans.2
      omega
  | barren =>
      rw [hlook] at hmeans
      exact hmeans.elim
  | spent code =>
      rw [hlook] at hmeans
      rw [hmeans.2.2.2.2, h.retires.code]
  | inFlight =>
      rw [hlook] at hmeans
      have hless := hmeans.2.2.2
      omega

variable [DecidableEq ι]

@[simp]
theorem place_moveTo (p : Place) : (s.moveTo t p).place t = p :=
  Function.update_self ..

@[simp]
theorem place_refuse (code : ResponseCode) : (s.refuse t call code).place t = .outside :=
  Function.update_self ..

@[simp]
theorem place_give (out : StagingBuffer) : (s.give t call out).place t = .outside :=
  Function.update_self ..

/-- A look that ends in the wait found a buffer in flight. -/
theorem look_waiting (haccounted : Accounted s.pool s.held s.retiredBuffers)
    (hcount : s.pool.retired = s.retiredBuffers.length)
    (hmeans : s.pool.look.Means s.pool) (hwaiting : (s.look t call).place t = .waiting) :
    s.held ≠ [] := by
  have hlength := haccounted.length_eq
  unfold StagingRun.look at hwaiting
  cases hlook : s.pool.look with
  | inFlight =>
      rw [hlook] at hmeans
      rcases hmeans with ⟨-, hfree, -, hless⟩
      rintro hheld
      rw [hfree, hheld] at hlength
      simp only [List.length_nil] at hlength
      omega
  | _ =>
      rw [hlook] at hwaiting
      simp at hwaiting

/-- A thread goes to sleep only while a buffer is held. -/
theorem StagingInv.sleeps (h : StagingInv params s) (hvalid : params.Valid)
    (hstep : stagingStep s (.look t) = some s') (hwaiting : s'.place t = .waiting) :
    s.held ≠ [] := by
  have hmeans := h.accounted.look (h.params_eq ▸ hvalid) h.le_max
  unfold stagingStep at hstep
  split at hstep
  · cases hstep
  · dsimp only at hstep
    split at hstep
    · cases hstep
      exact look_waiting h.accounted h.retires.count hmeans hwaiting
    · rw [Option.ite_none_right_eq_some] at hstep
      cases hstep.2
      exact look_waiting (s := { s with ready := s.ready.resume t }) h.accounted
        h.retires.count hmeans hwaiting
    · cases hstep

/-- A thread that takes the lock looks at the pool. -/
theorem stagingStep_look (halive : s.destroyed = false) (hlooks : s.Looks t call) :
    ∃ ready, stagingStep s (.look t) = some ({ s with ready }.look t call) := by
  unfold stagingStep
  rw [if_neg (halive ▸ Bool.false_ne_true)]
  rcases hlooks with hplace | ⟨hplace, hwoken, rfl⟩
  · refine ⟨s.ready, ?_⟩
    simp only [hplace]
  · refine ⟨s.ready.resume t, ?_⟩
    simp only [hplace, if_pos hwoken]

/-- A call that looks at a pool of retired buffers returns the first failure. -/
theorem StagingInv.spent (h : StagingInv params s) (hvalid : params.Valid)
    (hall : s.AllRetired) (hstopped : s.pool.stopped = false) (halive : s.destroyed = false)
    (hlooks : s.Looks t call) :
    ∃ s', stagingStep s (.look t) = some s' ∧ s'.place t = .outside ∧ s'.answers = s.answers ++
      [{ thread := t, call, code := firstRetireCode s.retireCodes, out := {} }] := by
  rcases stagingStep_look halive hlooks with ⟨ready, hstep⟩
  refine ⟨_, hstep, ?_⟩
  unfold StagingRun.look
  simp only [h.look_spent hvalid hall hstopped]
  exact ⟨place_refuse _, rfl⟩

end Sleepers

/-! ## One consumer -/

section Single

variable {ι : Type*} {params : StagingParams} {s s' : StagingRun ι} {consumer t : ι}
  {call : Acquire}

/-- The buffers that a call has planned for. -/
def Place.plan? : Place → Option Nat
  | .pinning _ perSlab _ => some perSlab
  | .pinned _ perSlab _ => some perSlab
  | _ => none

/-- Only one thread takes buffers, and there is still room for what it planned. -/
structure SingleInv (consumer : ι) (s : StagingRun ι) : Prop where
  others : ∀ t, t ≠ consumer → s.place t = .outside
  room : ∀ perSlab ∈ (s.place consumer).plan?,
    1 ≤ perSlab ∧ s.pool.buffers.length + perSlab ≤ s.pool.params.maxBuffers

theorem SingleInv.thread_eq (h : SingleInv consumer s) (hplace : s.place t ≠ .outside) :
    t = consumer := by
  by_contra hne
  exact hplace (h.others t hne)

/-- A step that no call takes. -/
theorem SingleInv.of_eq (h : SingleInv consumer s) (hplace : s'.place = s.place)
    (hbuffers : s'.pool.buffers = s.pool.buffers) (hparams : s'.pool.params = s.pool.params) :
    SingleInv consumer s' := by
  constructor
  · rw [hplace]
    exact h.others
  · rw [hplace, hbuffers, hparams]
    exact h.room

/-- The consumer goes on to another place. -/
theorem SingleInv.move [DecidableEq ι] (h : SingleInv consumer s) {p : Place}
    (hplace : s'.place = Function.update s.place consumer p)
    (hroom : ∀ perSlab ∈ p.plan?,
      1 ≤ perSlab ∧ s'.pool.buffers.length + perSlab ≤ s'.pool.params.maxBuffers) :
    SingleInv consumer s' := by
  constructor
  · intro t ht
    rw [hplace, Function.update_of_ne ht]
    exact h.others t ht
  · rw [hplace, Function.update_self]
    exact hroom

variable [DecidableEq ι]

theorem SingleInv.look (h : SingleInv consumer s) (hmeans : s.pool.look.Means s.pool) :
    SingleInv consumer (s.look consumer call) := by
  unfold StagingRun.look
  cases hlook : s.pool.look with
  | room perSlab bytesize =>
      rw [hlook] at hmeans
      refine h.move rfl fun n hn => ?_
      rw [← Option.some.inj hn]
      exact ⟨hmeans.1.pos, hmeans.2⟩
  | inFlight =>
      cases call with
      | tryAcquire => exact h.move rfl nofun
      | acquire => exact h.move rfl nofun
  | _ => exact h.move rfl nofun

theorem SingleInv.addSlab (h : SingleInv consumer s) {slab : Slab} {perSlab : Nat} :
    SingleInv consumer ((s.publish slab perSlab).handOver consumer call) := by
  have hover : ∀ s₁ : StagingRun ι, s₁.place = s.place →
      SingleInv consumer (s₁.handOver consumer call) := by
    intro s₁ hplace
    unfold StagingRun.handOver
    split
    · exact h.move (congrArg (Function.update · consumer _) hplace) nofun
    · split
      · exact h.move (congrArg (Function.update · consumer _) hplace) nofun
      · exact h.move (congrArg (Function.update · consumer _) hplace) nofun
  unfold StagingRun.publish
  split
  · exact hover _ rfl
  · exact hover _ rfl

/-- Every step of a run with one consumer keeps that. -/
theorem SingleInv.step (h : SingleInv consumer s) (hinv : StagingInv params s)
    (hvalid : params.Valid) {action : StagingAction ι}
    (honly : ∀ t call, action = .call t call → t = consumer)
    (hstep : stagingStep s action = some s') : SingleInv consumer s' := by
  have hmeans := hinv.accounted.look (hinv.params_eq ▸ hvalid) hinv.le_max
  unfold stagingStep at hstep
  split at hstep
  · cases hstep
  · cases action with
    | call t call =>
        have ht := honly t call rfl
        subst ht
        dsimp only at hstep
        split at hstep
        · cases hstep
          exact h.move rfl nofun
        · cases hstep
    | look t =>
        dsimp only at hstep
        split at hstep
        · rename_i call hplace
          have ht := h.thread_eq (t := t) (by rw [hplace]; exact nofun)
          subst ht
          cases hstep
          exact h.look hmeans
        · rename_i hplace
          have ht := h.thread_eq (t := t) (by rw [hplace]; exact nofun)
          subst ht
          rw [Option.ite_none_right_eq_some] at hstep
          cases hstep.2
          exact SingleInv.look (s := { s with ready := s.ready.resume t })
            (h.of_eq rfl rfl rfl) hmeans
        · cases hstep
    | hostAlloc t code base =>
        dsimp only at hstep
        split at hstep
        · rename_i call perSlab bytesize hplace
          have ht := h.thread_eq (t := t) (by rw [hplace]; exact nofun)
          subst ht
          have hroom := h.room
          rw [hplace] at hroom
          split at hstep
          · cases hstep
            exact h.move rfl nofun
          · rw [Option.ite_none_right_eq_some] at hstep
            cases hstep.2
            exact h.move rfl hroom
        · cases hstep
    | hostAllocThrows t =>
        dsimp only at hstep
        split at hstep
        · rename_i call perSlab bytesize hplace
          have ht := h.thread_eq (t := t) (by rw [hplace]; exact nofun)
          subst ht
          cases hstep
          exact h.move rfl nofun
        · cases hstep
    | addSlab t =>
        dsimp only at hstep
        split at hstep
        · rename_i call perSlab slab hplace
          have ht := h.thread_eq (t := t) (by rw [hplace]; exact nofun)
          subst ht
          cases hstep
          exact h.addSlab
        · cases hstep
    | release buffer =>
        rw [Option.ite_none_right_eq_some] at hstep
        cases hstep.2
        unfold StagingRun.release
        rw [hinv.accounted.release_eq hstep.1]
        exact h.of_eq rfl rfl rfl
    | retire buffer code =>
        rw [Option.ite_none_right_eq_some] at hstep
        cases hstep.2
        exact h.of_eq rfl rfl rfl
    | stop =>
        cases hstep
        exact h.of_eq rfl rfl rfl
    | notifyOne t =>
        rcases Option.map_eq_some_iff.1 hstep with ⟨ready, -, rfl⟩
        exact h.of_eq rfl rfl rfl
    | notifyAll =>
        rcases Option.map_eq_some_iff.1 hstep with ⟨ready, -, rfl⟩
        exact h.of_eq rfl rfl rfl
    | spurious t =>
        rcases Option.map_eq_some_iff.1 hstep with ⟨ready, -, rfl⟩
        exact h.of_eq rfl rfl rfl
    | destroy =>
        cases hstep
        exact h.of_eq rfl rfl rfl

/-- What holds at every point of a run with one consumer. -/
theorem singleInv_run (hvalid : params.Valid) {actions : List (StagingAction ι)}
    (honly : OnlyConsumer consumer actions)
    (hrun : run stagingStep (StagingRun.start ι { params }) actions = some s) :
    StagingInv params s ∧ SingleInv consumer s := by
  refine run_invariant_of (P := fun s => StagingInv params s ∧ SingleInv consumer s)
    (C := fun _ action => ∀ t call, action = .call t call → t = consumer) ?_
    ⟨stagingInv_start ι params, fun _ _ => rfl, nofun⟩ (eachStep_of_forall ?_) hrun
  · rintro s₁ action s₂ ⟨hinv, hsingle⟩ honly hstep
    exact ⟨hinv.step hvalid hstep, hsingle.step hinv hvalid honly hstep⟩
  · rintro action hmem t call rfl
    exact honly t call hmem

/-- A call that returned a buffer returned a valid one. -/
theorem give_valid {out : StagingBuffer} {answer : Answer ι}
    (hinv : StagingInv params (s.give t call out))
    (hanswer : (s.give t call out).answers = s.answers ++ [answer]) :
    answer.out.valid = true := by
  have heq := List.append_cancel_left hanswer
  rw [← List.head_eq_of_cons_eq heq]
  exact hinv.valid (hinv.mem_buffers List.mem_cons_self)

/-- No call can have a buffer now: the pool was stopped, or is full and has none free. -/
def NoneNow (pool : StagingPool) : Prop :=
  pool.stopped = true ∨ (pool.buffers.length = pool.params.maxBuffers ∧ pool.free = [])

/-- A look that returns an invalid buffer and no failure. -/
theorem look_invalid {answer : Answer ι} (hmeans : s.pool.look.Means s.pool)
    (hinv : StagingInv params (s.look t call))
    (hanswer : (s.look t call).answers = s.answers ++ [answer])
    (hinvalid : answer.out.valid = false) : NoneNow (s.look t call).pool := by
  unfold StagingRun.look at hinv hanswer ⊢
  cases hlook : s.pool.look with
  | stopped =>
      rw [hlook] at hmeans
      exact Or.inl hmeans
  | buffer out pool =>
      rw [hlook] at hinv hanswer
      have hvalid := give_valid (s := { s with pool }) hinv hanswer
      rw [hinvalid] at hvalid
      cases hvalid
  | room perSlab bytesize =>
      rw [hlook] at hanswer
      exact absurd hanswer (by simp [StagingRun.moveTo])
  | barren =>
      rw [hlook] at hmeans
      exact hmeans.elim
  | spent code =>
      rw [hlook] at hmeans
      exact Or.inr ⟨hmeans.2.2.1, hmeans.2.1⟩
  | inFlight =>
      rw [hlook] at hmeans
      cases call with
      | tryAcquire => exact Or.inr ⟨hmeans.2.2.1, hmeans.2.1⟩
      | acquire => exact Or.inr ⟨hmeans.2.2.1, hmeans.2.1⟩

/-- The only consumer always gets a buffer out of its slab. -/
theorem SingleInv.handOut (h : SingleInv consumer s) (hinv : StagingInv params s)
    (hvalid : params.Valid) {perSlab : Nat} {slab : Slab}
    (hplace : s.place consumer = .pinned call perSlab slab) :
    ∃ (s₁ : StagingRun ι) (out : StagingBuffer),
      (s.publish slab perSlab).handOver consumer call = s₁.give consumer call out ∧
      s₁.answers = s.answers := by
  have hroom := h.room perSlab (by rw [hplace]; rfl)
  have hmax : s.pool.params.maxBuffers < 2 ^ 32 := by
    rw [hinv.params_eq]
    exact hvalid.max_lt
  unfold StagingRun.publish
  cases hadd : s.pool.addSlab slab perSlab with
  | none =>
      simp only [StagingPool.addSlab, if_pos hroom.2, reduceCtorEq] at hadd
  | some pool =>
      have haccounted := hinv.accounted.addSlab hmax hadd
      have hfree : pool.free ≠ [] := by
        simp only [StagingPool.addSlab, if_pos hroom.2, Option.some.injEq] at hadd
        rw [← hadd]
        apply List.append_ne_nil_of_right_ne_nil
        apply List.ne_nil_of_length_pos
        rw [List.length_map, StagingPool.length_cut]
        exact hroom.1
      rcases List.exists_cons_of_ne_nil hfree with ⟨i, free, hfree⟩
      rcases haccounted.handOut_cons hfree with ⟨out, -, hhand⟩
      refine ⟨{ s with pool := { pool with free } }, out, ?_, rfl⟩
      unfold StagingRun.handOver
      simp only [hhand]

/-- With one consumer an invalid buffer means that none can be had now. -/
theorem SingleInv.invalid (h : SingleInv consumer s) (hinv : StagingInv params s)
    (hvalid : params.Valid) {action : StagingAction ι} {answer : Answer ι}
    (hstep : stagingStep s action = some s') (hanswer : s'.answers = s.answers ++ [answer])
    (hcode : answer.code = .success) (hinvalid : answer.out.valid = false) :
    NoneNow s'.pool := by
  have hinv' := hinv.step hvalid hstep
  have hmeans := hinv.accounted.look (hinv.params_eq ▸ hvalid) hinv.le_max
  have hnone : s'.answers = s.answers → NoneNow s'.pool := by
    intro heq
    rw [hanswer] at heq
    exact absurd heq (by simp)
  unfold stagingStep at hstep
  split at hstep
  · cases hstep
  · cases action with
    | look t =>
        dsimp only at hstep
        split at hstep
        · cases hstep
          exact look_invalid hmeans hinv' hanswer hinvalid
        · rw [Option.ite_none_right_eq_some] at hstep
          cases hstep.2
          exact look_invalid (s := { s with ready := s.ready.resume t }) hmeans hinv' hanswer
            hinvalid
        · cases hstep
    | hostAlloc t code base =>
        dsimp only at hstep
        split at hstep
        · split at hstep
          · rename_i hfailed
            cases hstep
            rw [← List.head_eq_of_cons_eq (List.append_cancel_left hanswer)] at hcode
            exact absurd hcode hfailed
          · rw [Option.ite_none_right_eq_some] at hstep
            cases hstep.2
            exact hnone rfl
        · cases hstep
    | addSlab t =>
        dsimp only at hstep
        split at hstep
        · rename_i call perSlab slab hplace
          have ht := h.thread_eq (t := t) (by rw [hplace]; exact nofun)
          subst ht
          cases hstep
          rcases h.handOut hinv hvalid hplace with ⟨s₁, out, heq, hhistory⟩
          rw [heq] at hinv' hanswer
          rw [← hhistory] at hanswer
          rw [give_valid hinv' hanswer] at hinvalid
          cases hinvalid
        · cases hstep
    | call t call =>
        dsimp only at hstep
        split at hstep
        · cases hstep
          exact hnone rfl
        · cases hstep
    | hostAllocThrows t =>
        dsimp only at hstep
        split at hstep
        · cases hstep
          exact hnone rfl
        · cases hstep
    | release buffer =>
        rw [Option.ite_none_right_eq_some] at hstep
        cases hstep.2
        apply hnone
        unfold StagingRun.release
        split
        · rfl
        · rfl
    | retire buffer code =>
        rw [Option.ite_none_right_eq_some] at hstep
        cases hstep.2
        exact hnone rfl
    | stop =>
        cases hstep
        exact hnone rfl
    | notifyOne t =>
        rcases Option.map_eq_some_iff.1 hstep with ⟨ready, -, rfl⟩
        exact hnone rfl
    | notifyAll =>
        rcases Option.map_eq_some_iff.1 hstep with ⟨ready, -, rfl⟩
        exact hnone rfl
    | spurious t =>
        rcases Option.map_eq_some_iff.1 hstep with ⟨ready, -, rfl⟩
        exact hnone rfl
    | destroy =>
        cases hstep
        exact hnone rfl

end Single

/-! ## The contract -/

/-- A pool that is made with parameters that fit keeps its promises. -/
theorem staging_contract {ι : Type*} [DecidableEq ι] {params : StagingParams}
    (hvalid : params.Valid) :
    ∃ pool, StagingPool.make params = .ok pool ∧ pool.params = params ∧
      StagingContract ι pool := by
  refine ⟨{ params }, StagingPool.make_of_valid hvalid, rfl, ?_⟩
  constructor
  case partition =>
    intro actions s hrun
    have h := stagingInv_run hvalid hrun
    refine ⟨?_, fun buffer hb => h.accounted.created buffer (List.mem_append.2 hb)⟩
    rw [List.append_assoc, ← List.map_append]
    exact h.accounted.partition
  case memory =>
    intro actions s hrun
    have h := stagingInv_run hvalid hrun
    refine ⟨h.cut.apart, fun buffer hb => ?_⟩
    rcases h.cut.sizes buffer hb with ⟨hsize, haligned⟩
    rcases h.cut.inside buffer hb with ⟨slab, hslab, hinside⟩
    rw [h.params_eq] at hsize haligned
    refine ⟨h.valid hb, hsize, haligned, slab, hslab, hinside, fun halive => ?_⟩
    unfold StagingRun.pinnedMemory
    rw [if_neg (halive ▸ Bool.false_ne_true)]
    exact h.owned.live slab (List.mem_of_getElem? hslab)
  case ceiling =>
    intro actions s hrun
    have h := stagingInv_run hvalid hrun
    exact h.params_eq ▸ h.le_max
  case retired =>
    intro actions s hrun buffer hretired later s' hlater
    have h := stagingInv_run hvalid hrun
    rcases h.never_again hvalid hretired hlater with ⟨h', hretired', hanswers⟩
    exact ⟨hretired', hanswers, h'.slab_pinned hretired'⟩
  case sleeps =>
    intro actions s hrun t s' hstep hwaiting
    exact (stagingInv_run hvalid hrun).sleeps hvalid hstep hwaiting
  case waits =>
    intro actions s hrun hwaiting
    exact (stagingInv_run hvalid hrun).sleeper hwaiting
  case spent =>
    intro actions s hrun hall hstopped halive t call hlooks
    exact (stagingInv_run hvalid hrun).spent hvalid hall hstopped halive hlooks
  case single =>
    intro consumer actions s honly hrun action s' answer hstep hanswer hcode hinvalid
    rcases singleInv_run hvalid honly hrun with ⟨hinv, hsingle⟩
    have hparams := (hinv.step hvalid hstep).params_eq
    rcases hsingle.invalid hinv hvalid hstep hanswer hcode hinvalid with hstopped | hfull
    · exact Or.inl hstopped
    · rw [hparams] at hfull
      exact Or.inr hfull

/-- A pool of {lit}`n` blocks of 512 bytes. -/
def blockParams (n : Nat) : StagingParams :=
  { bufferBytesize := 512, slabBytesize := 512, maxBuffers := n, alignment := 512 }

theorem blockParams_valid {n : Nat} (hpos : 1 ≤ n) (hlt : n < 2 ^ 32) : (blockParams n).Valid := by
  refine ⟨?_, ⟨9, rfl⟩, Nat.dvd_refl 512, hpos, hlt, ?_, ?_⟩
  · change 1 ≤ 512
    omega
  · change 512 < 2 ^ 64
    omega
  · change n * 512 + 512 < 2 ^ 64
    omega

/-- The contract of a pool of one block. -/
theorem staging_contract_block : (blockParams 1).Valid ∧
    ∃ pool, StagingPool.make (blockParams 1) = .ok pool ∧ pool.params = blockParams 1 ∧
      StagingContract Nat pool := by
  have hvalid : (blockParams 1).Valid := blockParams_valid (by omega) (by omega)
  exact ⟨hvalid, staging_contract hvalid⟩

/-- The call of a thread that pins memory at an address. -/
def pinsAt (t base : Nat) : List (StagingAction Nat) :=
  [.call t .tryAcquire, .look t, .hostAlloc t .success base, .addSlab t]

/-- Two threads sleep; the only buffer comes back, and one of them is woken. -/
def sleeperActions : List (StagingAction Nat) :=
  pinsAt 0 512 ++
    [.call 1 .acquire, .look 1, .call 2 .acquire, .look 2,
      .release { data := 512, bytesize := 512, index := 0, slab := 0 }, .notifyOne (some 1)]

/-- Two threads plan for the same room; the buffer of the first is retired before the second
has its memory. -/
def lateActions : List (StagingAction Nat) :=
  [.call 0 .tryAcquire, .look 0, .call 1 .tryAcquire, .look 1, .hostAlloc 0 .success 512,
    .addSlab 0, .retire { data := 512, bytesize := 512, index := 0, slab := 0 } .deviceDriverError,
    .hostAlloc 1 .success 4096, .addSlab 1]

/-- Two buffers are retired, the first one without a failure. -/
def silentActions : List (StagingAction Nat) :=
  pinsAt 0 512 ++ pinsAt 1 4096 ++
    [.retire { data := 512, bytesize := 512, index := 0, slab := 0 } .success,
      .retire { data := 4096, bytesize := 512, index := 1, slab := 1 } .deviceDriverError,
      .call 2 .tryAcquire, .look 2]

/-- Where a run ends. -/
structure Outcome where
  stopped : Bool
  waiting : List Nat
  held : List StagingBuffer
  retired : Nat
  codes : List ResponseCode
  answer : Option (Answer Nat)
deriving DecidableEq, Repr

/-- The end of a run of a pool of blocks. -/
def outcome (n : Nat) (actions : List (StagingAction Nat)) : Option Outcome :=
  (run stagingStep (StagingRun.start Nat { params := blockParams n }) actions).map fun s =>
    { stopped := s.pool.stopped
      waiting := s.ready.waiting
      held := s.held
      retired := s.retiredBuffers.length
      codes := s.retireCodes
      answer := s.answers.getLast? }

/--
A thread sleeps in {lit}`acquire` although no buffer is held; a call returns no code although all
buffers are retired; and the first code is not returned when it names no failure.
-/
theorem staging_sleeper_without_buffer :
    (∃ answer, outcome 1 sleeperActions = some ⟨false, [2], [], 0, [], answer⟩) ∧
      (∃ answer,
        outcome 1 lateActions = some ⟨false, [], [], 1, [.deviceDriverError], some answer⟩ ∧
        answer.call = .tryAcquire ∧ answer.code = .success ∧ answer.out.valid = false) ∧
      ∃ answer,
        outcome 2 silentActions =
          some ⟨false, [], [], 2, [.success, .deviceDriverError], some answer⟩ ∧
        answer.code ≠ .success := by
  refine ⟨⟨some ⟨0, .tryAcquire, .success, ⟨512, 512, 0, 0⟩⟩, ?_⟩,
    ⟨⟨1, .tryAcquire, .success, {}⟩, ?_, rfl, rfl, rfl⟩,
    ⟨2, .tryAcquire, .deviceDriverError, {}⟩, ?_, nofun⟩
  · decide +kernel
  · decide +kernel
  · decide +kernel

end Staging
end DeviceIo
end ModelStreamer
