import Mathlib.Algebra.Order.Ring.Nat
import ModelStreamer.Common.SharedQueue
import ModelStreamer.Lib.Run

/-!
# The responder queue, lock by lock

{lit}`push` queues a response under the lock and posts the semaphore after it; {lit}`stop` sets
its flag under the lock and posts after it; {lit}`pop` reads the flag, waits for the semaphore
and then takes a response under the lock.  Here every one of these is a step of its own, so
other threads can come in between.

Main results:

- Theorem {lit}`queueInv_run`: the queue is as long as the posts that are due for it, at every
  point of every run.
- Theorem {lit}`handOut_all`: a consumer that keeps popping is handed everything.
-/

namespace ModelStreamer
namespace Common

open Lib

/-! ## The steps -/

/-- {lit}`SEM_VALUE_MAX`: one more post fails. -/
def semValueMax : Nat := 2 ^ 31 - 1

/-- Where the consumer is in its call of {lit}`pop`. -/
inductive Consumer where
  | idle
  /-- In {lit}`wait`, or in {lit}`wait_for` when the wait is timed. -/
  | waiting (timed : Bool)
  /-- It took a post and has not got the lock yet. -/
  | woken
deriving DecidableEq, Repr

/-- A persistent queue in use. -/
structure QueueRun (α : Type*) where
  queue : SharedQueue α
  /-- The value of the semaphore. -/
  ready : Nat
  /-- The pushes that queued a response and have not posted yet. -/
  posts : Nat
  /-- {lit}`stop` set its flag and has not posted yet. -/
  stopPost : Bool
  consumer : Consumer
  /-- An assertion fired. -/
  asserted : Bool
  /-- History: the increments, the pushes, and what pops returned. -/
  incremented : Nat
  pushed : List α
  returned : List (SharedQueue.Popped α)
deriving DecidableEq, Repr

/-- A persistent queue that was just made. -/
def QueueRun.start (α : Type*) : QueueRun α :=
  { queue := SharedQueue.make 0 .persistent
    ready := 0, posts := 0, stopPost := false, consumer := .idle, asserted := false
    incremented := 0, pushed := [], returned := [] }

/-- One step of a thread. -/
inductive QueueAction (α : Type*) where
  | increment (running : Nat)
  /-- The locked part of {lit}`push`. -/
  | push (response : α)
  /-- The post of a push. -/
  | pushPost
  /-- The locked part of {lit}`stop`. -/
  | stop
  /-- The post of {lit}`stop`. -/
  | stopPost
  /-- The consumer calls {lit}`pop`. -/
  | pop (timeoutMs : Nat)
  /-- The consumer takes a post. -/
  | wake
  /-- The consumer's time is up. -/
  | timeout
  /-- The consumer takes a response under the lock. -/
  | take
deriving DecidableEq, Repr

variable {α : Type*}

/-- {lit}`Semaphore::post`, which asserts that the value can go up. -/
def QueueRun.post (s : QueueRun α) : QueueRun α :=
  if s.ready < semValueMax then { s with ready := s.ready + 1 } else { s with asserted := true }

/--
A step.  Pushes do not exceed increments, and the responses that are expected stay below
{lit}`2 ^ 32`; a step that would break this, or that no thread is about to take, is none.
-/
def queueStep (ret : α → ResponseCode) (s : QueueRun α) : QueueAction α → Option (QueueRun α)
  | .increment running =>
      if s.incremented - s.pushed.length + running < 2 ^ 32 then
        some { s with
          queue := s.queue.increment running
          incremented := s.incremented + running }
      else
        none
  | .push response =>
      if s.pushed.length < s.incremented then
        some { s with
          queue := s.queue.push ret response
          posts := if ¬ s.queue.stopped ∧ 0 < s.queue.running then s.posts + 1 else s.posts
          pushed := s.pushed ++ [response] }
      else
        none
  | .pushPost => if 0 < s.posts then some { s.post with posts := s.posts - 1 } else none
  | .stop =>
      some { s with
        queue := s.queue.stop
        stopPost := s.stopPost || !s.queue.stopped }
  | .stopPost => if s.stopPost then some { s.post with stopPost := false } else none
  | .pop timeoutMs =>
      match s.consumer with
      | .idle =>
          if s.queue.stopped then
            some { s with returned := s.returned ++ [.sentinel .finishedError] }
          else
            some { s with consumer := .waiting (timeoutMs ≠ 0) }
      | _ => none
  | .wake =>
      match s.consumer with
      | .waiting _ =>
          if 0 < s.ready then some { s with ready := s.ready - 1, consumer := .woken } else none
      | _ => none
  | .timeout =>
      match s.consumer with
      | .waiting true =>
          some { s with consumer := .idle, returned := s.returned ++ [.sentinel .timedOut] }
      | _ => none
  | .take =>
      match s.consumer with
      | .woken =>
          if s.queue.stopped then
            some { s with
              consumer := .idle
              returned := s.returned ++ [.sentinel .finishedError] }
          else
            match s.queue.responses with
            | [] => some { s with consumer := .idle, asserted := true }
            | response :: responses =>
                some { s with
                  queue := { s.queue with responses }
                  consumer := .idle
                  returned := s.returned ++ [.response response] }
      | _ => none

/-! ## The invariant -/

/-- The responses that pops returned. -/
def QueueRun.handedOut (s : QueueRun α) : List α :=
  s.returned.filterMap fun
    | .response a => some a
    | .sentinel _ => none

/-- The posts that are in the semaphore, due, or just taken. -/
def QueueRun.tokens (s : QueueRun α) : Nat :=
  s.ready + s.posts + (if s.consumer = .woken then 1 else 0)

/-- The condition on a step: a post finds room in the semaphore. -/
def PostFits (s : QueueRun α) : QueueAction α → Prop
  | .pushPost => s.ready < semValueMax
  | .stopPost => s.ready < semValueMax
  | _ => True

/-- What holds at every point between two steps. -/
structure QueueInv (s : QueueRun α) : Prop where
  none_asserted : s.asserted = false
  mode : s.queue.mode = .persistent
  /-- While the queue runs, a post is due for every queued response and for nothing else. -/
  tokens : s.queue.stopped = false →
    s.tokens = s.queue.responses.length ∧ s.stopPost = false
  running : s.queue.stopped = false →
    s.queue.running = s.incremented - s.pushed.length ∧ s.queue.running < 2 ^ 32
  pushed_le : s.pushed.length ≤ s.incremented
  /-- What was handed out and what is queued are what was pushed, in order. -/
  pushed : ∃ ignored, s.pushed = s.handedOut ++ s.queue.responses ++ ignored ∧
    (s.queue.stopped = false → ignored = [])
  expected : s.queue.unexpectedPushError = false
  /-- A pop that waits when the queue was stopped has a post to take. -/
  wakes : s.queue.stopped = true → (∃ timed, s.consumer = .waiting timed) →
    0 < s.ready ∨ 0 < s.posts ∨ s.stopPost = true

theorem queueInv_start (α : Type*) : QueueInv (QueueRun.start α) := by
  refine ⟨rfl, rfl, fun _ => ⟨rfl, rfl⟩, fun _ => ⟨rfl, Nat.two_pow_pos 32⟩, Nat.le_refl 0,
    ⟨[], rfl, fun _ => rfl⟩, rfl, ?_⟩
  rintro - ⟨timed, h⟩
  cases h

section Steps

variable {ret : α → ResponseCode} {s s' : QueueRun α}

/-- More responses are expected. -/
theorem QueueInv.increment (h : QueueInv s) {running : Nat}
    (hstep : queueStep ret s (.increment running) = some s') : QueueInv s' := by
  obtain ⟨hasserted, hmode, htokens, hrunning, hle, ⟨ignored, hpushed, hignored⟩, hexpected,
    hwakes⟩ := h
  simp only [queueStep] at hstep
  split at hstep
  · rename_i hlt
    cases hstep
    refine ⟨hasserted, hmode, htokens, fun hstopped => ?_, ?_, ⟨ignored, hpushed, hignored⟩,
      hexpected, hwakes⟩
    · obtain ⟨heq, -⟩ := hrunning hstopped
      have hsum : wordAdd 32 s.queue.running running = s.queue.running + running :=
        wordAdd_of_lt (by omega)
      simp only [SharedQueue.increment, hsum]
      omega
    · simp only
      omega
  · cases hstep

/-- A response is queued, or ignored when the queue is stopped. -/
theorem QueueInv.push (h : QueueInv s) {response : α}
    (hstep : queueStep ret s (.push response) = some s') : QueueInv s' := by
  obtain ⟨hasserted, hmode, htokens, hrunning, hle, ⟨ignored, hpushed, hignored⟩, hexpected,
    hwakes⟩ := h
  simp only [queueStep] at hstep
  split at hstep
  · rename_i hlt
    cases hstep
    cases hstopped : s.queue.stopped with
    | true =>
        have hsame : s.queue.push ret response = s.queue := by
          simp [SharedQueue.push, hstopped]
        simp only [hsame, not_true_eq_false, false_and, if_false]
        refine ⟨hasserted, hmode, fun hrun => ?_, fun hrun => ?_, ?_,
          ⟨ignored ++ [response], ?_, fun hrun => ?_⟩, hexpected, hwakes⟩
        · simp [hstopped] at hrun
        · simp [hstopped] at hrun
        · simp only [List.length_append, List.length_singleton]
          omega
        · simp only [hpushed, List.append_assoc]
          rfl
        · simp [hstopped] at hrun
    | false =>
        obtain ⟨heq, hbound⟩ := hrunning hstopped
        obtain ⟨hlength, hstop⟩ := htokens hstopped
        have hpos : 0 < s.queue.running := by omega
        have hnil := hignored hstopped
        subst hnil
        rw [SharedQueue.push_of_running response hstopped hpos]
        simp only [hpos, Bool.false_eq_true, not_false_eq_true, true_and, if_true]
        refine ⟨hasserted, hmode, fun _ => ⟨?_, hstop⟩, fun _ => ⟨?_, ?_⟩, ?_,
          ⟨[], ?_, fun _ => rfl⟩, hexpected, fun hrun => ?_⟩
        · simp only [QueueRun.tokens, List.length_append, List.length_singleton] at hlength ⊢
          omega
        · simp only [List.length_append, List.length_singleton]
          omega
        · simp only
          omega
        · simp only [List.length_append, List.length_singleton]
          omega
        · simp only [hpushed, List.append_nil, List.append_assoc]
          rfl
        · simp [hstopped] at hrun
  · cases hstep

/-- The post of a push is in the semaphore. -/
theorem QueueInv.pushPost (h : QueueInv s) (hfits : s.ready < semValueMax)
    (hstep : queueStep ret s .pushPost = some s') : QueueInv s' := by
  obtain ⟨hasserted, hmode, htokens, hrunning, hle, ⟨ignored, hpushed, hignored⟩, hexpected,
    hwakes⟩ := h
  simp only [queueStep, QueueRun.post, if_pos hfits] at hstep
  split at hstep
  · rename_i hpos
    cases hstep
    refine ⟨hasserted, hmode, fun hstopped => ?_, hrunning, hle,
      ⟨ignored, hpushed, hignored⟩, hexpected, fun _ _ => Or.inl (Nat.succ_pos _)⟩
    obtain ⟨hlength, hstop⟩ := htokens hstopped
    refine ⟨?_, hstop⟩
    simp only [QueueRun.tokens] at hlength ⊢
    omega
  · cases hstep

/-- The queue is stopped, and a post is due for a pop that waits. -/
theorem QueueInv.stop (h : QueueInv s)
    (hstep : queueStep ret s .stop = some s') : QueueInv s' := by
  obtain ⟨hasserted, hmode, htokens, hrunning, hle, ⟨ignored, hpushed, hignored⟩, hexpected,
    hwakes⟩ := h
  simp only [queueStep] at hstep
  cases hstep
  refine ⟨hasserted, hmode, fun hrun => ?_, fun hrun => ?_, hle, ⟨ignored, hpushed, ?_⟩,
    hexpected, fun _ hwaiting => ?_⟩
  · cases hrun
  · cases hrun
  · intro hrun
    cases hrun
  · cases hstopped : s.queue.stopped with
    | true =>
        rcases hwakes hstopped hwaiting with hready | hposts | hpost
        · exact Or.inl hready
        · exact Or.inr (Or.inl hposts)
        · exact Or.inr (Or.inr (by simp [hpost]))
    | false => exact Or.inr (Or.inr (by simp))

/-- The post of the stop is in the semaphore. -/
theorem QueueInv.stopPost (h : QueueInv s) (hfits : s.ready < semValueMax)
    (hstep : queueStep ret s .stopPost = some s') : QueueInv s' := by
  obtain ⟨hasserted, hmode, htokens, hrunning, hle, ⟨ignored, hpushed, hignored⟩, hexpected,
    hwakes⟩ := h
  simp only [queueStep, QueueRun.post, if_pos hfits] at hstep
  split at hstep
  · rename_i hpost
    cases hstep
    refine ⟨hasserted, hmode, fun hstopped => ?_, hrunning, hle,
      ⟨ignored, hpushed, hignored⟩, hexpected, fun _ _ => Or.inl (Nat.succ_pos _)⟩
    obtain ⟨-, hstop⟩ := htokens hstopped
    rw [hstop] at hpost
    cases hpost
  · cases hstep

/-- A pop begins. -/
theorem QueueInv.pop (h : QueueInv s) {timeoutMs : Nat}
    (hstep : queueStep ret s (.pop timeoutMs) = some s') : QueueInv s' := by
  obtain ⟨hasserted, hmode, htokens, hrunning, hle, ⟨ignored, hpushed, hignored⟩, hexpected,
    hwakes⟩ := h
  simp only [queueStep] at hstep
  split at hstep
  · rename_i hidle
    split at hstep
    · cases hstep
      refine ⟨hasserted, hmode, htokens, hrunning, hle, ⟨ignored, ?_, hignored⟩, hexpected,
        hwakes⟩
      simpa [QueueRun.handedOut] using hpushed
    · rename_i hstopped
      cases hstep
      refine ⟨hasserted, hmode, fun hrun => ?_, hrunning, hle,
        ⟨ignored, hpushed, hignored⟩, hexpected, fun hrun => absurd hrun hstopped⟩
      obtain ⟨hlength, hstop⟩ := htokens hrun
      refine ⟨?_, hstop⟩
      simpa [QueueRun.tokens, hidle] using hlength
  · cases hstep

/-- A pop takes a post. -/
theorem QueueInv.wake (h : QueueInv s)
    (hstep : queueStep ret s .wake = some s') : QueueInv s' := by
  obtain ⟨hasserted, hmode, htokens, hrunning, hle, ⟨ignored, hpushed, hignored⟩, hexpected,
    hwakes⟩ := h
  simp only [queueStep] at hstep
  split at hstep
  · rename_i timed hwaiting
    split at hstep
    · rename_i hready
      cases hstep
      refine ⟨hasserted, hmode, fun hrun => ?_, hrunning, hle,
        ⟨ignored, hpushed, hignored⟩, hexpected, ?_⟩
      · obtain ⟨hlength, hstop⟩ := htokens hrun
        refine ⟨?_, hstop⟩
        simp only [QueueRun.tokens, hwaiting, reduceCtorEq, if_false, if_true] at hlength ⊢
        omega
      · rintro - ⟨timed', hcontra⟩
        cases hcontra
    · cases hstep
  · cases hstep

/-- A pop gives up. -/
theorem QueueInv.timeout (h : QueueInv s)
    (hstep : queueStep ret s .timeout = some s') : QueueInv s' := by
  obtain ⟨hasserted, hmode, htokens, hrunning, hle, ⟨ignored, hpushed, hignored⟩, hexpected,
    hwakes⟩ := h
  simp only [queueStep] at hstep
  split at hstep
  · rename_i hwaiting
    cases hstep
    refine ⟨hasserted, hmode, fun hrun => ?_, hrunning, hle, ⟨ignored, ?_, hignored⟩,
      hexpected, ?_⟩
    · obtain ⟨hlength, hstop⟩ := htokens hrun
      refine ⟨?_, hstop⟩
      simpa [QueueRun.tokens, hwaiting] using hlength
    · simpa [QueueRun.handedOut] using hpushed
    · rintro - ⟨timed', hcontra⟩
      cases hcontra
  · cases hstep

/-- A pop that has a post takes what is queued. -/
theorem QueueInv.take (h : QueueInv s)
    (hstep : queueStep ret s .take = some s') : QueueInv s' := by
  obtain ⟨hasserted, hmode, htokens, hrunning, hle, ⟨ignored, hpushed, hignored⟩, hexpected,
    hwakes⟩ := h
  simp only [queueStep] at hstep
  split at hstep
  · rename_i hwoken
    split at hstep
    · rename_i hstopped
      cases hstep
      refine ⟨hasserted, hmode, fun hrun => ?_, hrunning, hle, ⟨ignored, ?_, hignored⟩,
        hexpected, ?_⟩
      · exact absurd hstopped (by simpa using hrun)
      · simpa [QueueRun.handedOut] using hpushed
      · rintro - ⟨timed', hcontra⟩
        cases hcontra
    · rename_i hstopped
      rw [Bool.not_eq_true] at hstopped
      obtain ⟨hlength, hstop⟩ := htokens hstopped
      simp only [QueueRun.tokens, hwoken, if_true] at hlength
      split at hstep
      · rename_i hempty
        rw [hempty, List.length_nil] at hlength
        omega
      · rename_i response responses hcons
        cases hstep
        rw [hcons, List.length_cons] at hlength
        refine ⟨hasserted, hmode, fun _ => ⟨?_, hstop⟩, hrunning, hle,
          ⟨ignored, ?_, hignored⟩, hexpected, ?_⟩
        · simp only [QueueRun.tokens, reduceCtorEq, if_false]
          omega
        · rw [hpushed, hcons]
          simp [QueueRun.handedOut]
        · rintro - ⟨timed', hcontra⟩
          cases hcontra
  · cases hstep

/-- A step keeps the invariant if its post fits. -/
theorem QueueInv.step (h : QueueInv s) {action : QueueAction α} (hfits : PostFits s action)
    (hstep : queueStep ret s action = some s') : QueueInv s' := by
  cases action with
  | increment running => exact h.increment hstep
  | push response => exact h.push hstep
  | pushPost => exact h.pushPost hfits hstep
  | stop => exact h.stop hstep
  | stopPost => exact h.stopPost hfits hstep
  | pop timeoutMs => exact h.pop hstep
  | wake => exact h.wake hstep
  | timeout => exact h.timeout hstep
  | take => exact h.take hstep

/-- Every run whose posts fit keeps the invariant. -/
theorem queueInv_run {actions : List (QueueAction α)}
    (hall : EachStep (queueStep ret) PostFits (QueueRun.start α) actions)
    (hrun : run (queueStep ret) (QueueRun.start α) actions = some s) : QueueInv s :=
  run_invariant_of (fun _ _ _ h hfits hstep => h.step hfits hstep) (queueInv_start α) hall hrun

/-! ## What a pop can do -/

/-- Once all posts are done, a pop of a queue with responses returns the first of them. -/
theorem QueueInv.pop_response (h : QueueInv s) (hstopped : s.queue.stopped = false)
    (hposts : s.posts = 0) (hidle : s.consumer = .idle) {response : α} {responses : List α}
    (hcons : s.queue.responses = response :: responses) (timeoutMs : Nat) :
    ∃ s', run (queueStep ret) s [.pop timeoutMs, .wake, .take] = some s' ∧
      s'.queue.responses = responses ∧ s'.queue.stopped = false ∧ s'.posts = 0 ∧
      s'.consumer = .idle ∧ s'.pushed = s.pushed ∧
      s'.handedOut = s.handedOut ++ [response] := by
  obtain ⟨hlength, -⟩ := h.tokens hstopped
  have hready : 0 < s.ready := by
    simp only [QueueRun.tokens, hidle, hposts, hcons, reduceCtorEq, if_false,
      List.length_cons] at hlength
    omega
  refine ⟨{ s with
    queue := { s.queue with responses }
    ready := s.ready - 1
    consumer := .idle
    returned := s.returned ++ [.response response] }, ?_, rfl, hstopped, hposts, rfl, rfl, ?_⟩
  · simp [run, queueStep, hidle, hstopped, hready, hcons]
  · simp [QueueRun.handedOut]

/-- A consumer that keeps popping is handed everything that was pushed. -/
theorem handOut_all (h : QueueInv s) (hstopped : s.queue.stopped = false)
    (hposts : s.posts = 0) (hidle : s.consumer = .idle) (timeoutMs : Nat) :
    ∃ s', run (queueStep ret) s
        (List.replicate s.queue.responses.length
          [QueueAction.pop timeoutMs, .wake, .take]).flatten = some s' ∧
      s'.handedOut = s.pushed := by
  induction hresponses : s.queue.responses generalizing s with
  | nil =>
      obtain ⟨ignored, hpushed, hignored⟩ := h.pushed
      refine ⟨s, rfl, ?_⟩
      rw [hpushed, hresponses, hignored hstopped, List.append_nil, List.append_nil]
  | cons response responses ih =>
      obtain ⟨s₁, hrun, hrest, hstopped₁, hposts₁, hidle₁, hpushed₁, -⟩ :=
        @QueueInv.pop_response _ ret _ h hstopped hposts hidle _ _ hresponses timeoutMs
      have hall : EachStep (queueStep ret) PostFits s
          [.pop timeoutMs, .wake, .take] :=
        ⟨trivial, fun _ _ => ⟨trivial, fun _ _ => ⟨trivial, fun _ _ => trivial⟩⟩⟩
      have h₁ : QueueInv s₁ :=
        run_invariant_of (fun _ _ _ h hfits hstep => h.step hfits hstep) h hall hrun
      obtain ⟨s', hrun', hall'⟩ := ih h₁ hstopped₁ hposts₁ hidle₁ hrest
      refine ⟨s', ?_, hall'.trans hpushed₁⟩
      rw [List.length_cons, List.replicate_succ, List.flatten_cons]
      exact run_append.2 ⟨s₁, hrun, hrun'⟩

/-- A pop that blocks on an empty semaphore with no post due was handed everything. -/
theorem QueueInv.handedOut_of_blocked (h : QueueInv s) (hstopped : s.queue.stopped = false)
    (hwaiting : ∃ timed, s.consumer = .waiting timed) (hready : s.ready = 0)
    (hposts : s.posts = 0) : s.handedOut = s.pushed := by
  obtain ⟨timed, hconsumer⟩ := hwaiting
  obtain ⟨hlength, -⟩ := h.tokens hstopped
  obtain ⟨ignored, hpushed, hignored⟩ := h.pushed
  have hempty : s.queue.responses = [] := by
    apply List.eq_nil_of_length_eq_zero
    simp only [QueueRun.tokens, hconsumer, hready, hposts, reduceCtorEq, if_false] at hlength
    omega
  rw [hpushed, hempty, hignored hstopped, List.append_nil, List.append_nil]

/-- Once woken, a pop of a stopped queue reports the end. -/
theorem run_wake_take (hstopped : s.queue.stopped = true)
    (hwaiting : ∃ timed, s.consumer = .waiting timed) (hready : 0 < s.ready) :
    ∃ s', run (queueStep ret) s [.wake, .take] = some s' ∧ s'.consumer = .idle ∧
      s'.returned = s.returned ++ [.sentinel .finishedError] := by
  obtain ⟨timed, hconsumer⟩ := hwaiting
  simp [run, queueStep, hconsumer, hready, hstopped]

/--
A pop that is blocked when the queue is stopped ends: the semaphore lets it go, at the latest
after a post that is due.
-/
theorem QueueInv.wakes_of_stopped (h : QueueInv s) (hstopped : s.queue.stopped = true)
    (hwaiting : ∃ timed, s.consumer = .waiting timed) :
    ∃ due, (∀ action ∈ due, action = .pushPost ∨ action = .stopPost) ∧
      ∃ s', run (queueStep ret) s (due ++ [.wake, .take]) = some s' ∧ s'.consumer = .idle ∧
        s'.returned = s.returned ++ [.sentinel .finishedError] := by
  by_cases hready : 0 < s.ready
  · refine ⟨[], by simp, ?_⟩
    rw [List.nil_append]
    exact run_wake_take hstopped hwaiting hready
  · -- the semaphore is empty, so the next post fits
    have hfits : s.ready < semValueMax := by
      have hmax : semValueMax = 2 ^ 31 - 1 := rfl
      omega
    rcases h.wakes hstopped hwaiting with hsome | hposts | hpost
    · exact absurd hsome hready
    · refine ⟨[.pushPost], by simp, ?_⟩
      obtain ⟨s', hrun, hidle, hreturned⟩ := @run_wake_take _ ret
        { s with ready := s.ready + 1, posts := s.posts - 1 } hstopped hwaiting
        (Nat.succ_pos _)
      refine ⟨s', run_append.2 ⟨_, ?_, hrun⟩, hidle, hreturned⟩
      simp [run, queueStep, QueueRun.post, hfits, hposts]
    · refine ⟨[.stopPost], by simp, ?_⟩
      obtain ⟨s', hrun, hidle, hreturned⟩ := @run_wake_take _ ret
        { s with ready := s.ready + 1, stopPost := false } hstopped hwaiting
        (Nat.succ_pos _)
      refine ⟨s', run_append.2 ⟨_, ?_, hrun⟩, hidle, hreturned⟩
      simp [run, queueStep, QueueRun.post, hfits, hpost]

/-- A pop that starts after the stop reports the end at once. -/
theorem pop_of_stopped (hstopped : s.queue.stopped = true) {timeoutMs : Nat}
    (hstep : queueStep ret s (.pop timeoutMs) = some s') :
    s' = { s with returned := s.returned ++ [.sentinel .finishedError] } := by
  simp only [queueStep] at hstep
  split at hstep
  · rw [if_pos hstopped] at hstep
    exact (Option.some.inj hstep).symm
  · cases hstep

/-- A pop that timed out took nothing. -/
theorem timeout_keeps (hstep : queueStep ret s .timeout = some s') :
    s' = { s with
      consumer := .idle
      returned := s.returned ++ [.sentinel .timedOut] } := by
  simp only [queueStep] at hstep
  split at hstep
  · exact (Option.some.inj hstep).symm
  · cases hstep

end Steps

end Common
end ModelStreamer
