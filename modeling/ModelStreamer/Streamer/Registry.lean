import ModelStreamer.Common.SharedQueueSteps
import ModelStreamer.Lib.IdRing
import ModelStreamer.Streamer.Accounting

/-!
# The registry of submissions

Any thread can mint an id, register a submission under a minted id, or account for a response
that a submission still owes.  {lit}`generate` skips the ids that are registered; an id that
was minted and not registered yet is not among them.

Main results:

- Theorem {lit}`registry_run_inv`: as long as no id is minted again before it is registered,
  the registry never asserts and holds exactly the submissions that owe responses.
- Theorem {lit}`registry_and_responder`: this, with the guarantees of the responder.
- Theorem {lit}`registry_wraps`: a run that registers an id twice.
-/

namespace ModelStreamer
namespace Streamer

open Common Lib

/-! ## The steps -/

/-- The number of the ids; zero is none. -/
def idCount : Nat := 2 ^ 64 - 1

/-- A registered submission: the responses it owes in all, and those accounted for. -/
structure Registered where
  expected : Nat
  consumed : Nat
deriving DecidableEq, Repr

/-- A registry in use. -/
structure RegistryRun where
  registry : SubmissionsMgr
  /-- History: the ids that were minted and not registered yet. -/
  pending : List Nat
  /-- History: the live submissions. -/
  live : AList fun _ : Nat => Registered
  /-- An assertion fired. -/
  asserted : Bool
deriving DecidableEq

/-- An empty registry with the counter at any value. -/
def RegistryRun.start (nextId : Nat) : RegistryRun :=
  { registry := { nextId, submissions := ∅ }, pending := [], live := ∅, asserted := false }

/-- One call of the registry. -/
inductive RegistryAction where
  | generate
  | add (submissionId expected : Nat)
  | consume (submissionId : Nat)
deriving DecidableEq, Repr

/-- History: a submission after one more of its responses. -/
def afterConsume (live : AList fun _ : Nat => Registered) (submissionId : Nat)
    (sub : Registered) : AList fun _ : Nat => Registered :=
  if sub.consumed + 1 = sub.expected then live.erase submissionId
  else live.insert submissionId { sub with consumed := sub.consumed + 1 }

/--
A call.  Ids are minted while fewer than all are taken, an id that was minted is registered
once, and a submission is consumed while it owes a response.
-/
def registryStep (s : RegistryRun) : RegistryAction → Option RegistryRun
  | .generate =>
      if s.live.keys.length + s.pending.length < idCount then
        s.registry.generate.map fun (id, registry) =>
          { s with registry, pending := id :: s.pending }
      else
        none
  | .add submissionId expected =>
      if submissionId ∈ s.pending ∧ expected < 2 ^ 32 then
        match s.registry.add submissionId expected with
        | .error _ =>
            some { s with pending := s.pending.erase submissionId, asserted := true }
        | .ok registry =>
            some { s with
              registry
              pending := s.pending.erase submissionId
              live := s.live.insert submissionId ⟨expected, 0⟩ }
      else
        none
  | .consume submissionId =>
      match s.live.lookup submissionId with
      | none => none
      | some sub =>
          if sub.consumed < sub.expected then
            match s.registry.consume submissionId with
            | .error _ =>
                some { s with
                  live := afterConsume s.live submissionId sub
                  asserted := true }
            | .ok (_, registry) =>
                some { s with
                  registry
                  live := afterConsume s.live submissionId sub }
          else
            none

/-! ## What is minted -/

namespace SubmissionsMgr

/-- The counter itself, or one when it wrapped to zero. -/
theorem firstId_eq {counter : Nat} (h : counter < 2 ^ 64) :
    (if counter = 0 then wordAdd 64 counter 1 else counter) = ringAt idCount counter 0 := by
  have hcount : idCount + 1 = 2 ^ 64 := rfl
  split
  · rename_i hzero
    rw [hzero]
    decide
  · rename_i hzero
    rw [ringAt_zero (by omega) (by omega)]

/-- The loop goes on from the next place of the ring. -/
theorem ringAt_next {counter k : Nat} :
    ringAt idCount (wordAdd 64 (ringAt idCount counter 0) 1) k =
      ringAt idCount counter (k + 1) := by
  have hpos : 0 < idCount := by decide
  have hcount : idCount + 1 = 2 ^ 64 := rfl
  have hlt : (counter - 1) % idCount < idCount := Nat.mod_lt _ hpos
  have hsplit : (counter - 1 + (k + 1)) % idCount =
      ((counter - 1) % idCount + (k + 1)) % idCount := (Nat.mod_add_mod _ _ _).symm
  simp only [ringAt, Nat.add_zero, hsplit]
  by_cases hlast : (counter - 1) % idCount + 1 = idCount
  · -- the counter wraps to zero, which stands for one
    have hwrap : wordAdd 64 ((counter - 1) % idCount + 1) 1 = 0 := by
      rw [hlast]
      decide
    rw [hwrap, show (counter - 1) % idCount + (k + 1) = k + idCount by omega,
      Nat.add_mod_right, Nat.zero_sub, Nat.zero_add]
  · rw [wordAdd_of_lt (by omega), Nat.add_sub_cancel,
      show (counter - 1) % idCount + 1 + k = (counter - 1) % idCount + (k + 1) by omega]

/-- The loop ends at the first id that is not registered. -/
theorem generateFrom_firstFree {m : SubmissionsMgr} {fuel counter k : Nat}
    (hcounter : counter < 2 ^ 64) (hk : k < fuel)
    (hfirst : FirstFree idCount counter (· ∈ m.submissions) k) :
    m.generateFrom fuel counter =
      some (ringAt idCount counter k, wordAdd 64 (ringAt idCount counter k) 1) := by
  induction fuel generalizing counter k with
  | zero => omega
  | succ fuel ih =>
      simp only [generateFrom, firstId_eq hcounter]
      cases k with
      | zero => rw [if_neg hfirst.1]
      | succ k =>
          have hnext : wordAdd 64 (ringAt idCount counter 0) 1 < 2 ^ 64 :=
            Nat.mod_lt _ (Nat.two_pow_pos 64)
          have hrest : FirstFree idCount (wordAdd 64 (ringAt idCount counter 0) 1)
              (· ∈ m.submissions) k := by
            refine ⟨?_, fun i hi => ?_⟩
            · simpa only [ringAt_next] using hfirst.1
            · simpa only [ringAt_next] using hfirst.2 (i + 1) (by omega)
          rw [if_pos (hfirst.2 0 (Nat.succ_pos k)), ih hnext (by omega) hrest, ringAt_next]

/-- {lit}`generate` mints the first id from the counter on that is not registered. -/
theorem generate_eq {m : SubmissionsMgr} {k : Nat} (hcounter : m.nextId < 2 ^ 64)
    (hk : k < idCount) (hfirst : FirstFree idCount m.nextId (· ∈ m.submissions) k) :
    m.generate = some (ringAt idCount m.nextId k,
      { m with nextId := wordAdd 64 (ringAt idCount m.nextId k) 1 }) := by
  have hfuel : k < 2 ^ 64 := hk.trans (by decide)
  rw [generate, generateFrom_firstFree hcounter hfuel hfirst]
  rfl

/-- A registry that does not hold all ids mints one. -/
theorem exists_generate {m : SubmissionsMgr} (hroom : m.submissions.keys.length < idCount) :
    ∃ k < idCount, FirstFree idCount m.nextId (· ∈ m.submissions) k :=
  exists_firstFree hroom m.nextId

/-- An id that is not registered is registered. -/
theorem add_eq {m : SubmissionsMgr} {id : Nat} (hfresh : id ∉ m.submissions)
    (expected : Nat) :
    m.add id expected = .ok { m with submissions := m.submissions.insert id expected } :=
  if_neg hfresh

/-- A submission is erased with its last response. -/
theorem consume_eq {m : SubmissionsMgr} {id remaining : Nat}
    (hlookup : m.submissions.lookup id = some remaining) (hpos : 0 < remaining)
    (hlt : remaining < 2 ^ 32) :
    m.consume id =
      if remaining = 1 then .ok (true, { m with submissions := m.submissions.erase id })
      else .ok (false, { m with submissions := m.submissions.insert id (remaining - 1) }) := by
  have hsub : wordSub 32 remaining 1 = remaining - 1 := wordSub_of_le hpos hlt
  simp only [consume, hlookup, hsub]
  by_cases hone : remaining = 1
  · rw [if_pos hone, if_pos (by omega)]
  · rw [if_neg hone, if_neg (by omega)]

end SubmissionsMgr

/-! ## The invariant -/

/-- The condition on a call: the id that is minted is not one that waits to be registered. -/
def MintsFresh (s : RegistryRun) : RegistryAction → Prop
  | .generate =>
      ∀ k, FirstFree idCount s.registry.nextId (· ∈ s.registry.submissions) k →
        ringAt idCount s.registry.nextId k ∉ s.pending
  | _ => True

/-- What holds between two calls. -/
structure RegistryInv (s : RegistryRun) : Prop where
  none_asserted : s.asserted = false
  counter : s.registry.nextId < 2 ^ 64
  pending_pos : ∀ id ∈ s.pending, 0 < id
  pending_nodup : s.pending.Nodup
  pending_fresh : ∀ id ∈ s.pending, id ∉ s.registry.submissions
  /-- A submission is registered while it is live, with what it still owes. -/
  remaining : ∀ id, s.registry.submissions.lookup id =
    (s.live.lookup id).map fun sub => sub.expected - sub.consumed
  bounds : ∀ id sub, s.live.lookup id = some sub →
    sub.consumed ≤ sub.expected ∧ sub.expected < 2 ^ 32

theorem registryInv_start {nextId : Nat} (h : nextId < 2 ^ 64) :
    RegistryInv (RegistryRun.start nextId) := by
  constructor
  · rfl
  · exact h
  · simp [RegistryRun.start]
  · simp [RegistryRun.start]
  · simp [RegistryRun.start]
  · simp [RegistryRun.start]
  · simp [RegistryRun.start]

section Steps

variable {s s' : RegistryRun}

theorem RegistryInv.mem_live (h : RegistryInv s) {id : Nat} :
    id ∈ s.registry.submissions ↔ id ∈ s.live := by
  rw [← AList.lookup_isSome, ← AList.lookup_isSome, h.remaining, Option.isSome_map]

theorem RegistryInv.keys_length_le (h : RegistryInv s) :
    s.registry.submissions.keys.length ≤ s.live.keys.length := by
  apply List.Subperm.length_le
  apply List.subperm_of_subset s.registry.submissions.keys_nodup
  intro id hid
  rw [← AList.mem_keys] at hid ⊢
  exact h.mem_live.1 hid

/-- While ids are left one is minted, the first that is not registered. -/
theorem RegistryInv.generate (h : RegistryInv s)
    (hroom : s.live.keys.length + s.pending.length < idCount) :
    ∃ k, FirstFree idCount s.registry.nextId (· ∈ s.registry.submissions) k ∧
      s.registry.generate = some (ringAt idCount s.registry.nextId k,
        { s.registry with
          nextId := wordAdd 64 (ringAt idCount s.registry.nextId k) 1 }) := by
  have hkeys := h.keys_length_le
  obtain ⟨k, hk, hfirst⟩ := @SubmissionsMgr.exists_generate s.registry (by omega)
  exact ⟨k, hfirst, SubmissionsMgr.generate_eq h.counter hk hfirst⟩

theorem RegistryInv.step_generate (h : RegistryInv s) (hfresh : MintsFresh s .generate)
    (hstep : registryStep s .generate = some s') : RegistryInv s' := by
  simp only [registryStep] at hstep
  split at hstep
  · rename_i hroom
    obtain ⟨k, hfirst, heq⟩ := h.generate hroom
    rw [heq, Option.map_some] at hstep
    cases hstep
    refine ⟨h.none_asserted, Nat.mod_lt _ (Nat.two_pow_pos 64), ?_, ?_, ?_, h.remaining,
      h.bounds⟩
    · intro id hid
      rcases List.mem_cons.1 hid with rfl | hid
      · exact ringAt_pos
      · exact h.pending_pos id hid
    · exact List.nodup_cons.2 ⟨hfresh k hfirst, h.pending_nodup⟩
    · intro id hid
      rcases List.mem_cons.1 hid with rfl | hid
      · exact hfirst.1
      · exact h.pending_fresh id hid
  · cases hstep

theorem RegistryInv.step_add (h : RegistryInv s) {id expected : Nat}
    (hstep : registryStep s (.add id expected) = some s') : RegistryInv s' := by
  simp only [registryStep] at hstep
  split at hstep
  · rename_i hguard
    obtain ⟨hid, hexpected⟩ := hguard
    rw [SubmissionsMgr.add_eq (h.pending_fresh id hid)] at hstep
    cases hstep
    refine ⟨h.none_asserted, h.counter, ?_, h.pending_nodup.erase id, ?_, ?_, ?_⟩
    · intro other hother
      exact h.pending_pos other (List.mem_of_mem_erase hother)
    · intro other hother
      obtain ⟨hne, hmem⟩ := h.pending_nodup.mem_erase_iff.1 hother
      simp only [AList.mem_insert, not_or]
      exact ⟨hne, h.pending_fresh other hmem⟩
    · intro other
      by_cases hother : other = id
      · subst hother
        simp
      · simp only [AList.lookup_insert_ne hother, h.remaining]
    · intro other sub hsub
      by_cases hother : other = id
      · subst hother
        rw [AList.lookup_insert] at hsub
        cases hsub
        exact ⟨Nat.zero_le _, hexpected⟩
      · rw [AList.lookup_insert_ne hother] at hsub
        exact h.bounds other sub hsub
  · cases hstep

theorem RegistryInv.step_consume (h : RegistryInv s) {id : Nat}
    (hstep : registryStep s (.consume id) = some s') : RegistryInv s' := by
  simp only [registryStep] at hstep
  split at hstep
  · cases hstep
  · rename_i sub hsub
    split at hstep
    · rename_i howed
      obtain ⟨-, hlt⟩ := h.bounds id sub hsub
      have hlookup : s.registry.submissions.lookup id = some (sub.expected - sub.consumed) := by
        rw [h.remaining, hsub, Option.map_some]
      rw [SubmissionsMgr.consume_eq hlookup (by omega) (by omega)] at hstep
      by_cases hlast : sub.consumed + 1 = sub.expected
      · rw [if_pos (by omega)] at hstep
        simp only [afterConsume, if_pos hlast] at hstep
        cases hstep
        refine ⟨h.none_asserted, h.counter, h.pending_pos, h.pending_nodup, ?_, ?_, ?_⟩
        · intro other hother
          simp only [AList.mem_erase, not_and]
          exact fun _ => h.pending_fresh other hother
        · intro other
          by_cases hother : other = id
          · subst hother
            simp
          · simp only [AList.lookup_erase_ne hother, h.remaining]
        · intro other sub' hsub'
          by_cases hother : other = id
          · subst hother
            simp at hsub'
          · rw [AList.lookup_erase_ne hother] at hsub'
            exact h.bounds other sub' hsub'
      · rw [if_neg (by omega)] at hstep
        simp only [afterConsume, if_neg hlast] at hstep
        cases hstep
        refine ⟨h.none_asserted, h.counter, h.pending_pos, h.pending_nodup, ?_, ?_, ?_⟩
        · intro other hother
          simp only [AList.mem_insert, not_or]
          refine ⟨?_, h.pending_fresh other hother⟩
          rintro rfl
          exact h.pending_fresh other hother
            (AList.lookup_isSome.1 (by rw [hlookup, Option.isSome_some]))
        · intro other
          by_cases hother : other = id
          · subst hother
            simp only [AList.lookup_insert, Option.map_some, Option.some.injEq]
            omega
          · simp only [AList.lookup_insert_ne hother, h.remaining]
        · intro other sub' hsub'
          by_cases hother : other = id
          · subst hother
            rw [AList.lookup_insert] at hsub'
            cases hsub'
            exact ⟨by simp only; omega, hlt⟩
          · rw [AList.lookup_insert_ne hother] at hsub'
            exact h.bounds other sub' hsub'
    · cases hstep

/-- A call keeps the invariant if it mints no id that is handed out already. -/
theorem RegistryInv.step (h : RegistryInv s) {action : RegistryAction}
    (hfresh : MintsFresh s action) (hstep : registryStep s action = some s') :
    RegistryInv s' := by
  cases action with
  | generate => exact h.step_generate hfresh hstep
  | add id expected => exact h.step_add hstep
  | consume id => exact h.step_consume hstep

/-- Every run without double minting keeps the invariant. -/
theorem registry_run_inv {nextId : Nat} (hnext : nextId < 2 ^ 64)
    {actions : List RegistryAction}
    (hall : EachStep registryStep MintsFresh (RegistryRun.start nextId) actions)
    (hrun : run registryStep (RegistryRun.start nextId) actions = some s) : RegistryInv s :=
  run_invariant_of (fun _ _ _ h hfresh hstep => h.step hfresh hstep) (registryInv_start hnext)
    hall hrun

end Steps

/-! ## The registry with the responder -/

/--
The guarantees of a registry and of a responder.  In a registry, the ids are minted as they
should be, no assertion fires and a submission is registered until its last response is
accounted for.  A responder hands out what was pushed in order, a pop that times out takes
nothing, and after a stop every pop ends.
-/
theorem registry_and_responder {nextId : Nat} (hnext : nextId < 2 ^ 64)
    {calls : List RegistryAction} {s : RegistryRun}
    (hcalls : EachStep registryStep MintsFresh (RegistryRun.start nextId) calls)
    (hrun : run registryStep (RegistryRun.start nextId) calls = some s)
    {α : Type} {ret : α → ResponseCode} {actions : List (QueueAction α)} {q : QueueRun α}
    (hactions : EachStep (queueStep ret) PostFits (QueueRun.start α) actions)
    (hqueue : run (queueStep ret) (QueueRun.start α) actions = some q) :
    (s.asserted = false ∧
      (s.live.keys.length + s.pending.length < idCount → ∃ id registry,
        s.registry.generate = some (id, registry) ∧ id ≠ 0 ∧ id ∉ s.live) ∧
      (∀ id ∈ s.pending, id ≠ 0 ∧ id ∉ s.live) ∧
      (∀ id, s.registry.submissions.lookup id =
        (s.live.lookup id).map fun sub => sub.expected - sub.consumed)) ∧
    (q.asserted = false ∧ q.queue.unexpectedPushError = false ∧
      q.handedOut <+: q.pushed ∧
      (q.queue.stopped = false → (∃ timed, q.consumer = .waiting timed) →
        q.ready = 0 → q.posts = 0 → q.handedOut = q.pushed) ∧
      (∀ timeoutMs, q.queue.stopped = false → q.posts = 0 → q.consumer = .idle →
        ∃ q', run (queueStep ret) q
            (List.replicate q.queue.responses.length
              [QueueAction.pop timeoutMs, .wake, .take]).flatten = some q' ∧
          q'.handedOut = q.pushed) ∧
      (∀ q', queueStep ret q .timeout = some q' → q' = { q with
        consumer := .idle
        returned := q.returned ++ [.sentinel .timedOut] }) ∧
      (q.queue.stopped = true → (∃ timed, q.consumer = .waiting timed) →
        ∃ due, (∀ action ∈ due, action = QueueAction.pushPost ∨ action = .stopPost) ∧
          ∃ q', run (queueStep ret) q (due ++ [.wake, .take]) = some q' ∧
            q'.consumer = .idle ∧
            q'.returned = q.returned ++ [.sentinel .finishedError]) ∧
      (q.queue.stopped = true → ∀ timeoutMs q',
        queueStep ret q (.pop timeoutMs) = some q' →
          q' = { q with returned := q.returned ++ [.sentinel .finishedError] })) := by
  have hregistry := registry_run_inv hnext hcalls hrun
  have hresponder := queueInv_run hactions hqueue
  refine ⟨⟨hregistry.none_asserted, ?_, ?_, hregistry.remaining⟩,
    ⟨hresponder.none_asserted, hresponder.expected, ?_, ?_, ?_, ?_, ?_, ?_⟩⟩
  · intro hroom
    obtain ⟨k, hfirst, heq⟩ := hregistry.generate hroom
    exact ⟨_, _, heq, ringAt_pos.ne', mt hregistry.mem_live.2 hfirst.1⟩
  · intro id hid
    exact ⟨(hregistry.pending_pos id hid).ne',
      mt hregistry.mem_live.2 (hregistry.pending_fresh id hid)⟩
  · obtain ⟨ignored, hpushed, -⟩ := hresponder.pushed
    rw [hpushed, List.append_assoc]
    exact List.prefix_append _ _
  · intro hstopped hwaiting hready hposts
    exact hresponder.handedOut_of_blocked hstopped hwaiting hready hposts
  · intro timeoutMs hstopped hposts hidle
    exact handOut_all hresponder hstopped hposts hidle timeoutMs
  · intro q' hstep
    exact timeout_keeps hstep
  · intro hstopped hwaiting
    exact hresponder.wakes_of_stopped hstopped hwaiting
  · intro hstopped timeoutMs q' hstep
    exact pop_of_stopped hstopped hstep

/-- One submission of one response, before and after its response is pushed and popped. -/
theorem registry_and_responder_once : ∃ s q,
    run registryStep (RegistryRun.start 1) [.generate, .add 1 1] = some s ∧
    run (queueStep fun code => code) (QueueRun.start ResponseCode)
      [.increment 1, .push .success, .pop 0, .pushPost, .wake, .take] = some q ∧
    s.asserted = false ∧ q.asserted = false ∧ q.handedOut <+: q.pushed := by
  have hcalls : EachStep registryStep MintsFresh (RegistryRun.start 1)
      [.generate, .add 1 1] :=
    ⟨fun _ _ => List.not_mem_nil, fun _ _ => ⟨trivial, fun _ _ => trivial⟩⟩
  have hfits : EachStep (queueStep fun code => code) PostFits (QueueRun.start ResponseCode)
      [.increment 1, .push .success, .pop 0, .pushPost, .wake, .take] := by
    refine ⟨trivial, fun s₁ h₁ => ⟨trivial, fun s₂ h₂ => ⟨trivial, fun s₃ h₃ => ⟨?_, fun _ _ =>
      ⟨trivial, fun _ _ => ⟨trivial, fun _ _ => trivial⟩⟩⟩⟩⟩⟩
    cases h₁
    cases h₂
    cases h₃
    exact (by decide : 0 < semValueMax)
  have hall := registry_and_responder (by decide : 1 < 2 ^ 64) hcalls rfl hfits rfl
  exact ⟨_, _, rfl, rfl, hall.1.1, hall.2.1, hall.2.2.2.1⟩

/-! ## An id that is minted twice -/

/-- One id is minted and not registered, and the counter goes on. -/
def RegistryRun.waiting (nextId : Nat) : RegistryRun :=
  { RegistryRun.start nextId with pending := [1] }

/-- With nothing registered the counter itself is minted. -/
theorem generate_of_empty {nextId : Nat} (hpos : 0 < nextId) (hlt : nextId < 2 ^ 64) :
    SubmissionsMgr.generate ⟨nextId, ∅⟩ = some (nextId, ⟨wordAdd 64 nextId 1, ∅⟩) := by
  have hcount : idCount + 1 = 2 ^ 64 := rfl
  have hzero := @ringAt_zero idCount nextId hpos (by omega)
  have hfirst : FirstFree idCount nextId (· ∈ (∅ : AList fun _ : Nat => Nat)) 0 :=
    ⟨AList.notMem_empty _, fun i hi => absurd hi (Nat.not_lt_zero i)⟩
  have heq := @SubmissionsMgr.generate_eq ⟨nextId, ∅⟩ 0 hlt (by decide) hfirst
  rwa [hzero] at heq

theorem lookup_singleton {β : Type} (id : Nat) (b : β) :
    (AList.singleton id b : AList fun _ : Nat => β).lookup id = some b := by
  rw [← AList.insert_empty, AList.lookup_insert]

theorem erase_singleton {β : Type} (id : Nat) (b : β) :
    (AList.singleton id b : AList fun _ : Nat => β).erase id = ∅ := by
  apply AList.ext
  exact List.kerase_cons_eq rfl

/-- A submission of one response comes and goes. -/
theorem run_lap {nextId : Nat} (hpos : 2 ≤ nextId) (hlt : nextId < 2 ^ 64) :
    run registryStep (RegistryRun.waiting nextId)
        [.generate, .add nextId 1, .consume nextId] =
      some (RegistryRun.waiting (wordAdd 64 nextId 1)) := by
  have hgenerate : registryStep (RegistryRun.waiting nextId) .generate =
      some { RegistryRun.start (wordAdd 64 nextId 1) with pending := [nextId, 1] } := by
    have hroom : ([] : List Nat).length + [1].length < idCount := by decide
    simp only [registryStep, RegistryRun.waiting, RegistryRun.start, AList.keys_empty, hroom,
      if_true, generate_of_empty (by omega : 0 < nextId) hlt, Option.map_some]
  have hadd : registryStep
      { RegistryRun.start (wordAdd 64 nextId 1) with pending := [nextId, 1] }
      (.add nextId 1) =
      some { RegistryRun.waiting (wordAdd 64 nextId 1) with
        registry := ⟨wordAdd 64 nextId 1, AList.singleton nextId 1⟩
        live := AList.singleton nextId ⟨1, 0⟩ } := by
    simp [registryStep, RegistryRun.waiting, RegistryRun.start, SubmissionsMgr.add]
  have hconsume : registryStep
      { RegistryRun.waiting (wordAdd 64 nextId 1) with
        registry := ⟨wordAdd 64 nextId 1, AList.singleton nextId 1⟩
        live := AList.singleton nextId ⟨1, 0⟩ } (.consume nextId) =
      some (RegistryRun.waiting (wordAdd 64 nextId 1)) := by
    have hlast : SubmissionsMgr.consume ⟨wordAdd 64 nextId 1, AList.singleton nextId 1⟩ nextId =
        .ok (true, ⟨wordAdd 64 nextId 1, ∅⟩) := by
      rw [SubmissionsMgr.consume_eq (lookup_singleton nextId 1) Nat.one_pos (by decide),
        if_pos rfl]
      simp only [erase_singleton]
    simp only [registryStep, lookup_singleton, Nat.zero_lt_one, if_true, hlast, afterConsume,
      erase_singleton]
    rfl
  simp only [run, hgenerate, hadd, hconsume, Option.bind_some]

/-- Submissions come and go while the counter runs up. -/
theorem exists_laps {laps : Nat} (h : 2 + laps ≤ 2 ^ 64) :
    ∃ calls, run registryStep (RegistryRun.waiting 2) calls =
      some (RegistryRun.waiting (toWord 64 (2 + laps))) := by
  induction laps with
  | zero => exact ⟨[], rfl⟩
  | succ laps ih =>
      obtain ⟨calls, hrun⟩ := ih (by omega)
      rw [toWord_of_lt (by omega)] at hrun
      have hlap := run_lap (by omega : 2 ≤ 2 + laps) (by omega)
      exact ⟨_, run_append.2 ⟨_, hrun, hlap⟩⟩

/--
The id one is minted and waits while the counter runs through all others and wraps.  Then one
is minted again, and the second of its registrations asserts.
-/
theorem registry_wraps : ∃ calls s,
    run registryStep (RegistryRun.start 1) calls = some s ∧ s.asserted = true := by
  obtain ⟨laps, hlaps⟩ := exists_laps (by decide : 2 + (2 ^ 64 - 2) ≤ 2 ^ 64)
  have hfirst : run registryStep (RegistryRun.start 1) [.generate] =
      some (RegistryRun.waiting 2) := rfl
  have hlast : run registryStep (RegistryRun.waiting 0) [.generate, .add 1 1, .add 1 1] =
      some
        { registry := ⟨2, AList.singleton 1 1⟩
          pending := []
          live := AList.singleton 1 ⟨1, 0⟩
          asserted := true } := rfl
  refine ⟨_, _, run_append.2 ⟨_, hfirst, run_append.2 ⟨_, hlaps, hlast⟩⟩, rfl⟩

end Streamer
end ModelStreamer
