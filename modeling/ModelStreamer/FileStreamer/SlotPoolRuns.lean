import ModelStreamer.FileStreamer.RingSpec

/-!
# Runs of a slot pool

The caller of a {lit}`SlotPool` takes slots and gives them back, in any order, while the events
of the device complete.  A slot is under its caller, free or pending at any time.

Main results:

- Theorem {lit}`PoolInv.step`: what the pool keeps along every sequence of calls.
- Theorem {lit}`slot_pool_contract`: no slot is handed out too early or twice.
-/

namespace ModelStreamer
namespace FileStreamer

open Lib

/-! ## The calls of a pool -/

/--
A pool in use.  {lit}`taken`, {lit}`lastEvent` and {lit}`handed` are a record: the slots of
the caller, the event of the last release of each, and the memory of every take.
-/
structure PoolRun where
  pool : SlotPool
  allocated : Nat
  completed : List Nat
  /-- The event of a {lit}`wait_for_free` that has not returned. -/
  waiting : Option Nat
  taken : List Nat
  lastEvent : Nat → Option Nat
  handed : List Slot

/-- What can happen next. -/
inductive PoolCall where
  | hasFree
  | take
  | release (index : Nat) (event : Option Nat)
  | waitForFree
  /-- {lit}`synchronize` has returned. -/
  | synchronized
  /-- The device has passed an event. -/
  | completes (event : Nat)
deriving DecidableEq, Repr

/-- A pool that was just made. -/
def PoolRun.start (alloc : Nat → Slot) (depth : Nat) (owned : Bool) : PoolRun :=
  { pool := .make depth alloc owned
    allocated := depth
    completed := []
    waiting := none
    taken := []
    lastEvent := fun _ => none
    handed := [] }

/-- {lit}`take`, which hands out the memory of the next free slot. -/
def PoolRun.take (alloc : Nat → Slot) (s : PoolRun) : Option PoolRun :=
  match s.pool.takeFresh (alloc s.allocated) with
  | none => none
  | some (index, pool) =>
      some
        { s with
          pool
          allocated := s.allocated + 1
          taken := index :: s.taken
          handed := s.handed ++ (pool.slots.getD index none).toList }

/-- {lit}`release`; a call that raises leaves everything as it is. -/
def PoolRun.release (s : PoolRun) (index : Nat) (event : Option Nat) : PoolRun :=
  match s.pool.release index event with
  | .error _ => s
  | .ok pool =>
      { s with
        pool
        taken := s.taken.erase index
        lastEvent := Function.update s.lastEvent index event }

/-- The transition function.  Only events complete while the caller waits. -/
def poolStep (alloc : Nat → Slot) (s : PoolRun) : PoolCall → Option PoolRun
  | .hasFree =>
      if s.waiting.isSome then none
      else some { s with pool := (s.pool.hasFree s.completed).2 }
  | .take => if s.waiting.isSome then none else s.take alloc
  | .release index event =>
      if s.waiting.isSome ∨ ¬ index < s.pool.slots.length then none
      else some (s.release index event)
  | .waitForFree =>
      if s.waiting.isSome then none
      else
        match s.pool.waitForFree s.completed with
        | (.error _, pool) => some { s with pool }
        | (.ok waiting, pool) => some { s with pool, waiting }
  | .synchronized =>
      match s.waiting with
      | none => none
      | some event =>
          if event ∈ s.completed then
            some { s with pool := s.pool.sweepPending s.completed, waiting := none }
          else none
  | .completes event => some { s with completed := event :: s.completed }

/-! ## What every call keeps -/

/-- The memory under a slot. -/
def SlotPool.memory (pool : SlotPool) (index : Nat) : Option Slot :=
  pool.slots.getD index none

/-- The slots of a pool, where they are, and what memory they have. -/
structure PoolInv (alloc : Nat → Slot) (depth : Nat) (owned : Bool) (s : PoolRun) : Prop where
  owned_eq : s.pool.owned = owned
  length_eq : s.pool.slots.length = depth
  partition : (s.taken ++ s.pool.idle).Perm (List.range depth)
  pending_event : ∀ entry ∈ s.pool.pending, s.lastEvent entry.1 = some entry.2
  free_event : ∀ index ∈ s.pool.free, ∀ event ∈ s.lastEvent index, event ∈ s.completed
  taken_memory : ∀ index ∈ s.taken, s.pool.memory index ≠ none
  memory_born : ∀ index, ∀ slot ∈ s.pool.memory index, ∃ k < s.allocated, slot = alloc k
  memory_inj : ∀ i j, ∀ slot ∈ s.pool.memory i, slot ∈ s.pool.memory j → i = j
  handed_born : ∀ slot ∈ s.handed, ∃ k < s.allocated, slot = alloc k
  free_fresh : owned = true → ∀ index ∈ s.pool.free, ∀ slot ∈ s.pool.memory index,
    slot ∉ s.handed
  handed_nodup : owned = true → s.handed.Nodup
  owned_pending : owned = true → s.pool.pending = []

section Steps

variable {alloc : Nat → Slot} {depth : Nat} {owned : Bool} {s : PoolRun}

/-- The memory under the slots after one was given other memory. -/
theorem getD_set_slots {slots : List (Option Slot)} {i : Nat} (hi : i < slots.length)
    (memory : Option Slot) (j : Nat) :
    (slots.set i memory).getD j none = if i = j then memory else slots.getD j none := by
  simp only [List.getD_eq_getElem?_getD, List.getElem?_set, hi, if_true]
  split <;> rfl

/-- A sweep frees only slots whose event has completed. -/
theorem mem_free_sweepPending {pool : SlotPool} {completed : List Nat} {index : Nat}
    (h : index ∈ (pool.sweepPending completed).free) :
    index ∈ pool.free ∨ ∃ event ∈ completed, (index, event) ∈ pool.pending := by
  obtain ⟨-, ⟨freed, hpending, hfree, hdone⟩, -⟩ := sweep_spec completed pool.free pool.pending
  change index ∈ (sweep completed pool.free pool.pending).1 at h
  rw [hfree] at h
  cases List.mem_append.1 h with
  | inl hold => exact .inl hold
  | inr hnew =>
      obtain ⟨entry, hentry, rfl⟩ := List.mem_map.1 hnew
      refine .inr ⟨entry.2, hdone entry hentry, ?_⟩
      rw [hpending]
      exact List.mem_append_left _ hentry

/-- {lit}`wait_for_free` returns, raises or waits for the oldest pending slot. -/
theorem waitForFree_cases (pool : SlotPool) (completed : List Nat) :
    (pool.waitForFree completed = (.ok none, pool.sweepPending completed) ∧
      (pool.sweepPending completed).free ≠ []) ∨
    (pool.waitForFree completed = (.error .nothingPending, pool.sweepPending completed) ∧
      (pool.sweepPending completed).free = [] ∧ (pool.sweepPending completed).pending = []) ∨
    ∃ entry pending, (pool.sweepPending completed).pending = entry :: pending ∧
      pool.waitForFree completed = (.ok (some entry.2), pool.sweepPending completed) := by
  unfold SlotPool.waitForFree SlotPool.hasFree
  by_cases hfree : (pool.sweepPending completed).free = []
  · cases hpending : (pool.sweepPending completed).pending with
    | nil => exact .inr (.inl ⟨by simp [hfree, hpending], hfree, rfl⟩)
    | cons entry pending => exact .inr (.inr ⟨entry, pending, rfl, by simp [hfree, hpending]⟩)
  · exact .inl ⟨by simp [List.length_pos_iff, hfree], hfree⟩

/-- A sweep keeps the invariant, whether the caller waits or not. -/
theorem PoolInv.sweepPending (h : PoolInv alloc depth owned s) (waiting : Option Nat) :
    PoolInv alloc depth owned
      { s with pool := s.pool.sweepPending s.completed, waiting } where
  owned_eq := h.owned_eq
  length_eq := h.length_eq
  partition := by
    rw [(sweepPending_spec s.pool s.completed).1]
    exact h.partition
  pending_event := fun entry hentry =>
    h.pending_event entry ((sweepPending_spec s.pool s.completed).2.2.2.1 entry hentry)
  free_event := fun index hindex event hevent => by
    cases mem_free_sweepPending hindex with
    | inl hfree => exact h.free_event index hfree event hevent
    | inr hswept =>
        obtain ⟨event', hdone, hpending⟩ := hswept
        have hlast : s.lastEvent index = some event' := h.pending_event _ hpending
        cases hlast.symm.trans hevent
        exact hdone
  taken_memory := h.taken_memory
  memory_born := h.memory_born
  memory_inj := h.memory_inj
  handed_born := h.handed_born
  free_fresh := fun howned index hindex => by
    cases mem_free_sweepPending hindex with
    | inl hfree => exact h.free_fresh howned index hfree
    | inr hswept =>
        obtain ⟨event, -, hpending⟩ := hswept
        rw [h.owned_pending howned] at hpending
        cases hpending
  handed_nodup := h.handed_nodup
  owned_pending := fun howned => by
    have hnil := h.owned_pending howned
    have hsub := (sweepPending_spec s.pool s.completed).2.2.2.1
    rw [hnil] at hsub
    exact List.eq_nil_iff_forall_not_mem.2 fun entry hentry =>
      List.not_mem_nil (hsub entry hentry)

/-- What {lit}`take` does: the next free slot has memory, which is new if it had none. -/
structure Takes (pool : SlotPool) (fresh : Slot) (index : Nat) (memory : Slot)
    (pool' : SlotPool) : Prop where
  free_eq : pool.free = index :: pool'.free
  pending_eq : pool'.pending = pool.pending
  owned_eq : pool'.owned = pool.owned
  length_eq : pool'.slots.length = pool.slots.length
  memory_eq : pool'.memory index = some memory
  other_memory : ∀ j, j ≠ index → pool'.memory j = pool.memory j
  memory_cases : pool.memory index = some memory ∨ memory = fresh

/-- A take by an allocator that does not raise. -/
theorem take_of_takeFresh {pool pool' : SlotPool} {fresh : Slot} {index : Nat}
    (h : pool.takeFresh fresh = some (index, pool')) :
    pool.take (some fresh) = (.ok index, pool') := by
  unfold SlotPool.takeFresh at h
  split at h
  · rename_i htake
    cases h
    exact htake
  · cases h

/-- A slot that has memory is taken as it is, whether an allocation would raise or not. -/
theorem take_of_memory {pool : SlotPool} {index : Nat} {free : List Nat}
    (hfree : pool.free = index :: free) (hmemory : pool.memory index ≠ none)
    (fresh fresh' : Option Slot) : pool.take fresh = pool.take fresh' := by
  have hsome : ¬ pool.slots.getD index none = none := hmemory
  simp only [SlotPool.take, hfree, hsome, if_false]

/-- An allocation that raises leaves its slot neither free nor taken. -/
theorem take_of_raises {pool : SlotPool} {index : Nat} {free : List Nat}
    (hfree : pool.free = index :: free) (hmemory : pool.memory index = none) :
    pool.take none = (.error .memoryError, { pool with free }) := by
  have hnone : pool.slots.getD index none = none := hmemory
  simp only [SlotPool.take, hfree, hnone, if_true]

/-- A take that has a free slot below the depth. -/
theorem takes_of_free {pool : SlotPool} (fresh : Slot) {index : Nat} {free : List Nat}
    (hfree : pool.free = index :: free) (hindex : index < pool.slots.length) :
    ∃ memory pool', pool.takeFresh fresh = some (index, pool') ∧
      Takes pool fresh index memory pool' := by
  rw [takeFresh_cons fresh hfree]
  cases hmemory : pool.memory index with
  | none =>
      have hnone : pool.slots.getD index none = none := hmemory
      simp only [hnone, if_true]
      refine ⟨fresh, _, rfl, hfree, rfl, rfl, List.length_set, ?_, ?_, .inr rfl⟩
      · exact (getD_set_slots hindex _ index).trans (if_pos rfl)
      · intro j hj
        exact (getD_set_slots hindex _ j).trans (if_neg hj.symm)
  | some memory =>
      have hsome : pool.slots.getD index none = some memory := hmemory
      have hne : ¬ pool.slots.getD index none = none := by
        rw [hsome]
        exact Option.some_ne_none memory
      simp only [hne, if_false]
      exact ⟨memory, _, rfl, hfree, rfl, rfl, rfl, hmemory, fun _ _ => rfl, .inl hmemory⟩

/-- An index that is not under its caller is below the depth. -/
theorem PoolInv.idle_lt (h : PoolInv alloc depth owned s) {index : Nat}
    (hindex : index ∈ s.pool.idle) : index < depth :=
  List.mem_range.1 (h.partition.mem_iff.1 (List.mem_append_right _ hindex))

/-- No slot is in two places. -/
theorem PoolInv.nodup (h : PoolInv alloc depth owned s) : (s.taken ++ s.pool.idle).Nodup :=
  h.partition.nodup_iff.2 List.nodup_range

/-- A take is possible exactly when a slot is free. -/
theorem PoolInv.take_eq (h : PoolInv alloc depth owned s) {index : Nat} {free : List Nat}
    (hfree : s.pool.free = index :: free) :
    ∃ memory pool, Takes s.pool (alloc s.allocated) index memory pool ∧
      s.take alloc = some
        { s with
          pool
          allocated := s.allocated + 1
          taken := index :: s.taken
          handed := s.handed ++ [memory] } := by
  have hlt : index < s.pool.slots.length := by
    rw [h.length_eq]
    apply h.idle_lt
    unfold SlotPool.idle
    rw [hfree]
    exact List.mem_append_left _ List.mem_cons_self
  obtain ⟨memory, pool, htake, htakes⟩ := takes_of_free (alloc s.allocated) hfree hlt
  refine ⟨memory, pool, htakes, ?_⟩
  have hmemory : pool.slots.getD index none = some memory := htakes.memory_eq
  unfold PoolRun.take
  simp only [htake, hmemory, Option.toList_some]

/-- A take keeps the invariant. -/
theorem PoolInv.take (halloc : Function.Injective alloc) (h : PoolInv alloc depth owned s)
    {s' : PoolRun} (hstep : s.take alloc = some s') : PoolInv alloc depth owned s' := by
  cases hfree : s.pool.free with
  | nil => simp [PoolRun.take, hfree] at hstep
  | cons index free =>
      obtain ⟨memory, pool, htakes, heq⟩ := h.take_eq hfree
      cases heq.symm.trans hstep
      have hrest : free = pool.free := by
        have hcons := htakes.free_eq
        rw [hfree] at hcons
        exact List.tail_eq_of_cons_eq hcons
      have hidle : s.pool.idle = index :: pool.idle := by
        unfold SlotPool.idle
        rw [htakes.free_eq, htakes.pending_eq, List.cons_append]
      have hindex : index ∈ s.pool.free := by
        rw [hfree]
        exact List.mem_cons_self
      have hsub : ∀ {j}, j ∈ pool.free → j ∈ s.pool.free := by
        intro j hj
        rw [htakes.free_eq]
        exact List.mem_cons_of_mem _ hj
      have hnew : index ∉ pool.free := by
        have hnodup := h.nodup.of_append_right
        rw [hidle, List.nodup_cons] at hnodup
        exact fun hmem => hnodup.1 (List.mem_append_left _ hmem)
      -- the memory that is handed out is neither under another slot nor out already
      have hborn : ∃ k < s.allocated + 1, memory = alloc k := by
        cases htakes.memory_cases with
        | inl hold =>
            obtain ⟨k, hk, hslot⟩ := h.memory_born index memory hold
            exact ⟨k, Nat.lt_succ_of_lt hk, hslot⟩
        | inr hfresh => exact ⟨s.allocated, Nat.lt_succ_self _, hfresh⟩
      have hunborn : ∀ k < s.allocated, alloc k ≠ alloc s.allocated := by
        intro k hk hsame
        exact absurd (halloc hsame) (Nat.ne_of_lt hk)
      have hother : ∀ j, j ≠ index → memory ∉ pool.memory j := by
        intro j hj hmem
        rw [htakes.other_memory j hj] at hmem
        cases htakes.memory_cases with
        | inl hold => exact hj (h.memory_inj j index memory hmem hold)
        | inr hfresh =>
            obtain ⟨k, hk, hslot⟩ := h.memory_born j memory hmem
            exact hunborn k hk (hslot.symm.trans hfresh)
      have hnotHanded : owned = true → memory ∉ s.handed := by
        intro howned hmem
        cases htakes.memory_cases with
        | inl hold => exact h.free_fresh howned index hindex memory hold hmem
        | inr hfresh =>
            obtain ⟨k, hk, hslot⟩ := h.handed_born memory hmem
            exact hunborn k hk (hslot.symm.trans hfresh)
      exact
        { owned_eq := htakes.owned_eq.trans h.owned_eq
          length_eq := htakes.length_eq.trans h.length_eq
          partition := by
            refine List.Perm.trans ?_ h.partition
            rw [hidle]
            exact List.perm_middle.symm
          pending_event := fun entry hentry =>
            h.pending_event entry (htakes.pending_eq ▸ hentry)
          free_event := fun j hj => h.free_event j (hsub hj)
          taken_memory := fun j hj => by
            by_cases heq : j = index
            · simp only [heq, htakes.memory_eq, ne_eq, reduceCtorEq, not_false_eq_true]
            · simp only [htakes.other_memory j heq]
              cases List.mem_cons.1 hj with
              | inl hhead => exact absurd hhead heq
              | inr htail => exact h.taken_memory j htail
          memory_born := fun j slot hslot => by
            by_cases heq : j = index
            · simp only [heq, htakes.memory_eq, Option.mem_def, Option.some.injEq] at hslot
              rw [← hslot]
              exact hborn
            · simp only [htakes.other_memory j heq] at hslot
              obtain ⟨k, hk, hget⟩ := h.memory_born j slot hslot
              exact ⟨k, Nat.lt_succ_of_lt hk, hget⟩
          memory_inj := fun i j slot hi hj => by
            by_cases hii : i = index
            · by_cases hjj : j = index
              · rw [hii, hjj]
              · simp only [hii, htakes.memory_eq, Option.mem_def, Option.some.injEq] at hi
                exact absurd (hi ▸ hj) (hother j hjj)
            · by_cases hjj : j = index
              · simp only [hjj, htakes.memory_eq, Option.mem_def, Option.some.injEq] at hj
                exact absurd (hj ▸ hi) (hother i hii)
              · simp only [htakes.other_memory i hii] at hi
                simp only [htakes.other_memory j hjj] at hj
                exact h.memory_inj i j slot hi hj
          handed_born := fun slot hslot => by
            cases List.mem_append.1 hslot with
            | inl hold =>
                obtain ⟨k, hk, hget⟩ := h.handed_born slot hold
                exact ⟨k, Nat.lt_succ_of_lt hk, hget⟩
            | inr hlast =>
                rw [List.mem_singleton.1 hlast]
                exact hborn
          free_fresh := fun howned j hj slot hslot hmem => by
            have hne : j ≠ index := fun heq => hnew (heq ▸ hj)
            cases List.mem_append.1 hmem with
            | inl hold =>
                simp only [htakes.other_memory j hne] at hslot
                exact h.free_fresh howned j (hsub hj) slot hslot hold
            | inr hlast => exact hother j hne (List.mem_singleton.1 hlast ▸ hslot)
          handed_nodup := fun howned => by
            apply List.Nodup.append (h.handed_nodup howned) (List.nodup_singleton memory)
            exact List.disjoint_singleton.2 (hnotHanded howned)
          owned_pending := fun howned => htakes.pending_eq.trans (h.owned_pending howned) }

/-- What {lit}`release` does when it does not raise. -/
theorem release_ok_iff {pool pool' : SlotPool} {index : Nat} {event : Option Nat} :
    pool.release index event = .ok pool' ↔
      index ∉ pool.idle ∧ (pool.owned = true → event = none) ∧
      pool' =
        { pool with
          slots := if pool.owned then pool.slots.set index none else pool.slots
          free := if event.isSome then pool.free else pool.free ++ [index]
          pending := pool.pending ++ (event.map (index, ·)).toList } := by
  unfold SlotPool.release SlotPool.idle
  rw [List.mem_append]
  by_cases hidle : index ∈ pool.free ∨ index ∈ pool.pending.map Prod.fst
  · rw [if_pos hidle]
    exact ⟨nofun, fun h => absurd hidle h.1⟩
  · rw [if_neg hidle]
    by_cases howned : pool.owned = true ∧ event.isSome = true
    · rw [if_pos howned]
      refine ⟨nofun, fun h => ?_⟩
      have hsome := howned.2
      rw [h.2.1 howned.1] at hsome
      cases hsome
    · have hnone : pool.owned = true → event = none := by
        intro hpool
        exact Option.not_isSome_iff_eq_none.1 fun hsome => howned ⟨hpool, hsome⟩
      rw [if_neg howned]
      constructor
      · intro h
        refine ⟨hidle, hnone, ?_⟩
        cases event with
        | none => simpa using (Except.ok.inj h).symm
        | some event => simpa using (Except.ok.inj h).symm
      · rintro ⟨-, -, rfl⟩
        cases event with
        | none => simp
        | some event => simp

/-- A slot that is released is idle again. -/
theorem perm_idle_release {pool : SlotPool} {index : Nat} (event : Option Nat)
    {slots : List (Option Slot)} :
    ({ pool with
        slots
        free := if event.isSome then pool.free else pool.free ++ [index]
        pending := pool.pending ++ (event.map (index, ·)).toList } : SlotPool).idle.Perm
      (index :: pool.idle) := by
  unfold SlotPool.idle
  cases event with
  | none =>
      simp only [Option.isSome_none, Bool.false_eq_true, if_false, Option.map_none,
        Option.toList_none, List.append_nil, List.append_assoc, List.singleton_append]
      exact List.perm_middle
  | some event =>
      simp only [Option.isSome_some, if_true, Option.map_some, Option.toList_some,
        List.map_append, List.map_cons, List.map_nil, ← List.append_assoc]
      exact List.perm_append_singleton index _

/-- A release keeps the invariant. -/
theorem PoolInv.release (h : PoolInv alloc depth owned s) {index : Nat} (hindex : index < depth)
    (event : Option Nat) : PoolInv alloc depth owned (s.release index event) := by
  unfold PoolRun.release
  cases hrelease : s.pool.release index event with
  | error _ => exact h
  | ok pool =>
      obtain ⟨hidle, hevent, rfl⟩ := release_ok_iff.1 hrelease
      have htaken : index ∈ s.taken := by
        have hmem : index ∈ s.taken ++ s.pool.idle :=
          h.partition.mem_iff.2 (List.mem_range.2 hindex)
        exact (List.mem_append.1 hmem).resolve_right hidle
      have hlt : index < s.pool.slots.length := h.length_eq ▸ hindex
      have hfree : ∀ j ∈ s.pool.free, j ≠ index := by
        intro j hj heq
        exact hidle (List.mem_append_left _ (heq ▸ hj))
      have hpending : ∀ entry ∈ s.pool.pending, entry.1 ≠ index := by
        intro entry hentry heq
        exact hidle (List.mem_append_right _ (List.mem_map.2 ⟨entry, hentry, heq⟩))
      have hsub : ∀ j, ∀ slot ∈ (if s.pool.owned then s.pool.slots.set index none
          else s.pool.slots).getD j none, slot ∈ s.pool.memory j := by
        intro j slot hslot
        split at hslot
        · rw [getD_set_slots hlt] at hslot
          split at hslot
          · cases hslot
          · exact hslot
        · exact hslot
      exact
        { owned_eq := h.owned_eq
          length_eq := by
            change (if s.pool.owned then s.pool.slots.set index none
              else s.pool.slots).length = depth
            split
            · rw [List.length_set, h.length_eq]
            · exact h.length_eq
          partition := by
            refine List.Perm.trans ?_ h.partition
            have hrest : s.taken.Perm (index :: s.taken.erase index) :=
              List.perm_cons_erase htaken
            refine List.Perm.trans ?_ (hrest.append_right _).symm
            rw [List.cons_append]
            refine List.Perm.trans ?_ List.perm_middle
            exact (perm_idle_release event).append_left _
          pending_event := fun entry hentry => by
            cases List.mem_append.1 hentry with
            | inl hold =>
                simp only [Function.update_of_ne (hpending entry hold)]
                exact h.pending_event entry hold
            | inr hnew =>
                simp only [Option.mem_toList, Option.map_eq_some_iff] at hnew
                obtain ⟨event', rfl, rfl⟩ := hnew
                simp only [Function.update_self]
          free_event := fun j hj event' hevent' => by
            by_cases heq : j = index
            · subst heq
              simp only [Function.update_self, Option.mem_def] at hevent'
              simp only [hevent', Option.isSome_some, if_true] at hj
              exact absurd rfl (hfree j hj)
            · simp only [Function.update_of_ne heq] at hevent'
              refine h.free_event j ?_ event' hevent'
              simp only at hj
              split at hj
              · exact hj
              · exact (List.mem_append.1 hj).resolve_right fun hlast =>
                  heq (List.mem_singleton.1 hlast)
          taken_memory := fun j hj => by
            have hne : j ≠ index := by
              have hnodup := (h.nodup.of_append_left).mem_erase_iff.1 hj
              exact hnodup.1
            have hold := h.taken_memory j (List.mem_of_mem_erase hj)
            unfold SlotPool.memory
            simp only
            split
            · rw [getD_set_slots hlt, if_neg hne.symm]
              exact hold
            · exact hold
          memory_born := fun j slot hslot => h.memory_born j slot (hsub j slot hslot)
          memory_inj := fun i j slot hi hj =>
            h.memory_inj i j slot (hsub i slot hi) (hsub j slot hj)
          handed_born := h.handed_born
          free_fresh := fun howned j hj slot hslot => by
            have hpool : s.pool.owned = true := h.owned_eq.trans howned
            simp only [hevent hpool, Option.isSome_none, Bool.false_eq_true, if_false] at hj
            cases List.mem_append.1 hj with
            | inl hold => exact h.free_fresh howned j hold slot (hsub j slot hslot)
            | inr hlast =>
                -- the slot that is given away has no memory
                rw [List.mem_singleton.1 hlast] at hslot
                unfold SlotPool.memory at hslot
                simp only [hpool, if_true] at hslot
                rw [getD_set_slots hlt, if_pos rfl] at hslot
                cases hslot
          handed_nodup := h.handed_nodup
          owned_pending := fun howned => by
            have hpool : s.pool.owned = true := h.owned_eq.trans howned
            rw [hevent hpool, h.owned_pending howned]
            rfl }

/-- The memory under the slots of a pool that was just made. -/
theorem mem_memory_make {i : Nat} {slot : Slot}
    (h : slot ∈ (SlotPool.make depth alloc owned).memory i) : i < depth ∧ slot = alloc i := by
  simp only [SlotPool.memory, SlotPool.make, List.getD_eq_getElem?_getD, List.getElem?_map,
    Option.mem_def] at h
  by_cases hlt : i < depth
  · simp only [List.getElem?_range hlt, Option.map_some, Option.getD_some,
      Option.some.injEq] at h
    exact ⟨hlt, h.symm⟩
  · rw [List.getElem?_eq_none (by simpa using hlt)] at h
    cases h

/-- A pool that was just made. -/
theorem poolInv_start (halloc : Function.Injective alloc) (depth : Nat) (owned : Bool) :
    PoolInv alloc depth owned (PoolRun.start alloc depth owned) where
  owned_eq := rfl
  length_eq := by simp [PoolRun.start, SlotPool.make]
  partition := by simp [PoolRun.start, SlotPool.make, SlotPool.idle]
  pending_event := fun _ hentry => absurd hentry List.not_mem_nil
  free_event := fun _ _ _ hevent => by cases hevent
  taken_memory := fun _ hindex => absurd hindex List.not_mem_nil
  memory_born := fun index _ hslot => ⟨index, mem_memory_make hslot⟩
  memory_inj := fun i j slot hi hj =>
    halloc ((mem_memory_make hi).2.symm.trans (mem_memory_make hj).2)
  handed_born := fun _ hslot => absurd hslot List.not_mem_nil
  free_fresh := fun _ _ _ _ _ => List.not_mem_nil
  handed_nodup := fun _ => List.nodup_nil
  owned_pending := fun _ => rfl

/-- Every call keeps the invariant. -/
theorem PoolInv.step (halloc : Function.Injective alloc) (h : PoolInv alloc depth owned s)
    {call : PoolCall} {s' : PoolRun} (hstep : poolStep alloc s call = some s') :
    PoolInv alloc depth owned s' := by
  cases call with
  | hasFree =>
      simp only [poolStep] at hstep
      split at hstep
      · cases hstep
      · cases hstep
        exact h.sweepPending s.waiting
  | take =>
      simp only [poolStep] at hstep
      split at hstep
      · cases hstep
      · exact h.take halloc hstep
  | release index event =>
      simp only [poolStep] at hstep
      split at hstep
      · cases hstep
      · rename_i hcall
        cases hstep
        apply h.release
        rw [← h.length_eq]
        exact not_not.1 fun hle => hcall (.inr hle)
  | waitForFree =>
      simp only [poolStep] at hstep
      split at hstep
      · cases hstep
      · rcases waitForFree_cases s.pool s.completed with ⟨hwait, -⟩ | ⟨hwait, -⟩ |
          ⟨entry, -, -, hwait⟩
        · simp only [hwait, Option.some.injEq] at hstep
          rw [← hstep]
          exact h.sweepPending none
        · simp only [hwait, Option.some.injEq] at hstep
          rw [← hstep]
          exact h.sweepPending s.waiting
        · simp only [hwait, Option.some.injEq] at hstep
          rw [← hstep]
          exact h.sweepPending (some entry.2)
  | synchronized =>
      simp only [poolStep] at hstep
      split at hstep
      · cases hstep
      · split at hstep
        · cases hstep
          exact h.sweepPending none
        · cases hstep
  | completes event =>
      cases hstep
      exact
        { owned_eq := h.owned_eq
          length_eq := h.length_eq
          partition := h.partition
          pending_event := h.pending_event
          free_event := fun index hindex event' hevent' =>
            List.mem_cons_of_mem _ (h.free_event index hindex event' hevent')
          taken_memory := h.taken_memory
          memory_born := h.memory_born
          memory_inj := h.memory_inj
          handed_born := h.handed_born
          free_fresh := h.free_fresh
          handed_nodup := h.handed_nodup
          owned_pending := h.owned_pending }

/-- A caller that waits, waits for the oldest pending slot. -/
def WaitsForOldest (s : PoolRun) : Prop :=
  ∀ event ∈ s.waiting, s.pool.pending.head?.map Prod.snd = some event

/-- Every call keeps what the caller waits for. -/
theorem WaitsForOldest.step (h : WaitsForOldest s) {call : PoolCall} {s' : PoolRun}
    (hstep : poolStep alloc s call = some s') : WaitsForOldest s' := by
  have hnone : ∀ {t : PoolRun}, t.waiting = s.waiting → ¬ s.waiting.isSome = true →
      WaitsForOldest t := by
    intro t hwaiting hidle event hevent
    rw [hwaiting, Option.not_isSome_iff_eq_none.1 hidle] at hevent
    cases hevent
  cases call with
  | hasFree =>
      simp only [poolStep] at hstep
      split at hstep
      · cases hstep
      · rename_i hidle
        cases hstep
        exact hnone rfl hidle
  | take =>
      simp only [poolStep, PoolRun.take] at hstep
      split at hstep
      · cases hstep
      · rename_i hidle
        split at hstep
        · cases hstep
        · cases hstep
          exact hnone rfl hidle
  | release index event =>
      simp only [poolStep] at hstep
      split at hstep
      · cases hstep
      · rename_i hcall
        cases hstep
        have hidle : ¬ s.waiting.isSome = true := fun hsome => hcall (.inl hsome)
        unfold PoolRun.release
        split
        · exact h
        · exact hnone rfl hidle
  | waitForFree =>
      simp only [poolStep] at hstep
      split at hstep
      · cases hstep
      · rename_i hidle
        rcases waitForFree_cases s.pool s.completed with ⟨hwait, -⟩ | ⟨hwait, -⟩ |
          ⟨entry, pending, hpending, hwait⟩
        · simp only [hwait, Option.some.injEq] at hstep
          rw [← hstep]
          intro event hevent
          cases hevent
        · simp only [hwait, Option.some.injEq] at hstep
          rw [← hstep]
          exact hnone rfl hidle
        · simp only [hwait, Option.some.injEq] at hstep
          rw [← hstep]
          intro event hevent
          cases hevent
          simp only [hpending, List.head?_cons, Option.map_some]
  | synchronized =>
      simp only [poolStep] at hstep
      split at hstep
      · cases hstep
      · split at hstep
        · cases hstep
          intro event hevent
          cases hevent
        · cases hstep
  | completes event =>
      cases hstep
      exact h

/-- A sweep after the oldest event has completed frees a slot. -/
theorem free_sweepPending_ne_nil {pool : SlotPool} {completed : List Nat} {event : Nat}
    (holdest : pool.pending.head?.map Prod.snd = some event) (hdone : event ∈ completed) :
    (pool.sweepPending completed).free ≠ [] := by
  obtain ⟨-, ⟨freed, hpending, hfree, -⟩, hhead⟩ :=
    sweep_spec completed pool.free pool.pending
  intro hnil
  change (sweep completed pool.free pool.pending).1 = [] at hnil
  rw [hfree, List.append_eq_nil_iff, List.map_eq_nil_iff] at hnil
  rw [hnil.2, List.nil_append] at hpending
  rw [← hpending] at hhead
  obtain ⟨entry, hentry, heq⟩ := Option.map_eq_some_iff.1 holdest
  exact hhead entry hentry (heq ▸ hdone)

/-! ## The contract -/

/-- What the caller of a pool relies on. -/
structure PoolContract (alloc : Nat → Slot) (depth : Nat) (owned : Bool) (s : PoolRun) :
    Prop where
  /-- Every index is in exactly one of taken, free and pending. -/
  partition : (s.taken ++ s.pool.free ++ s.pool.pending.map Prod.fst).Perm (List.range depth)
  second_release : ∀ index < depth, index ∉ s.taken → ∀ event,
    s.pool.release index event = .error .slotAlreadyFree
  owned_event : owned = true → ∀ index event,
    ∃ error, s.pool.release index (some event) = .error error
  raise_unchanged : ∀ index event error, s.pool.release index event = .error error →
    s.release index event = s
  take_possible : s.pool.free ≠ [] → ∃ s', s.take alloc = some s'
  /-- A slot is handed out with memory, and after the event of its last release. -/
  take_ready : ∀ s', s.take alloc = some s' → ∃ index memory,
    s'.taken = index :: s.taken ∧ s'.handed = s.handed ++ [memory] ∧
    s'.pool.slot index = .ok memory ∧ ∀ event ∈ s.lastEvent index, event ∈ s.completed
  /-- No memory is handed out twice. -/
  owned_fresh : owned = true → s.handed.Nodup
  slot_ok : ∀ index ∈ s.taken, ∃ slot, s.pool.slot index = .ok slot
  wait_raises : ∀ error pool, s.pool.waitForFree s.completed = (.error error, pool) →
    pool.free = [] ∧ pool.pending = []
  wait_returns : ∀ pool, s.pool.waitForFree s.completed = (.ok none, pool) → pool.free ≠ []
  synchronized_returns : ∀ s', poolStep alloc s .synchronized = some s' → s'.pool.free ≠ []

/-- What an invariant state gives the caller. -/
theorem PoolInv.contract (h : PoolInv alloc depth owned s) (hwaits : WaitsForOldest s) :
    PoolContract alloc depth owned s where
  partition := by
    rw [List.append_assoc]
    exact h.partition
  second_release := fun index hindex htaken event => by
    have hidle : index ∈ s.pool.idle := by
      have hmem : index ∈ s.taken ++ s.pool.idle :=
        h.partition.mem_iff.2 (List.mem_range.2 hindex)
      exact (List.mem_append.1 hmem).resolve_left htaken
    unfold SlotPool.release
    rw [if_pos (List.mem_append.1 hidle)]
  owned_event := fun howned index event => by
    have hpool : s.pool.owned = true := h.owned_eq.trans howned
    cases hrelease : s.pool.release index (some event) with
    | error error => exact ⟨error, rfl⟩
    | ok pool =>
        have hnone := (release_ok_iff.1 hrelease).2.1 hpool
        cases hnone
  raise_unchanged := fun index event error herror => by
    unfold PoolRun.release
    rw [herror]
  take_possible := fun hfree => by
    cases hlist : s.pool.free with
    | nil => exact absurd hlist hfree
    | cons index free =>
        obtain ⟨memory, pool, -, heq⟩ := h.take_eq hlist
        exact ⟨_, heq⟩
  take_ready := fun s' hstep => by
    cases hlist : s.pool.free with
    | nil => simp [PoolRun.take, hlist] at hstep
    | cons index free =>
        obtain ⟨memory, pool, htakes, heq⟩ := h.take_eq hlist
        cases heq.symm.trans hstep
        refine ⟨index, memory, rfl, rfl, ?_, ?_⟩
        · have hmemory : pool.slots.getD index none = some memory := htakes.memory_eq
          simp only [SlotPool.slot, hmemory]
        · apply h.free_event index
          rw [hlist]
          exact List.mem_cons_self
  owned_fresh := h.handed_nodup
  slot_ok := fun index hindex => by
    obtain ⟨slot, hslot⟩ := Option.ne_none_iff_exists'.1 (h.taken_memory index hindex)
    have hget : s.pool.slots.getD index none = some slot := hslot
    exact ⟨slot, by simp only [SlotPool.slot, hget]⟩
  wait_raises := fun error pool hwait => by
    rcases waitForFree_cases s.pool s.completed with ⟨heq, -⟩ | ⟨heq, hempty⟩ | ⟨_, _, -, heq⟩
    · cases heq.symm.trans hwait
    · cases heq.symm.trans hwait
      exact hempty
    · cases heq.symm.trans hwait
  wait_returns := fun pool hwait => by
    rcases waitForFree_cases s.pool s.completed with ⟨heq, hfree⟩ | ⟨heq, -⟩ | ⟨_, _, -, heq⟩
    · cases heq.symm.trans hwait
      exact hfree
    · cases heq.symm.trans hwait
    · cases heq.symm.trans hwait
  synchronized_returns := fun s' hstep => by
    simp only [poolStep] at hstep
    split at hstep
    · cases hstep
    · rename_i event hevent
      split at hstep
      · rename_i hdone
        cases hstep
        exact free_sweepPending_ne_nil (hwaits event hevent) hdone
      · cases hstep

end Steps

/--
Along every sequence of calls, with events that complete in any order, the pool keeps its
contract.
-/
theorem slot_pool_contract {alloc : Nat → Slot} (halloc : Function.Injective alloc)
    (depth : Nat) (owned : Bool) {calls : List PoolCall} {s : PoolRun}
    (hrun : run (poolStep alloc) (PoolRun.start alloc depth owned) calls = some s) :
    PoolContract alloc depth owned s := by
  have hinv : PoolInv alloc depth owned s :=
    run_invariant (fun _ _ _ h hstep => h.step halloc hstep) (poolInv_start halloc depth owned)
      hrun
  have hwaits : WaitsForOldest s :=
    run_invariant (fun _ _ _ h hstep => WaitsForOldest.step h hstep)
      (fun _ hevent => by cases hevent) hrun
  exact hinv.contract hwaits

/-- A slot of a device ring that is released with an event, waited for and taken again. -/
theorem slot_pool_contract_oneSlot :
    ∃ s, run (poolStep fun k => ⟨64 * k, 64⟩) (PoolRun.start (fun k => ⟨64 * k, 64⟩) 1 false)
        [.take, .release 0 (some 7), .waitForFree, .completes 7, .synchronized, .take] =
          some s ∧
      s.taken = [0] ∧ PoolContract (fun k => ⟨64 * k, 64⟩) 1 false s := by
  have hfresh : Function.Injective fun k : Nat => Slot.mk (64 * k) 64 := by
    intro i j hij
    have haddress : 64 * i = 64 * j := congrArg Slot.address hij
    omega
  exact ⟨_, rfl, rfl, @slot_pool_contract _ hfresh 1 false
    [.take, .release 0 (some 7), .waitForFree, .completes 7, .synchronized, .take] _ rfl⟩

end FileStreamer
end ModelStreamer
