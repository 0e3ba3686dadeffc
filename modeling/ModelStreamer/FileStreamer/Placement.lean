import ModelStreamer.FileStreamer.RingPlanner
import ModelStreamer.FileStreamer.SlotPoolRuns
import ModelStreamer.Lib.Layout

/-!
# Requests in the slots of a ring

{lit}`FilesRequestsIteratorWithBuffer` takes a slot for each request and gives every range of the
request an address in it.  Where a direct read can land on the slot, a range is moved forward
until its address is congruent with its offset in the file.

Main results:

- Theorem {lit}`place_eq`: what {lit}`_place` answers, as a layout.
- Theorem {lit}`destinations_laysOut`: the addresses of a request that fits the buffer.
- Theorem {lit}`next_request_places`: every request of a run lies in a slot of its own.
-/

namespace ModelStreamer
namespace FileStreamer

open Distributed Lib

/-! ## The ring as an iterator -/

/-- {lit}`FilesRequestsIteratorWithBuffer`. -/
structure RingIterator where
  filesRequestsIterator : FilesRequestsIterator
  pool : SlotPool
  allocated : Nat

/-- The memory of an allocation. -/
def Ring.memory (ring : Ring) (k : Nat) : Slot :=
  ⟨ring.alloc k, ring.slotSize⟩

/-- A new ring, which packs to the size of its buffers. -/
def RingIterator.make (ring : Ring) (files : List FileChunks) : RingIterator :=
  { filesRequestsIterator := .make ring.bufferSize files
    pool := .make ring.numBuffers ring.memory ring.kind.owned
    allocated := ring.numBuffers }

/--
{lit}`next_request`: the next request with its {lit}`buffer_index`.  If {lit}`raises`, an
allocation that the call makes ends with {lit}`MemoryError`.
-/
def RingIterator.nextRequest (ring : Ring) (completed : List Nat) (it : RingIterator)
    (raises : Bool) : Except StreamError (Option (Nat × FilesRequest)) × RingIterator :=
  let (free, pool) := it.pool.hasFree completed
  let it := { it with pool }
  if free = false then (.error .noFreeBuffer, it)
  else
    let (request, iterator) := it.filesRequestsIterator.nextRequest
    let it := { it with filesRequestsIterator := iterator }
    match request with
    | none => (.ok none, it)
    | some request =>
        match pool.take (if raises then none else some (ring.memory it.allocated)) with
        | (.error e, pool) => (.error e, { it with pool })
        | (.ok index, pool) =>
            let it := { it with pool, allocated := it.allocated + 1 }
            match pool.slot index with
            | .error e => (.error e, it)
            | .ok slot =>
                match ring.destinations request slot.address with
                | some dsts => (.ok (some (index, { request with rangeDsts := dsts })), it)
                | none =>
                    -- straight to the pool: nothing was written, so no event is owed
                    match pool.release index none with
                    | .error e => (.error e, it)
                    | .ok pool => (.error .doesNotFit, { it with pool })

/-- {lit}`release` of the ring. -/
def RingIterator.release (ring : Ring) (it : RingIterator) (index : Nat) (event : Option Nat) :
    Except StreamError RingIterator :=
  if event = none ∧ ring.kind.reuseNeedsEvent then .error .needsEvent
  else (it.pool.release index event).map fun pool => { it with pool }

/-- A ring in use, with the requests whose slots its caller has. -/
structure RingRun where
  it : RingIterator
  completed : List Nat
  held : List (Nat × FilesRequest)

/-- What can happen next. -/
inductive RingCall where
  /-- An allocation that the call makes may raise. -/
  | nextRequest (raises : Bool)
  /-- The caller gives back the slot of one of its requests. -/
  | release (index : Nat) (event : Option Nat)
  /-- The device has passed an event. -/
  | completes (event : Nat)
deriving DecidableEq, Repr

/-- A ring that was just made. -/
def RingRun.start (ring : Ring) (files : List FileChunks) : RingRun :=
  { it := .make ring files, completed := [], held := [] }

/-- The transition function. -/
def ringStep (ring : Ring) (s : RingRun) : RingCall → Option RingRun
  | .nextRequest raises =>
      match s.it.nextRequest ring s.completed raises with
      | (.ok (some held), it) => some { s with it, held := held :: s.held }
      | (_, it) => some { s with it }
  | .release index event =>
      if index ∈ s.held.map Prod.fst then
        match s.it.release ring index event with
        | .error _ => some s
        | .ok it => some { s with it, held := s.held.filter (·.1 ≠ index) }
      else none
  | .completes event => some { s with completed := event :: s.completed }

/-! ## Layouts -/

section Layouts

variable {ring : Ring} {request : FilesRequest} {base : Nat}

/-- Where {lit}`_place` may start a range. -/
def startRule (aligned : Bool) (directBlock : Nat) : Nat → Nat → Nat :=
  if aligned then nextCongruent directBlock else nextTight

theorem le_startRule (aligned : Bool) (directBlock offset cursor : Nat) :
    cursor ≤ startRule aligned directBlock offset cursor := by
  unfold startRule
  split
  · exact le_nextCongruent directBlock offset cursor
  · exact le_nextTight offset cursor

/-- {lit}`_place` answers the layout, unless its end is past the limit. -/
theorem placeRanges_eq {aligned : Bool} {directBlock limit cursor : Nat}
    {ranges : List (Nat × Nat)} (hcursor : cursor ≤ limit) :
    placeRanges aligned directBlock limit cursor ranges =
      if layoutEnd (startRule aligned directBlock) cursor ranges ≤ limit then
        some (layout (startRule aligned directBlock) cursor ranges)
      else none := by
  induction ranges generalizing cursor with
  | nil => exact (if_pos hcursor).symm
  | cons range ranges ih =>
      obtain ⟨offset, size⟩ := range
      have hstart : (if aligned = true then
          cursor + (((offset : Int) - cursor) % directBlock).toNat else cursor) =
            startRule aligned directBlock offset cursor := by
        unfold startRule
        split
        · rfl
        · rfl
      have hend : layoutEnd (startRule aligned directBlock) cursor ((offset, size) :: ranges) =
          layoutEnd (startRule aligned directBlock)
            (startRule aligned directBlock offset cursor + size) ranges := rfl
      simp only [placeRanges, hstart]
      rw [hend]
      by_cases hover : limit < startRule aligned directBlock offset cursor + size
      · -- nothing that follows ends earlier
        have hle := @le_layoutEnd (startRule aligned directBlock)
          (startRule aligned directBlock offset cursor + size) ranges
          (le_startRule aligned directBlock)
        rw [if_pos hover, if_neg (by omega)]
      · rw [if_neg hover, ih (Nat.not_lt.1 hover)]
        split
        · rfl
        · rfl

/-- {lit}`_place` in a slot. -/
theorem place_eq (aligned : Bool) :
    ring.place request base aligned =
      if layoutEnd (startRule aligned ring.directBlock) base request.ranges ≤
          base + ring.slotSize then
        some (layout (startRule aligned ring.directBlock) base request.ranges)
      else none :=
  placeRanges_eq (Nat.le_add_right _ _)

/-- The aligned layout of a request fits the slot at an address. -/
def Ring.FitsAligned (ring : Ring) (request : FilesRequest) (base : Nat) : Prop :=
  layoutEnd (nextCongruent ring.directBlock) base request.ranges ≤ base + ring.slotSize

instance (ring : Ring) (request : FilesRequest) (base : Nat) :
    Decidable (ring.FitsAligned request base) :=
  inferInstanceAs (Decidable (_ ≤ _))

/-- How a request lies in a slot. -/
structure LaysOut (ring : Ring) (slot : Slot) (request : FilesRequest) : Prop where
  length_eq : request.rangeDsts.length = request.ranges.length
  inside : ∀ (i dst : Nat) (range : Nat × Nat), request.rangeDsts[i]? = some dst →
    request.ranges[i]? = some range → slot.address ≤ dst ∧ dst + range.2 ≤
      slot.address + slot.length
  /-- The ranges are in order, and pairwise disjoint. -/
  in_order : ∀ (i j dst dst' : Nat) (range : Nat × Nat), i < j →
    request.rangeDsts[i]? = some dst → request.ranges[i]? = some range →
    request.rangeDsts[j]? = some dst' → dst + range.2 ≤ dst'
  /-- Ranges that are adjacent in the file get adjacent addresses. -/
  adjacent : ∀ (i dst dst' : Nat) (range range' : Nat × Nat),
    request.rangeDsts[i]? = some dst → request.ranges[i]? = some range →
    request.rangeDsts[i + 1]? = some dst' → request.ranges[i + 1]? = some range' →
    range'.1 = range.1 + range.2 → dst' = dst + range.2
  /-- The aligned layout: each range is moved no further than to the next congruent address. -/
  aligned : ring.kind.directIo = true → ring.FitsAligned request slot.address →
    ∀ (i dst : Nat) (range : Nat × Nat), request.rangeDsts[i]? = some dst →
      request.ranges[i]? = some range →
      IsLeast {a | previousEnd slot.address request.ranges request.rangeDsts i ≤ a ∧
        a ≡ range.1 [MOD ring.directBlock]} dst
  /-- The tight layout: each range starts where the one before ends. -/
  tight : ¬ (ring.kind.directIo = true ∧ ring.FitsAligned request slot.address) →
    ∀ (i dst : Nat), request.rangeDsts[i]? = some dst →
      dst = previousEnd slot.address request.ranges request.rangeDsts i

/-- Which layout {lit}`next_request` uses; the tight one always fits. -/
theorem destinations_eq (hfits : (request.ranges.map Prod.snd).sum ≤ ring.bufferSize)
    (base : Nat) :
    ring.destinations request base =
      some (layout
        (startRule (ring.kind.directIo && ring.FitsAligned request base) ring.directBlock) base
        request.ranges) := by
  have htight : ring.place request base false =
      some (layout (startRule false ring.directBlock) base request.ranges) := by
    have hend : layoutEnd (startRule false ring.directBlock) base request.ranges =
        base + (request.ranges.map Prod.snd).sum := layoutEnd_tight base request.ranges
    rw [place_eq, hend, if_pos]
    have hsize : ring.bufferSize ≤ ring.slotSize := Nat.le_add_right _ _
    omega
  unfold Ring.destinations
  cases hdirect : ring.kind.directIo with
  | false => rw [htight, Bool.false_and]
  | true =>
      rw [place_eq, Bool.true_and]
      by_cases haligned : ring.FitsAligned request base
      · rw [if_pos (show layoutEnd (startRule true ring.directBlock) base request.ranges ≤
          base + ring.slotSize from haligned), decide_eq_true haligned]
      · rw [if_neg (show ¬ layoutEnd (startRule true ring.directBlock) base request.ranges ≤
          base + ring.slotSize from haligned), decide_eq_false haligned]
        exact htight

/-- A request that fits the buffer is laid out in its slot. -/
theorem destinations_laysOut (hfits : (request.ranges.map Prod.snd).sum ≤ ring.bufferSize)
    (base : Nat) :
    ∃ dsts, ring.destinations request base = some dsts ∧
      LaysOut ring ⟨base, ring.slotSize⟩ { request with rangeDsts := dsts } := by
  refine ⟨_, destinations_eq hfits base, ?_⟩
  generalize halign : (ring.kind.directIo && decide (ring.FitsAligned request base)) = aligned
  have hstart := le_startRule aligned ring.directBlock
  have hrule : ∀ {i dst : Nat} {range : Nat × Nat},
      (layout (startRule aligned ring.directBlock) base request.ranges)[i]? = some dst →
      request.ranges[i]? = some range →
      dst = startRule aligned ring.directBlock range.1 (previousEnd base request.ranges
        (layout (startRule aligned ring.directBlock) base request.ranges) i) := by
    intro i dst range hdst hrange
    have hi := (List.getElem?_eq_some_iff.1 hrange).1
    rw [getElem?_layout, hrange] at hdst
    cases hdst
    rw [previousEnd_layout hi.le]
  have hend : layoutEnd (startRule aligned ring.directBlock) base request.ranges ≤
      base + ring.slotSize := by
    cases aligned with
    | true =>
        rw [Bool.and_eq_true, decide_eq_true_eq] at halign
        exact halign.2
    | false =>
        have htight : layoutEnd (startRule false ring.directBlock) base request.ranges =
            base + (request.ranges.map Prod.snd).sum := layoutEnd_tight base request.ranges
        have hsize : ring.bufferSize ≤ ring.slotSize := Nat.le_add_right _ _
        omega
  exact
    { length_eq := length_layout
      inside := fun i dst range hdst hrange => by
        obtain ⟨hlow, hhigh⟩ := layout_inside hstart hdst hrange
        exact ⟨hlow, hhigh.trans hend⟩
      in_order := fun i j dst dst' range hij hdst hrange hdst' =>
        layout_disjoint hstart hij hdst hrange hdst'
      adjacent := fun i dst dst' range range' hdst hrange hdst' hrange' hadjacent => by
        have hfirst := hrule hdst hrange
        have hsecond := hrule hdst' hrange'
        have hprevious : previousEnd base request.ranges
            (layout (startRule aligned ring.directBlock) base request.ranges) (i + 1) =
              dst + range.2 := by
          simp only [previousEnd, List.getD_eq_getElem?_getD]
          rw [show (layout (startRule aligned ring.directBlock) base request.ranges)[i]? =
            some dst from hdst, show request.ranges[i]? = some range from hrange]
          rfl
        rw [hprevious, hadjacent] at hsecond
        rw [hsecond]
        cases aligned with
        | true =>
            rw [hfirst]
            exact nextCongruent_adjacent ring.block_pos _ _ _
        | false => rfl
      aligned := fun hdirect haligned i dst range hdst hrange => by
        have htrue : aligned = true := by
          rw [← halign, hdirect, Bool.true_and]
          exact decide_eq_true haligned
        subst htrue
        rw [hrule hdst hrange]
        exact isLeast_nextCongruent ring.block_pos _ _
      tight := fun hnot i dst hdst => by
        have hfalse : aligned = false := by
          rw [← halign, ← Bool.not_eq_true, Bool.and_eq_true, decide_eq_true_eq]
          exact hnot
        subst hfalse
        have hi : i < request.ranges.length := by
          rw [← @length_layout (startRule false ring.directBlock) base]
          exact (List.getElem?_eq_some_iff.1 hdst).1
        exact hrule hdst (List.getElem?_eq_getElem hi) }

end Layouts

/-! ## Calls of a ring -/

/-- A request holds no more than the iterator packs to. -/
theorem nextRequest_fits {it : FilesRequestsIterator} (h : IndicesOk it.q) :
    IndicesOk it.nextRequest.2.q ∧ it.nextRequest.2.memoryLimit = it.memoryLimit ∧
      ∀ request ∈ it.nextRequest.1, (request.ranges.map Prod.snd).sum ≤ it.memoryLimit := by
  have hpack := @packRequest_sizes it.memoryLimit _ 0 .empty it.assignedRanges it.q
    (le_refl (packingTurns it.q)) (fun _ hfile => absurd hfile List.not_mem_nil) h rfl
    (Nat.zero_le _)
  unfold FilesRequestsIterator.nextRequest
  generalize packRequest it.memoryLimit (packingTurns it.q) 0 .empty it.assignedRanges it.q =
    result at hpack ⊢
  obtain ⟨packed, assigned, q⟩ := result
  refine ⟨hpack.indicesOk, rfl, fun request hrequest => ?_⟩
  simp only at hrequest
  split at hrequest
  · cases hrequest
  · cases hrequest
    rw [← (flatMap_offsets_sizes packed).2]
    exact hpack.fits

section Calls

variable {ring : Ring} {completed : List Nat} {it : RingIterator}

/-- The slots of a pool, and their memory. -/
structure SlotsOk (ring : Ring) (pool : SlotPool) : Prop where
  idle_lt : ∀ index ∈ pool.idle, index < pool.slots.length
  idle_nodup : pool.idle.Nodup
  memory_length : ∀ index, ∀ slot ∈ pool.memory index, slot.length = ring.slotSize

/-- A sweep keeps the slots. -/
theorem SlotsOk.sweepPending (h : SlotsOk ring it.pool) (completed : List Nat) :
    SlotsOk ring (it.pool.sweepPending completed) := by
  have hidle := (sweepPending_spec it.pool completed).1
  exact ⟨fun index hindex => h.idle_lt index (hidle ▸ hindex), hidle.symm ▸ h.idle_nodup,
    h.memory_length⟩

/-- What {lit}`next_request` may do to a ring. -/
inductive NextRequest (ring : Ring) (completed : List Nat) (it : RingIterator) :
    Except StreamError (Option (Nat × FilesRequest)) × RingIterator → Prop
  | noFree (hfree : (it.pool.sweepPending completed).free = []) :
      NextRequest ring completed it
        (.error .noFreeBuffer, { it with pool := it.pool.sweepPending completed })
  | finished (hnone : it.filesRequestsIterator.nextRequest.1 = none) :
      NextRequest ring completed it
        (.ok none,
          { it with
            filesRequestsIterator := it.filesRequestsIterator.nextRequest.2
            pool := it.pool.sweepPending completed })
  | placed {request : FilesRequest} {index : Nat} {slot : Slot} {pool : SlotPool}
      {dsts : List Nat} (hsome : it.filesRequestsIterator.nextRequest.1 = some request)
      (htakes : Takes (it.pool.sweepPending completed) (ring.memory it.allocated) index slot pool)
      (hdsts : ring.destinations request slot.address = some dsts) :
      NextRequest ring completed it
        (.ok (some (index, { request with rangeDsts := dsts })),
          { filesRequestsIterator := it.filesRequestsIterator.nextRequest.2
            pool
            allocated := it.allocated + 1 })
  | tooLarge {request : FilesRequest} {index : Nat} {slot : Slot} {pool pool' : SlotPool}
      (hsome : it.filesRequestsIterator.nextRequest.1 = some request)
      (htakes : Takes (it.pool.sweepPending completed) (ring.memory it.allocated) index slot pool)
      (hdsts : ring.destinations request slot.address = none)
      (hback : pool.release index none = .ok pool') :
      NextRequest ring completed it
        (.error .doesNotFit,
          { filesRequestsIterator := it.filesRequestsIterator.nextRequest.2
            pool := pool'
            allocated := it.allocated + 1 })

/--
The call makes an allocation that raises: a request is left, and the slot that it takes was
given away.
-/
def RingIterator.AllocationRaises (completed : List Nat) (it : RingIterator) (raises : Bool) :
    Prop :=
  raises = true ∧ it.filesRequestsIterator.nextRequest.1.isSome = true ∧
    ∃ index ∈ (it.pool.sweepPending completed).free.head?, it.pool.memory index = none

instance (completed : List Nat) (it : RingIterator) (raises : Bool) :
    Decidable (it.AllocationRaises completed raises) :=
  inferInstanceAs (Decidable (_ ∧ _ ∧ _))

/-- A call whose allocations return is a call on which none would raise. -/
theorem nextRequest_of_returns {raises : Bool} (h : ¬ it.AllocationRaises completed raises) :
    it.nextRequest ring completed raises = it.nextRequest ring completed false := by
  cases raises with
  | false => rfl
  | true =>
      unfold RingIterator.nextRequest SlotPool.hasFree
      simp only
      cases hfree : (it.pool.sweepPending completed).free with
      | nil => rfl
      | cons index free =>
          cases hrequest : it.filesRequestsIterator.nextRequest.1 with
          | none => rfl
          | some request =>
              have hmemory : (it.pool.sweepPending completed).memory index ≠ none := by
                intro hnone
                apply h
                refine ⟨rfl, by rw [hrequest]; rfl, index, ?_, hnone⟩
                rw [hfree]
                rfl
              rw [take_of_memory hfree hmemory]

/-- A call whose allocation raises has popped the index of its slot. -/
theorem nextRequest_of_raises {raises : Bool} (h : it.AllocationRaises completed raises) :
    ∃ index free, (it.pool.sweepPending completed).free = index :: free ∧
      it.nextRequest ring completed raises =
        (.error .memoryError,
          { it with
            filesRequestsIterator := it.filesRequestsIterator.nextRequest.2
            pool := { it.pool.sweepPending completed with free } }) := by
  obtain ⟨rfl, hsome, index, hhead, hmemory⟩ := h
  obtain ⟨free, hfree⟩ := List.head?_eq_some_iff.1 hhead
  obtain ⟨request, hrequest⟩ := Option.isSome_iff_exists.1 hsome
  refine ⟨index, free, hfree, ?_⟩
  unfold RingIterator.nextRequest SlotPool.hasFree
  have hpopped : (it.pool.sweepPending completed).take none =
      (.error .memoryError, { it.pool.sweepPending completed with free }) :=
    take_of_raises hfree hmemory
  simp only [hfree, hrequest, if_true, hpopped]
  rfl

/-- {lit}`next_request` does one of these, unless an allocation raises. -/
theorem nextRequest_cases (h : SlotsOk ring it.pool) :
    NextRequest ring completed it (it.nextRequest ring completed false) := by
  have hswept := h.sweepPending completed
  unfold RingIterator.nextRequest SlotPool.hasFree
  simp only
  cases hfree : (it.pool.sweepPending completed).free with
  | nil => exact .noFree hfree
  | cons index free =>
      have hlt : index < (it.pool.sweepPending completed).slots.length := by
        apply hswept.idle_lt
        unfold SlotPool.idle
        rw [hfree]
        exact List.mem_append_left _ List.mem_cons_self
      cases hrequest : it.filesRequestsIterator.nextRequest.1 with
      | none => exact .finished hrequest
      | some request =>
          obtain ⟨slot, pool, htake, htakes⟩ := takes_of_free (ring.memory it.allocated) hfree hlt
          have hslot : pool.slot index = .ok slot := by
            have hmemory : pool.slots.getD index none = some slot := htakes.memory_eq
            simp only [SlotPool.slot, hmemory]
          simp only [Bool.false_eq_true, if_false, take_of_takeFresh htake, hslot]
          cases hdsts : ring.destinations request slot.address with
          | some dsts => exact .placed hrequest htakes hdsts
          | none =>
              have hnew : index ∉ pool.idle := by
                have hnodup := hswept.idle_nodup
                unfold SlotPool.idle at hnodup ⊢
                rw [htakes.free_eq, List.cons_append, List.nodup_cons] at hnodup
                rw [htakes.pending_eq]
                exact hnodup.1
              have hback := release_ok_iff.2 ⟨hnew, fun _ => rfl, rfl⟩
              simp only [hback]
              exact .tooLarge hrequest htakes hdsts hback

/-- The slot that is taken was idle, and nothing else changes. -/
theorem perm_idle_of_takes {fresh slot : Slot} {index : Nat} {pool : SlotPool}
    (htakes : Takes (it.pool.sweepPending completed) fresh index slot pool) :
    it.pool.idle.Perm (index :: pool.idle) := by
  have hidle := (sweepPending_spec it.pool completed).1
  unfold SlotPool.idle at hidle ⊢
  rw [← hidle, htakes.free_eq, htakes.pending_eq]
  exact List.Perm.refl _

/-- The slot belongs to the request that is returned, or is back in the pool. -/
def KeepsSlots (pool : SlotPool) :
    Except StreamError (Option (Nat × FilesRequest)) × RingIterator → Prop
  | (.ok (some (index, _)), after) => pool.idle.Perm (index :: after.pool.idle)
  | (_, after) => pool.idle.Perm after.pool.idle

/-- No path on which the allocations return loses a slot. -/
theorem NextRequest.keepsSlots
    {result : Except StreamError (Option (Nat × FilesRequest)) × RingIterator}
    (h : NextRequest ring completed it result) : KeepsSlots it.pool result := by
  have hidle := (sweepPending_spec it.pool completed).1
  cases h with
  | noFree _ => exact List.Perm.of_eq hidle.symm
  | finished _ => exact List.Perm.of_eq hidle.symm
  | placed _ htakes _ => exact perm_idle_of_takes htakes
  | tooLarge _ htakes _ hback =>
      obtain ⟨-, -, rfl⟩ := release_ok_iff.1 hback
      exact (perm_idle_of_takes htakes).trans (perm_idle_release none).symm

/-- A call keeps the slots exactly when its allocations return. -/
theorem keepsSlots_iff (h : SlotsOk ring it.pool) (raises : Bool) :
    KeepsSlots it.pool (it.nextRequest ring completed raises) ↔
      ¬ it.AllocationRaises completed raises := by
  constructor
  · intro hkeeps hraises
    obtain ⟨index, free, hfree, heq⟩ := @nextRequest_of_raises ring _ _ _ hraises
    rw [heq] at hkeeps
    have hlength := List.Perm.length_eq hkeeps
    rw [← (sweepPending_spec it.pool completed).1] at hlength
    simp only [SlotPool.idle, hfree, List.length_append, List.length_cons] at hlength
    omega
  · intro hreturns
    rw [nextRequest_of_returns hreturns]
    exact (nextRequest_cases h).keepsSlots

end Calls

/-! ## Runs of a ring -/

section Runs

variable {ring : Ring} {files : List FileChunks} {s : RingRun}

/-- What every call of a ring keeps. -/
structure RingInv (ring : Ring) (s : RingRun) : Prop where
  indicesOk : IndicesOk s.it.filesRequestsIterator.q
  limit_eq : s.it.filesRequestsIterator.memoryLimit = ring.bufferSize
  partition : (s.held.map Prod.fst ++ s.it.pool.idle).Perm (List.range ring.numBuffers)
  length_eq : s.it.pool.slots.length = ring.numBuffers
  memory_length : ∀ index, ∀ slot ∈ s.it.pool.memory index, slot.length = ring.slotSize
  held_laysOut : ∀ entry ∈ s.held, ∃ slot, s.it.pool.memory entry.1 = some slot ∧
    LaysOut ring slot entry.2

/-- The slots of a ring in use are in order. -/
theorem RingInv.slotsOk (h : RingInv ring s) : SlotsOk ring s.it.pool where
  idle_lt := fun index hindex => by
    rw [h.length_eq]
    exact List.mem_range.1 (h.partition.mem_iff.1 (List.mem_append_right _ hindex))
  idle_nodup := (h.partition.nodup_iff.2 List.nodup_range).of_append_right
  memory_length := h.memory_length

/-- A new ring. -/
theorem ringInv_start (ring : Ring) (files : List FileChunks) :
    RingInv ring (.start ring files) where
  indicesOk := fun it hit => by
    obtain ⟨file, -, rfl⟩ := List.mem_map.1 hit
    exact Nat.zero_le _
  limit_eq := rfl
  partition := by
    change (List.range ring.numBuffers ++ ([] : List (Nat × Nat)).map Prod.fst).Perm _
    rw [List.map_nil, List.append_nil]
  length_eq := by simp [RingRun.start, RingIterator.make, SlotPool.make]
  memory_length := fun index slot hslot => by
    obtain ⟨-, rfl⟩ := mem_memory_make hslot
    rfl
  held_laysOut := fun entry hentry => absurd hentry List.not_mem_nil

/-- The request that {lit}`next_request` returns lies in the slot that it took. -/
theorem RingInv.laysOut (h : RingInv ring s) {request : FilesRequest} {index : Nat} {slot : Slot}
    {pool : SlotPool} {dsts : List Nat}
    (hsome : s.it.filesRequestsIterator.nextRequest.1 = some request)
    (htakes : Takes (s.it.pool.sweepPending s.completed) (ring.memory s.it.allocated) index slot
      pool)
    (hdsts : ring.destinations request slot.address = some dsts) :
    slot.length = ring.slotSize ∧ LaysOut ring slot { request with rangeDsts := dsts } := by
  have hlength : slot.length = ring.slotSize := by
    cases htakes.memory_cases with
    | inl hold => exact h.memory_length index slot hold
    | inr hfresh =>
        rw [hfresh]
        rfl
  have hfits := (nextRequest_fits h.indicesOk).2.2 request hsome
  rw [h.limit_eq] at hfits
  obtain ⟨found, hfound, hlays⟩ := destinations_laysOut hfits slot.address
  cases hfound.symm.trans hdsts
  rw [← hlength] at hlays
  exact ⟨hlength, hlays⟩

/-- A request that is packed to the buffer size always fits its slot. -/
theorem RingInv.fits (h : RingInv ring s) {request : FilesRequest} (base : Nat)
    (hsome : s.it.filesRequestsIterator.nextRequest.1 = some request) :
    ring.destinations request base ≠ none := by
  have hfits := (nextRequest_fits h.indicesOk).2.2 request hsome
  rw [h.limit_eq] at hfits
  rw [destinations_eq hfits]
  exact Option.some_ne_none _

/-- A call of {lit}`next_request` whose allocations return keeps the invariant. -/
theorem RingInv.nextRequest (h : RingInv ring s) {raises : Bool} {s' : RingRun}
    (hreturns : ¬ s.it.AllocationRaises s.completed raises)
    (hstep : ringStep ring s (.nextRequest raises) = some s') : RingInv ring s' := by
  have hcases := @nextRequest_cases ring s.completed s.it h.slotsOk
  have hidle := (sweepPending_spec s.it.pool s.completed).1
  obtain ⟨hindices, hlimit, -⟩ := nextRequest_fits h.indicesOk
  simp only [ringStep, nextRequest_of_returns hreturns] at hstep
  generalize s.it.nextRequest ring s.completed false = result at hcases hstep
  cases hcases with
  | noFree hfree =>
      cases hstep
      exact ⟨h.indicesOk, h.limit_eq, by rw [hidle]; exact h.partition, h.length_eq,
        h.memory_length, h.held_laysOut⟩
  | finished hnone =>
      cases hstep
      exact ⟨hindices, hlimit.trans h.limit_eq, by rw [hidle]; exact h.partition, h.length_eq,
        h.memory_length, h.held_laysOut⟩
  | @placed request index slot pool dsts hsome htakes hdsts =>
      cases hstep
      obtain ⟨hlength, hlays⟩ := h.laysOut hsome htakes hdsts
      have hperm := perm_idle_of_takes htakes
      have hnew : index ∉ s.held.map Prod.fst := by
        have hnodup := h.partition.nodup_iff.2 List.nodup_range
        intro hmem
        exact List.disjoint_of_nodup_append hnodup hmem
          (hperm.mem_iff.2 List.mem_cons_self)
      exact
        { indicesOk := hindices
          limit_eq := hlimit.trans h.limit_eq
          partition := by
            apply List.Perm.trans _ h.partition
            rw [List.map_cons, List.cons_append]
            exact List.perm_middle.symm.trans (hperm.symm.append_left _)
          length_eq := htakes.length_eq.trans h.length_eq
          memory_length := fun j memory hmemory => by
            by_cases hj : j = index
            · rw [hj, htakes.memory_eq] at hmemory
              cases hmemory
              exact hlength
            · rw [htakes.other_memory j hj] at hmemory
              exact h.memory_length j memory hmemory
          held_laysOut := fun entry hentry => by
            cases List.mem_cons.1 hentry with
            | inl hhead =>
                rw [hhead]
                exact ⟨slot, htakes.memory_eq, hlays⟩
            | inr htail =>
                have hj : entry.1 ≠ index := fun heq =>
                  hnew (heq ▸ List.mem_map_of_mem htail)
                obtain ⟨memory, hmemory, hold⟩ := h.held_laysOut entry htail
                exact ⟨memory, (htakes.other_memory _ hj).trans hmemory, hold⟩ }
  | tooLarge hsome htakes hdsts hback => exact absurd hdsts (h.fits _ hsome)

/-- Giving back a slot keeps the invariant. -/
theorem RingInv.release (h : RingInv ring s) {index : Nat} (event : Option Nat) {s' : RingRun}
    (hstep : ringStep ring s (.release index event) = some s') : RingInv ring s' := by
  simp only [ringStep] at hstep
  split at hstep
  · rename_i hmem
    unfold RingIterator.release at hstep
    split at hstep
    · cases hstep
      exact h
    · rename_i it hok
      cases hstep
      split at hok
      · cases hok
      · cases hpool : s.it.pool.release index event with
        | error e =>
            rw [hpool] at hok
            cases hok
        | ok pool =>
            rw [hpool] at hok
            cases hok
            obtain ⟨hidle, -, rfl⟩ := release_ok_iff.1 hpool
            have hlt : index < s.it.pool.slots.length := by
              rw [h.length_eq]
              exact List.mem_range.1 (h.partition.mem_iff.1 (List.mem_append_left _ hmem))
            have hother : ∀ j, j ≠ index → (if s.it.pool.owned then
                s.it.pool.slots.set index none else s.it.pool.slots).getD j none =
                  s.it.pool.slots.getD j none := by
              intro j hj
              split
              · exact (getD_set_slots hlt _ j).trans (if_neg hj.symm)
              · rfl
            have hnodup : (s.held.map Prod.fst).Nodup :=
              (h.partition.nodup_iff.2 List.nodup_range).of_append_left
            have hheld : (s.held.filter (·.1 ≠ index)).map Prod.fst =
                (s.held.map Prod.fst).erase index := by
              rw [hnodup.erase_eq_filter, List.filter_map]
              congr 1
              refine List.filter_congr fun entry _ => ?_
              rw [Bool.eq_iff_iff]
              simp
            exact
              { indicesOk := h.indicesOk
                limit_eq := h.limit_eq
                partition := by
                  refine List.Perm.trans ?_ h.partition
                  rw [hheld]
                  refine List.Perm.trans ?_ ((List.perm_cons_erase hmem).append_right _).symm
                  rw [List.cons_append]
                  refine List.Perm.trans ?_ List.perm_middle
                  apply List.Perm.append_left
                  exact perm_idle_release event
                length_eq := by
                  change (if s.it.pool.owned then s.it.pool.slots.set index none
                    else s.it.pool.slots).length = ring.numBuffers
                  split
                  · rw [List.length_set, h.length_eq]
                  · exact h.length_eq
                memory_length := fun j memory hmemory => by
                  by_cases hj : j = index
                  · subst hj
                    unfold SlotPool.memory at hmemory
                    simp only at hmemory
                    split at hmemory
                    · rw [getD_set_slots hlt, if_pos rfl] at hmemory
                      cases hmemory
                    · exact h.memory_length j memory hmemory
                  · exact h.memory_length j memory ((hother j hj).symm.trans hmemory)
                held_laysOut := fun entry hentry => by
                  obtain ⟨hold, hne⟩ := List.mem_filter.1 hentry
                  have hj : entry.1 ≠ index := by simpa using hne
                  obtain ⟨memory, hmemory, hlays⟩ := h.held_laysOut entry hold
                  exact ⟨memory, (hother _ hj).trans hmemory, hlays⟩ }
  · cases hstep

/-- Every allocation that a call makes returns. -/
def RingCall.AllocationsReturn (s : RingRun) : RingCall → Prop
  | .nextRequest raises => ¬ s.it.AllocationRaises s.completed raises
  | _ => True

instance (s : RingRun) (call : RingCall) : Decidable (call.AllocationsReturn s) :=
  match call with
  | .nextRequest raises => inferInstanceAs (Decidable (¬ s.it.AllocationRaises s.completed raises))
  | .release _ _ => .isTrue trivial
  | .completes _ => .isTrue trivial

/-- Every call whose allocations return keeps the invariant. -/
theorem RingInv.step (h : RingInv ring s) {call : RingCall} (hreturns : call.AllocationsReturn s)
    {s' : RingRun} (hstep : ringStep ring s call = some s') : RingInv ring s' := by
  cases call with
  | nextRequest raises => exact h.nextRequest hreturns hstep
  | release index event => exact h.release event hstep
  | completes event =>
      cases hstep
      exact ⟨h.indicesOk, h.limit_eq, h.partition, h.length_eq, h.memory_length, h.held_laysOut⟩

/-- What a call of {lit}`next_request` may answer on a ring in use. -/
def PlacesNext (ring : Ring) (s : RingRun) (raises : Bool) : Prop :=
  match s.it.nextRequest ring s.completed raises with
  | (.ok (some (index, request)), after) =>
      ∃ packed slot, s.it.filesRequestsIterator.nextRequest.1 = some packed ∧
        request = { packed with rangeDsts := request.rangeDsts } ∧
        after.pool.slot index = .ok slot ∧ slot.length = ring.slotSize ∧
        LaysOut ring slot request ∧ s.it.pool.idle.Perm (index :: after.pool.idle)
  | (.ok none, after) =>
      s.it.filesRequestsIterator.nextRequest.1 = none ∧ s.it.pool.idle.Perm after.pool.idle
  | (.error e, after) =>
      (e = .memoryError ∨ e = .noFreeBuffer ∧ after.pool.free = []) ∧
        s.it.pool.idle.Perm after.pool.idle

/-- An answer that places the next request keeps the slots. -/
theorem PlacesNext.keepsSlots {raises : Bool} (h : PlacesNext ring s raises) :
    KeepsSlots s.it.pool (s.it.nextRequest ring s.completed raises) := by
  unfold PlacesNext at h
  generalize s.it.nextRequest ring s.completed raises = result at h ⊢
  obtain ⟨answer, after⟩ := result
  match answer, h with
  | .ok (some _), ⟨_, _, _, _, _, _, _, hkeeps⟩ => exact hkeeps
  | .ok none, h => exact h.2
  | .error _, h => exact h.2

/-- A ring in use places its next request if the allocations of the call return. -/
theorem RingInv.placesNext (h : RingInv ring s) {raises : Bool}
    (hreturns : ¬ s.it.AllocationRaises s.completed raises) : PlacesNext ring s raises := by
  have hcases := @nextRequest_cases ring s.completed s.it h.slotsOk
  have hidle := hcases.keepsSlots
  unfold PlacesNext
  rw [nextRequest_of_returns hreturns]
  generalize s.it.nextRequest ring s.completed false = result at hcases hidle ⊢
  cases hcases with
  | noFree hfree => exact ⟨.inr ⟨rfl, hfree⟩, hidle⟩
  | finished hnone => exact ⟨hnone, hidle⟩
  | @placed request index slot pool dsts hsome htakes hdsts =>
      obtain ⟨hlength, hlays⟩ := h.laysOut hsome htakes hdsts
      have hslot : pool.slot index = .ok slot := by
        have hmemory : pool.slots.getD index none = some slot := htakes.memory_eq
        simp only [SlotPool.slot, hmemory]
      exact ⟨request, slot, hsome, rfl, hslot, hlength, hlays, hidle⟩
  | tooLarge hsome htakes hdsts hback => exact absurd hdsts (h.fits _ hsome)

/-- A ring in use places its next request, exactly when the allocations of the call return. -/
theorem RingInv.placesNext_iff (h : RingInv ring s) (raises : Bool) :
    PlacesNext ring s raises ↔ ¬ s.it.AllocationRaises s.completed raises := by
  constructor
  · intro hplaces
    exact (keepsSlots_iff h.slotsOk raises).1 hplaces.keepsSlots
  · exact h.placesNext

end Runs

/--
Every request that a ring returns lies in a slot of its own, aligned where that fits and packed
tightly otherwise, and a request always fits, in every run whose allocations return.  A call
loses a slot exactly when it makes an allocation that raises, even if the requests were packed
to another size.
-/
theorem next_request_places (ring : Ring) (files : List FileChunks) {calls : List RingCall}
    {s : RingRun} (hreturns : EachStep (ringStep ring) (fun s call => call.AllocationsReturn s)
      (.start ring files) calls)
    (hrun : run (ringStep ring) (.start ring files) calls = some s) :
    (s.held.map Prod.fst ++ s.it.pool.idle).Perm (List.range ring.numBuffers) ∧
    (∀ entry ∈ s.held, ∃ slot, s.it.pool.slot entry.1 = .ok slot ∧
      slot.length = ring.slotSize ∧ LaysOut ring slot entry.2) ∧
    (∀ raises, PlacesNext ring s raises ↔ ¬ s.it.AllocationRaises s.completed raises) ∧
    ∀ filesRequestsIterator raises,
      KeepsSlots s.it.pool (({ s.it with filesRequestsIterator } : RingIterator).nextRequest
        ring s.completed raises) ↔
      ¬ ({ s.it with filesRequestsIterator } : RingIterator).AllocationRaises s.completed
        raises := by
  have hinv : RingInv ring s :=
    run_invariant_of (fun _ _ _ h hcall hstep => RingInv.step h hcall hstep)
      (ringInv_start ring files) hreturns hrun
  refine ⟨hinv.partition, fun entry hentry => ?_, hinv.placesNext_iff, fun iterator raises => ?_⟩
  · obtain ⟨slot, hmemory, hlays⟩ := hinv.held_laysOut entry hentry
    refine ⟨slot, ?_, hinv.memory_length _ slot hmemory, hlays⟩
    have hslot : s.it.pool.slots.getD entry.1 none = some slot := hmemory
    simp only [SlotPool.slot, hslot]
  · exact @keepsSlots_iff ring s.completed { s.it with filesRequestsIterator := iterator }
      hinv.slotsOk raises

/-- A ring of one buffer of six bytes, which gives its slots away. -/
def ownedRing : Ring :=
  ⟨6, 1, 4, 2, .host true, fun k => 9 + 16 * k, Nat.zero_lt_succ 0,
    Nat.zero_lt_succ 3⟩

/-- Two files, whose ranges need a request each. -/
def twoRequests : List FileChunks :=
  [⟨0, "a", [1], [2], rfl⟩, ⟨1, "b", [0, 3], [3, 4], rfl⟩]

/-- The second request takes a slot that was given away, with memory of its own. -/
theorem next_request_places_oneSlot :
    ∃ s, run (ringStep ownedRing) (.start ownedRing twoRequests)
        [.nextRequest true, .release 0 none, .nextRequest false] = some s ∧
      s.held.map (fun entry => (entry.1, entry.2.rangeDsts)) = [(0, [43])] ∧
      (PlacesNext ownedRing s true ↔ ¬ s.it.AllocationRaises s.completed true) := by
  obtain ⟨s, hrun, hheld⟩ := Option.map_eq_some_iff.1
    (show (run (ringStep ownedRing) (.start ownedRing twoRequests)
        [.nextRequest true, .release 0 none, .nextRequest false]).map
      (fun s => s.held.map fun entry => (entry.1, entry.2.rangeDsts)) = some [(0, [43])] by
      decide +kernel)
  have hreturns : EachStep (ringStep ownedRing) (fun s call => call.AllocationsReturn s)
      (.start ownedRing twoRequests)
      [.nextRequest true, .release 0 none, .nextRequest false] := by
    decide +kernel
  exact ⟨s, hrun, hheld, (next_request_places _ _ hreturns hrun).2.2.1 true⟩

/--
The only slot was given away, and its new memory cannot be had: the slot is neither under a
request nor in the pool, and the ring has none left.
-/
theorem raised_allocation_loses_slot :
    ∃ s, run (ringStep ownedRing) (.start ownedRing twoRequests)
        [.nextRequest false, .release 0 none] = some s ∧
      ¬ PlacesNext ownedRing s true ∧
      (run (ringStep ownedRing) (.start ownedRing twoRequests)
          [.nextRequest false, .release 0 none, .nextRequest true]).map
        (fun s => (s.held.map Prod.fst, s.it.pool.idle)) = some ([], []) := by
  obtain ⟨s, hrun, hlost⟩ := Option.map_eq_some_iff.1
    (show (run (ringStep ownedRing) (.start ownedRing twoRequests)
        [.nextRequest false, .release 0 none]).map
      (fun s => ((s.it.nextRequest ownedRing s.completed true).1.toOption.isSome,
        (s.it.nextRequest ownedRing s.completed true).2.pool.idle, s.it.pool.idle)) =
        some (false, [], [0]) by
      decide +kernel)
  simp only [Prod.mk.injEq] at hlost
  obtain ⟨hraised, hafter, hbefore⟩ := hlost
  refine ⟨s, hrun, fun hplaces => ?_, by decide +kernel⟩
  have hkeeps := hplaces.keepsSlots
  generalize s.it.nextRequest ownedRing s.completed true = result at hkeeps hraised hafter
  obtain ⟨answer, after⟩ := result
  cases answer with
  | ok => cases hraised
  | error e =>
      have hlength := List.Perm.length_eq (show s.it.pool.idle.Perm after.pool.idle from hkeeps)
      rw [hbefore, show after.pool.idle = [] from hafter] at hlength
      cases hlength

end FileStreamer
end ModelStreamer
