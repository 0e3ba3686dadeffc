import Mathlib.Tactic.Common

/-!
# The slots of a ring

A fixed number of buffers is taken one at a time and given back once drained.  A slot of a
device ring is given back with an event, and stays pending until the event has completed.
-/

namespace ModelStreamer
namespace FileStreamer

/-- The exceptions of a stream. -/
inductive StreamError where
  /-- {lit}`next_request` without a free buffer. -/
  | noFreeBuffer
  /-- The ranges of a request do not fit a slot. -/
  | doesNotFit
  /-- A request that has no buffer is released. -/
  | releasedTwice
  /-- A slot of a device ring is released without an event. -/
  | needsEvent
  /-- A slot that is free or pending is released. -/
  | slotAlreadyFree
  /-- An owned slot is released with an event. -/
  | ownedWithEvent
  /-- No slot is free and none is pending. -/
  | nothingPending
  /-- An index names a slot that was given away. -/
  | slotGivenAway
  /-- A file id appears twice in one stream. -/
  | duplicateFile
  /-- A response was mapped to a file that is not in the stream. -/
  | unknownFile
  /-- A response for a submission that is not live. -/
  | unknownSubmission
  /-- A submission ran out of ranges before the library reported it complete. -/
  | notReportedDone
  /-- {lit}`MemoryError` of an allocation. -/
  | memoryError
deriving DecidableEq, Repr

/-- {lit}`Slot`: the memory of a slot is {lit}`length` bytes at {lit}`address`. -/
structure Slot where
  address : Nat
  length : Nat
deriving DecidableEq, Repr

/-- {lit}`SlotPool`.  An event is a number, and a slot that was given away is {lit}`none`. -/
structure SlotPool where
  owned : Bool
  slots : List (Option Slot)
  free : List Nat
  pending : List (Nat × Nat)
deriving DecidableEq, Repr

/-- {lit}`_sweep_pending`: free the oldest slots whose events have completed. -/
def sweep (completed : List Nat) : List Nat → List (Nat × Nat) → List Nat × List (Nat × Nat)
  | free, [] => (free, [])
  | free, (index, event) :: pending =>
      if event ∈ completed then sweep completed (free ++ [index]) pending
      else (free, (index, event) :: pending)

/-- {lit}`_sweep_pending` of a pool. -/
def SlotPool.sweepPending (pool : SlotPool) (completed : List Nat) : SlotPool :=
  let (free, pending) := sweep completed pool.free pool.pending
  { pool with free, pending }

/-- {lit}`has_free`, which sweeps first. -/
def SlotPool.hasFree (pool : SlotPool) (completed : List Nat) : Bool × SlotPool :=
  let pool := pool.sweepPending completed
  (0 < pool.free.length, pool)

/--
{lit}`take`: the next free slot, with the memory of {lit}`fresh` if it has none.  The
allocation raises when there is no fresh memory.
-/
def SlotPool.take (pool : SlotPool) (fresh : Option Slot) : Except StreamError Nat × SlotPool :=
  match pool.free with
  | [] => (.error .noFreeBuffer, pool)
  | index :: free =>
      -- the index is popped before anything can raise
      let pool := { pool with free }
      if pool.slots.getD index none = none then
        match fresh with
        | none => (.error .memoryError, pool)
        | some memory => (.ok index, { pool with slots := pool.slots.set index (some memory) })
      else (.ok index, pool)

/-- {lit}`take` by an allocator that does not raise. -/
def SlotPool.takeFresh (pool : SlotPool) (fresh : Slot) : Option (Nat × SlotPool) :=
  match pool.take (some fresh) with
  | (.ok index, pool) => some (index, pool)
  | (.error _, _) => none

@[simp]
theorem takeFresh_nil {pool : SlotPool} (fresh : Slot) (hfree : pool.free = []) :
    pool.takeFresh fresh = none := by
  simp [SlotPool.takeFresh, SlotPool.take, hfree]

/-- A take that finds a free slot. -/
theorem takeFresh_cons {pool : SlotPool} (fresh : Slot) {index : Nat} {free : List Nat}
    (hfree : pool.free = index :: free) :
    pool.takeFresh fresh =
      some (index,
        { pool with
          free
          slots :=
            if pool.slots.getD index none = none then pool.slots.set index (some fresh)
            else pool.slots }) := by
  simp only [SlotPool.takeFresh, SlotPool.take, hfree]
  split_ifs <;> rfl

/-- {lit}`release`. -/
def SlotPool.release (pool : SlotPool) (index : Nat) (event : Option Nat) :
    Except StreamError SlotPool :=
  if index ∈ pool.free ∨ index ∈ pool.pending.map Prod.fst then .error .slotAlreadyFree
  else if pool.owned ∧ event.isSome then .error .ownedWithEvent
  else
    let slots := if pool.owned then pool.slots.set index none else pool.slots
    match event with
    | none => .ok { pool with slots, free := pool.free ++ [index] }
    | some event => .ok { pool with slots, pending := pool.pending ++ [(index, event)] }

/-- {lit}`slot`: a slot that was taken. -/
def SlotPool.slot (pool : SlotPool) (index : Nat) : Except StreamError Slot :=
  match pool.slots.getD index none with
  | some slot => .ok slot
  | none => .error .slotGivenAway

/-- A new pool, whose slots are the first ones that {lit}`alloc` returns. -/
def SlotPool.make (depth : Nat) (alloc : Nat → Slot) (owned : Bool) : SlotPool :=
  { owned
    slots := (List.range depth).map fun i => some (alloc i)
    free := List.range depth
    pending := [] }

/-- {lit}`wait_for_free` up to {lit}`synchronize`: there is a free slot, or an event to wait for. -/
def SlotPool.waitForFree (pool : SlotPool) (completed : List Nat) :
    Except StreamError (Option Nat) × SlotPool :=
  let (free, pool) := pool.hasFree completed
  if free then (.ok none, pool)
  else
    match pool.pending with
    | [] => (.error .nothingPending, pool)
    | (_, event) :: _ => (.ok (some event), pool)

/-- An index of a slice, counted from the end when it is negative. -/
def sliceIndex (length : Nat) (i : Int) : Nat :=
  if i < 0 then (i + length).toNat else min i.toNat length

/-- {lit}`memory[start: stop]` of a slot, as the memory it covers. -/
def Slot.slice (slot : Slot) (start stop : Int) : Slot :=
  let first := sliceIndex slot.length start
  { address := slot.address + first, length := sliceIndex slot.length stop - first }

end FileStreamer
end ModelStreamer
