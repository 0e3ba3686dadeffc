import ModelStreamer.DeviceIo.StagingPool
import ModelStreamer.Lib.CondVar
import ModelStreamer.Lib.Run
import Mathlib.Logic.Function.Basic

/-!
# Runs of a staging pool

Any number of threads call {lit}`try_acquire`, {lit}`acquire`, {lit}`release`, {lit}`retire`
and {lit}`stop`.  What one of them does under the lock is one step; pinning memory, notifying
and waking up are steps of their own, so that the other threads can come in between.

Main results:

- Theorem {lit}`StagingInv.step`: what every step keeps.
- Theorem {lit}`stagingInv_run`: what holds at every point of every run.
-/

namespace ModelStreamer
namespace DeviceIo
namespace Staging

open Common
open Lib

/-! ## The steps -/

/-- The two calls that take a buffer. -/
inductive Acquire where
  | tryAcquire
  | acquire
deriving DecidableEq, Repr

/-- Where a thread is in such a call. -/
inductive Place where
  | outside
  /-- It is about to take the lock. -/
  | looking (call : Acquire)
  /-- In the wait of {lit}`acquire`. -/
  | waiting
  /-- In {lit}`host_alloc`, without the lock. -/
  | pinning (call : Acquire) (perSlab bytesize : Nat)
  /-- It has memory and is about to take the lock again. -/
  | pinned (call : Acquire) (perSlab : Nat) (slab : Slab)
deriving DecidableEq, Repr

/-- What a call returned. -/
structure Answer (ι : Type*) where
  thread : ι
  call : Acquire
  code : ResponseCode
  out : StagingBuffer
deriving DecidableEq, Repr

/-- A pool in use. -/
structure StagingRun (ι : Type*) where
  pool : StagingPool
  ready : CondVar ι
  place : ι → Place
  /-- The pinned memory that calls were given and did not free. -/
  memory : List Slab
  destroyed : Bool
  /-- The buffers that were handed out and not given back. -/
  held : List StagingBuffer
  /-- History: the retired buffers, the codes of the retires, and what calls returned. -/
  retiredBuffers : List StagingBuffer
  retireCodes : List ResponseCode
  answers : List (Answer ι)

/-- One step of a thread. -/
inductive StagingAction (ι : Type*) where
  | call (t : ι) (call : Acquire)
  /-- The locked part of a call. -/
  | look (t : ι)
  /-- {lit}`host_alloc` returns. -/
  | hostAlloc (t : ι) (code : ResponseCode) (base : Nat)
  /-- {lit}`host_alloc` throws, and so does the call. -/
  | hostAllocThrows (t : ι)
  /-- The locked part of {lit}`add_slab`. -/
  | addSlab (t : ι)
  | release (buffer : StagingBuffer)
  | retire (buffer : StagingBuffer) (code : ResponseCode)
  | stop
  /-- A {lit}`notify_one` is delivered to one of the threads that wait. -/
  | notifyOne (t : Option ι)
  | notifyAll
  /-- A thread wakes although nobody notified it. -/
  | spurious (t : ι)
  /-- The destructor. -/
  | destroy
deriving DecidableEq, Repr

/-- The memory that is still pinned; the destructor frees all slabs but the leaked ones. -/
def StagingRun.pinnedMemory {ι : Type*} (s : StagingRun ι) : List Slab :=
  if s.destroyed then s.memory.filter fun slab => slab ∉ s.pool.freedByDestructor else s.memory

/-- A pool that was just made. -/
def StagingRun.start (ι : Type*) (pool : StagingPool) : StagingRun ι :=
  { pool
    ready := {}
    place := fun _ => .outside
    memory := []
    destroyed := false
    held := []
    retiredBuffers := []
    retireCodes := []
    answers := [] }

namespace StagingRun

variable {ι : Type*} [DecidableEq ι]

/-- A thread goes on to another place. -/
def moveTo (s : StagingRun ι) (t : ι) (place : Place) : StagingRun ι :=
  { s with place := Function.update s.place t place }

/-- A call returns a buffer. -/
def give (s : StagingRun ι) (t : ι) (call : Acquire) (out : StagingBuffer) : StagingRun ι :=
  { s.moveTo t .outside with
    held := out :: s.held
    answers := s.answers ++ [{ thread := t, call, code := .success, out }] }

/-- A call returns a code and no buffer. -/
def refuse (s : StagingRun ι) (t : ι) (call : Acquire) (code : ResponseCode) : StagingRun ι :=
  { s.moveTo t .outside with
    answers := s.answers ++ [{ thread := t, call, code, out := {} }] }

/-- The locked part of {lit}`try_acquire`, and of a round of {lit}`acquire`. -/
def look (s : StagingRun ι) (t : ι) (call : Acquire) : StagingRun ι :=
  match s.pool.look with
  | .stopped => s.refuse t call .success
  | .buffer out pool => { s with pool }.give t call out
  | .room perSlab bytesize => s.moveTo t (.pinning call perSlab bytesize)
  | .barren => s.refuse t call .unknownError
  | .spent code => s.refuse t call code
  | .inFlight =>
      match call with
      | .tryAcquire => s.refuse t call .success
      | .acquire => { s.moveTo t .waiting with ready := s.ready.wait t }

/-- A slab that came too late is freed. -/
def publish (s : StagingRun ι) (slab : Slab) (perSlab : Nat) : StagingRun ι :=
  match s.pool.addSlab slab perSlab with
  | some pool => { s with pool }
  | none => { s with memory := s.memory.erase slab }

/-- {lit}`add_slab` hands out a buffer; {lit}`acquire` goes round when there is none. -/
def handOver (s : StagingRun ι) (t : ι) (call : Acquire) : StagingRun ι :=
  match s.pool.handOut with
  | some (out, pool) => { s with pool }.give t call out
  | none =>
      match call with
      | .tryAcquire => s.refuse t call .success
      | .acquire => s.moveTo t (.looking .acquire)

/-- A buffer is given back, and a pool that kept it notifies one thread. -/
def release (s : StagingRun ι) (buffer : StagingBuffer) : StagingRun ι :=
  match s.pool.release buffer with
  | none => { s with held := s.held.erase buffer }
  | some pool => { s with pool, held := s.held.erase buffer, ready := s.ready.signal }

/-- A buffer is retired, and every thread is notified. -/
def retire (s : StagingRun ι) (buffer : StagingBuffer) (code : ResponseCode) : StagingRun ι :=
  { s with
    pool := s.pool.retire buffer code
    held := s.held.erase buffer
    ready := s.ready.broadcast
    retiredBuffers := s.retiredBuffers ++ [buffer]
    retireCodes := s.retireCodes ++ [code] }

end StagingRun

section Steps

variable {ι : Type*} [DecidableEq ι]

/--
A step.  A buffer that was handed out is given back or retired once, and the host allocator
gives out memory that nobody has; any other step is none.
-/
def stagingStep (s : StagingRun ι) (action : StagingAction ι) : Option (StagingRun ι) :=
  if s.destroyed then none
  else
    match action with
    | .call t call =>
        match s.place t with
        | .outside => some (s.moveTo t (.looking call))
        | _ => none
    | .look t =>
        match s.place t with
        | .looking call => some (s.look t call)
        | .waiting =>
            if t ∈ s.ready.woken then
              some ({ s with ready := s.ready.resume t }.look t .acquire)
            else none
        | _ => none
    | .hostAlloc t code base =>
        match s.place t with
        | .pinning call perSlab bytesize =>
            if code ≠ .success then some (s.refuse t call code)
            else if 0 < base ∧ base + bytesize ≤ 2 ^ 64 ∧
                ∀ other ∈ s.memory, Slab.Apart ⟨base, bytesize⟩ other then
              some
                { s.moveTo t (.pinned call perSlab ⟨base, bytesize⟩) with
                  memory := ⟨base, bytesize⟩ :: s.memory }
            else none
        | _ => none
    | .hostAllocThrows t =>
        match s.place t with
        | .pinning _ _ _ => some (s.moveTo t .outside)
        | _ => none
    | .addSlab t =>
        match s.place t with
        | .pinned call perSlab slab => some ((s.publish slab perSlab).handOver t call)
        | _ => none
    | .release buffer => if buffer ∈ s.held then some (s.release buffer) else none
    | .retire buffer code => if buffer ∈ s.held then some (s.retire buffer code) else none
    | .stop => some { s with pool := s.pool.stop, ready := s.ready.broadcast }
    | .notifyOne t => (s.ready.deliverOne t).map fun ready => { s with ready }
    | .notifyAll => s.ready.deliverAll.map fun ready => { s with ready }
    | .spurious t => (s.ready.spurious t).map fun ready => { s with ready }
    | .destroy => some { s with destroyed := true }

end Steps

/-! ## What the pool keeps -/

/-- The code of the first retire that names a failure. -/
def firstRetireCode (codes : List ResponseCode) : ResponseCode :=
  (codes.find? fun code => code ≠ .success).getD .success

/-- Every created buffer is free, held or retired, and in one of these once. -/
structure Accounted (pool : StagingPool) (held retired : List StagingBuffer) : Prop where
  partition : (pool.free ++ (held ++ retired).map StagingBuffer.index).Perm
    (List.range pool.buffers.length)
  created : ∀ buffer : StagingBuffer, buffer ∈ held ++ retired →
    pool.buffers[buffer.index]? = some buffer
  index_eq : ∀ (i : Nat) (buffer : StagingBuffer), pool.buffers[i]? = some buffer → buffer.index = i

/-- What the pool remembers of the retired buffers. -/
structure Retires (pool : StagingPool) (retired : List StagingBuffer)
    (codes : List ResponseCode) : Prop where
  count : pool.retired = retired.length
  code : pool.retiredCode = firstRetireCode codes
  leaked : pool.leakedSlabs = retired.map StagingBuffer.slab

/-- Only what the pool remembers of them matters. -/
theorem Retires.of_eq {pool pool' : StagingPool} {retired : List StagingBuffer}
    {codes : List ResponseCode} (h : Retires pool retired codes)
    (hretired : pool'.retired = pool.retired) (hcode : pool'.retiredCode = pool.retiredCode)
    (hleaked : pool'.leakedSlabs = pool.leakedSlabs) : Retires pool' retired codes := by
  constructor
  · rw [hretired, h.count]
  · rw [hcode, h.code]
  · rw [hleaked, h.leaked]

namespace Accounted

variable {pool pool' : StagingPool} {held retired : List StagingBuffer} {buffer : StagingBuffer}

/-- A free buffer exists. -/
theorem free_lt (h : Accounted pool held retired) {i : Nat} (hi : i ∈ pool.free) :
    i < pool.buffers.length :=
  List.mem_range.1 (h.partition.mem_iff.1 (List.mem_append_left _ hi))

/-- There are as many buffers as free, held and retired ones. -/
theorem length_eq (h : Accounted pool held retired) :
    pool.free.length + held.length + retired.length = pool.buffers.length := by
  have hlength := h.partition.length_eq
  simp only [List.length_append, List.length_map, List.length_range] at hlength
  omega

/-- The oldest free buffer is handed out, if there is one. -/
theorem handOut_cons (h : Accounted pool held retired) {i : Nat} {free : List Nat}
    (hfree : pool.free = i :: free) :
    ∃ out, pool.buffers[i]? = some out ∧ pool.handOut = some (out, { pool with free }) := by
  have hi : i < pool.buffers.length := h.free_lt (by simp [hfree])
  refine ⟨pool.buffers[i], List.getElem?_eq_getElem hi, ?_⟩
  unfold StagingPool.handOut
  rw [hfree]
  simp only [List.getElem?_eq_getElem hi, Option.map_some]

/-- A buffer that is handed out is held from then on. -/
theorem give (h : Accounted pool held retired) {i : Nat} {free : List Nat}
    (hfree : pool.free = i :: free) (hbuffer : pool.buffers[i]? = some buffer) :
    Accounted { pool with free } (buffer :: held) retired := by
  have hindex := h.index_eq i buffer hbuffer
  refine ⟨?_, ?_, h.index_eq⟩
  · have hpartition := h.partition
    rw [hfree] at hpartition
    simp only [List.cons_append, List.map_cons, hindex]
    exact List.perm_middle.trans hpartition
  · intro b hb
    rw [List.cons_append] at hb
    rcases List.mem_cons.1 hb with rfl | hb
    · rw [hindex]
      exact hbuffer
    · exact h.created b hb

/-- A pool never has all its buffers back while one is held, so none is dropped. -/
theorem release_eq (h : Accounted pool held retired) (hmem : buffer ∈ held) :
    pool.release buffer = some { pool with free := pool.free ++ [buffer.index] } := by
  have hlength := h.length_eq
  have hpos := List.length_pos_of_mem hmem
  unfold StagingPool.release
  rw [if_neg (by omega)]

/-- A buffer that comes back is free. -/
theorem release (h : Accounted pool held retired) (hmem : buffer ∈ held) :
    Accounted { pool with free := pool.free ++ [buffer.index] } (held.erase buffer) retired := by
  have hperm := List.perm_cons_erase hmem
  refine ⟨?_, ?_, h.index_eq⟩
  · refine List.Perm.trans ?_ h.partition
    simp only [List.append_assoc, List.singleton_append]
    apply List.Perm.append_left
    exact ((hperm.append_right retired).map StagingBuffer.index).symm
  · intro b hb
    apply h.created b
    rcases List.mem_append.1 hb with hb | hb
    · exact List.mem_append_left _ (List.mem_of_mem_erase hb)
    · exact List.mem_append_right _ hb

/-- A buffer that is retired stays out. -/
theorem retire (h : Accounted pool held retired) (hmem : buffer ∈ held) (code : ResponseCode) :
    Accounted (pool.retire buffer code) (held.erase buffer) (retired ++ [buffer]) := by
  have hperm : (held.erase buffer ++ (retired ++ [buffer])).Perm (held ++ retired) := by
    rw [← List.append_assoc]
    refine List.perm_append_comm.trans ?_
    exact ((List.perm_cons_erase hmem).append_right retired).symm
  refine ⟨?_, ?_, h.index_eq⟩
  · exact ((hperm.map StagingBuffer.index).append_left pool.free).trans h.partition
  · intro b hb
    exact h.created b (hperm.mem_iff.1 hb)

/-- The buffers of a new slab are free. -/
theorem addSlab (h : Accounted pool held retired) {slab : Slab} {perSlab : Nat}
    (hlt : pool.params.maxBuffers < 2 ^ 32) (hadd : pool.addSlab slab perSlab = some pool') :
    Accounted pool' held retired := by
  simp only [StagingPool.addSlab, Option.ite_none_right_eq_some, Option.some.injEq] at hadd
  rcases hadd with ⟨hle, rfl⟩
  have hcut : (pool.cut slab perSlab).map StagingBuffer.index =
      (List.range perSlab).map fun i => pool.buffers.length + i :=
    StagingPool.cut_index (by omega)
  refine ⟨?_, ?_, ?_⟩
  · simp only [List.length_append, StagingPool.length_cut, List.range_add, hcut]
    rw [List.append_assoc]
    refine List.Perm.trans ?_ (h.partition.append_right _)
    rw [List.append_assoc]
    exact List.perm_append_comm.append_left _
  · intro b hb
    have hb := h.created b hb
    rw [List.getElem?_append_left (List.getElem?_eq_some_iff.1 hb).1]
    exact hb
  · intro i b hi
    rcases Nat.lt_or_ge i pool.buffers.length with hlt | hge
    · rw [List.getElem?_append_left hlt] at hi
      exact h.index_eq i b hi
    · rw [List.getElem?_append_right hge] at hi
      have hmap := congrArg (fun indices => indices[i - pool.buffers.length]?) hcut
      simp only [List.getElem?_map, hi, Option.map_some] at hmap
      rcases Option.map_eq_some_iff.1 hmap.symm with ⟨k, hk, hindex⟩
      rcases List.getElem?_eq_some_iff.1 hk with ⟨_, hk⟩
      rw [List.getElem_range] at hk
      omega

end Accounted

/-! ## The memory of the pool -/

/-- The buffers are cut out of slabs that share no byte. -/
structure Cut (pool : StagingPool) : Prop where
  slabs_le : pool.slabs.length ≤ pool.buffers.length
  slabs_pos : ∀ slab ∈ pool.slabs, 0 < slab.memory ∧ 0 < slab.bytesize
  slabs_apart : pool.slabs.Pairwise Slab.Apart
  sizes : ∀ buffer ∈ pool.buffers,
    buffer.bytesize = pool.params.bufferBytesize ∧ pool.params.alignment ∣ buffer.data
  inside : ∀ buffer ∈ pool.buffers,
    ∃ slab, pool.slabs[buffer.slab]? = some slab ∧ buffer.Inside slab
  apart : pool.buffers.Pairwise StagingBuffer.Apart

/-- The memory that a call has pinned and not brought to the pool. -/
def Place.slab? : Place → Option Slab
  | .pinned _ _ slab => some slab
  | _ => none

/-- What a call that pins memory has planned, and where its memory is. -/
def Place.Fits (params : StagingParams) (slabs memory : List Slab) : Place → Prop
  | .pinning _ perSlab bytesize => Planned params perSlab bytesize
  | .pinned _ perSlab slab =>
      Planned params perSlab slab.bytesize ∧ slab.Allocated ∧ slab ∈ memory ∧
        ∀ other ∈ slabs, slab.Apart other
  | _ => True

/-- Nobody else has the memory of a slab or of a call. -/
structure Owned {ι : Type*} (params : StagingParams) (slabs : List Slab) (place : ι → Place)
    (memory : List Slab) : Prop where
  live : ∀ slab ∈ slabs, slab ∈ memory
  places : ∀ t, (place t).Fits params slabs memory
  apart : ∀ t u, t ≠ u → ∀ slab ∈ (place t).slab?, ∀ other ∈ (place u).slab?, slab.Apart other

/-- Only the slabs and the buffers matter. -/
theorem Cut.of_eq {pool pool' : StagingPool} (h : Cut pool) (hparams : pool'.params = pool.params)
    (hslabs : pool'.slabs = pool.slabs) (hbuffers : pool'.buffers = pool.buffers) :
    Cut pool' := by
  constructor
  · rw [hslabs, hbuffers]
    exact h.slabs_le
  · rw [hslabs]
    exact h.slabs_pos
  · rw [hslabs]
    exact h.slabs_apart
  · rw [hbuffers, hparams]
    exact h.sizes
  · rw [hslabs, hbuffers]
    exact h.inside
  · rw [hbuffers]
    exact h.apart

/-- The late slab of a plan is not empty. -/
theorem Planned.bytes_pos {params : StagingParams} {perSlab bytesize : Nat}
    (h : Planned params perSlab bytesize) (hvalid : params.Valid) : 0 < bytesize := by
  have hbytes := h.bytes
  have hpos := Nat.mul_le_mul h.pos hvalid.buffer_pos
  have halignment := hvalid.alignment_pos
  omega

/-- A published slab leaves the buffers apart. -/
theorem Cut.addSlab {pool pool' : StagingPool} (h : Cut pool) (hvalid : pool.params.Valid)
    {slab : Slab} {perSlab : Nat} (hslab : slab.Allocated)
    (hplan : Planned pool.params perSlab slab.bytesize)
    (hapart : ∀ other ∈ pool.slabs, slab.Apart other)
    (hadd : pool.addSlab slab perSlab = some pool') : Cut pool' := by
  simp only [StagingPool.addSlab, Option.ite_none_right_eq_some, Option.some.injEq] at hadd
  rcases hadd with ⟨hle, rfl⟩
  have hmax := hvalid.max_lt
  have hslabs := h.slabs_le
  have hpos := hplan.pos
  have hindex : toWord 32 pool.slabs.length = pool.slabs.length := toWord_of_lt (by omega)
  have hnew : ∀ buffer ∈ pool.cut slab perSlab,
      buffer.Inside slab ∧ (pool.slabs ++ [slab])[buffer.slab]? = some slab := by
    intro buffer hb
    rcases pool.mem_cut hvalid hslab hplan hb with ⟨-, -, hinside, hb⟩
    rw [hb, hindex]
    exact ⟨hinside, List.getElem?_concat_length⟩
  refine ⟨?_, ?_, ?_, ?_, ?_, ?_⟩
  · simp only [List.length_append, List.length_singleton, StagingPool.length_cut]
    omega
  · intro other hother
    rcases List.mem_append.1 hother with hother | hother
    · exact h.slabs_pos other hother
    · rw [List.mem_singleton.1 hother]
      exact ⟨hslab.pos, hplan.bytes_pos hvalid⟩
  · refine List.pairwise_append.2 ⟨h.slabs_apart, List.pairwise_singleton _ _, ?_⟩
    intro other hother x hx
    rw [List.mem_singleton.1 hx]
    exact (hapart other hother).symm
  · intro buffer hb
    rcases List.mem_append.1 hb with hb | hb
    · exact h.sizes buffer hb
    · rcases pool.mem_cut hvalid hslab hplan hb with ⟨hsize, haligned, -⟩
      exact ⟨hsize, haligned⟩
  · intro buffer hb
    rcases List.mem_append.1 hb with hb | hb
    · rcases h.inside buffer hb with ⟨old, hold, hinside⟩
      refine ⟨old, ?_, hinside⟩
      rw [List.getElem?_append_left (List.getElem?_eq_some_iff.1 hold).1]
      exact hold
    · exact ⟨slab, (hnew buffer hb).2, (hnew buffer hb).1⟩
  · refine List.pairwise_append.2 ⟨h.apart, StagingPool.cut_apart slab perSlab, ?_⟩
    intro a ha b hb
    rcases h.inside a ha with ⟨old, hold, hinside⟩
    apply StagingBuffer.apart_of_slabs _ hinside (hnew b hb).1
    exact (hapart old (List.mem_of_getElem? hold)).symm

/-- What fits fits when there is more memory. -/
theorem Place.Fits.cons {params : StagingParams} {slabs memory : List Slab} {p : Place}
    (h : p.Fits params slabs memory) (slab : Slab) : p.Fits params slabs (slab :: memory) := by
  cases p with
  | pinned call perSlab own =>
      rcases h with ⟨hplan, hown, hmem, hapart⟩
      exact ⟨hplan, hown, List.mem_cons_of_mem _ hmem, hapart⟩
  | _ => exact h

/-- The memory of a call is pinned. -/
theorem Place.Fits.mem {params : StagingParams} {slabs memory : List Slab} {p : Place}
    (h : p.Fits params slabs memory) {slab : Slab} (hslab : slab ∈ p.slab?) : slab ∈ memory := by
  cases p with
  | pinned call perSlab own =>
      rw [← Option.some.inj hslab]
      exact h.2.2.1
  | _ => cases hslab

/-- A call whose memory is apart from a slab also fits when that slab is published. -/
theorem Place.Fits.append {params : StagingParams} {slabs memory : List Slab} {p : Place}
    (h : p.Fits params slabs memory) {slab : Slab}
    (hapart : ∀ own ∈ p.slab?, own.Apart slab) :
    p.Fits params (slabs ++ [slab]) memory := by
  cases p with
  | pinned call perSlab own =>
      rcases h with ⟨hplan, hown, hmem, hslabs⟩
      refine ⟨hplan, hown, hmem, fun other hother => ?_⟩
      rcases List.mem_append.1 hother with hother | hother
      · exact hslabs other hother
      · rw [List.mem_singleton.1 hother]
        exact hapart own rfl
  | _ => exact h

/-- A call whose memory is apart from other memory also fits when that is freed. -/
theorem Place.Fits.erase {params : StagingParams} {slabs memory : List Slab} {p : Place}
    (h : p.Fits params slabs memory) {slab : Slab}
    (hne : ∀ own ∈ p.slab?, own ≠ slab) :
    p.Fits params slabs (memory.erase slab) := by
  cases p with
  | pinned call perSlab own =>
      rcases h with ⟨hplan, hown, hmem, hslabs⟩
      exact ⟨hplan, hown, (List.mem_erase_of_ne (hne own rfl)).2 hmem, hslabs⟩
  | _ => exact h

namespace Owned

variable {ι : Type*} [DecidableEq ι] {params : StagingParams} {slabs memory : List Slab}
  {place : ι → Place} {t : ι} {p : Place}

/-- A call goes on to a place without memory. -/
theorem move (h : Owned params slabs place memory) (hfits : p.Fits params slabs memory)
    (hnone : p.slab? = none) : Owned params slabs (Function.update place t p) memory := by
  refine ⟨h.live, fun u => ?_, fun u v huv slab hslab other hother => ?_⟩
  · rcases eq_or_ne u t with rfl | hu
    · rwa [Function.update_self]
    · rw [Function.update_of_ne hu]
      exact h.places u
  · rcases eq_or_ne u t with rfl | hu
    · rw [Function.update_self, hnone] at hslab
      cases hslab
    · rcases eq_or_ne v t with rfl | hv
      · rw [Function.update_self, hnone] at hother
        cases hother
      · rw [Function.update_of_ne hu] at hslab
        rw [Function.update_of_ne hv] at hother
        exact h.apart u v huv slab hslab other hother

/-- A call gets memory that nobody has. -/
theorem pin (h : Owned params slabs place memory) {call : Acquire} {perSlab : Nat} {slab : Slab}
    (hplan : Planned params perSlab slab.bytesize) (hslab : slab.Allocated)
    (hnew : ∀ other ∈ memory, slab.Apart other) :
    Owned params slabs (Function.update place t (.pinned call perSlab slab))
      (slab :: memory) := by
  refine ⟨fun other hother => List.mem_cons_of_mem _ (h.live other hother), fun u => ?_,
    fun u v huv own hown other hother => ?_⟩
  · rcases eq_or_ne u t with rfl | hu
    · rw [Function.update_self]
      refine ⟨hplan, hslab, List.mem_cons_self, fun other hother => ?_⟩
      exact hnew other (h.live other hother)
    · rw [Function.update_of_ne hu]
      exact (h.places u).cons slab
  · rcases eq_or_ne u t with rfl | hu
    · rw [Function.update_self] at hown
      rw [Function.update_of_ne huv.symm] at hother
      rw [← Option.some.inj hown]
      exact hnew other ((h.places v).mem hother)
    · rw [Function.update_of_ne hu] at hown
      rcases eq_or_ne v t with rfl | hv
      · rw [Function.update_self] at hother
        rw [← Option.some.inj hother]
        exact (hnew own ((h.places u).mem hown)).symm
      · rw [Function.update_of_ne hv] at hother
        exact h.apart u v huv own hown other hother

/-- A call brings its memory to the pool. -/
theorem publish (h : Owned params slabs place memory) {slab : Slab}
    (hslab : slab ∈ (place t).slab?) (hfits : ∀ slabs memory, p.Fits params slabs memory)
    (hnone : p.slab? = none) :
    Owned params (slabs ++ [slab]) (Function.update place t p) memory := by
  refine ⟨fun other hother => ?_, fun u => ?_, (h.move (hfits _ _) hnone).apart⟩
  · rcases List.mem_append.1 hother with hother | hother
    · exact h.live other hother
    · rw [List.mem_singleton.1 hother]
      exact (h.places t).mem hslab
  · rcases eq_or_ne u t with rfl | hu
    · rw [Function.update_self]
      exact hfits _ _
    · rw [Function.update_of_ne hu]
      exact (h.places u).append fun own hown => h.apart u t hu own hown slab hslab

/-- A call frees its memory. -/
theorem drop (h : Owned params slabs place memory) {slab : Slab}
    (hslab : slab ∈ (place t).slab?) (hpos : 0 < slab.bytesize)
    (hslabs : ∀ other ∈ slabs, slab.Apart other)
    (hfits : ∀ slabs memory, p.Fits params slabs memory) (hnone : p.slab? = none) :
    Owned params slabs (Function.update place t p) (memory.erase slab) := by
  refine ⟨fun other hother => ?_, fun u => ?_, (h.move (hfits _ _) hnone).apart⟩
  · have hne := (hslabs other hother).ne hpos
    exact (List.mem_erase_of_ne hne.symm).2 (h.live other hother)
  · rcases eq_or_ne u t with rfl | hu
    · rw [Function.update_self]
      exact hfits _ _
    · rw [Function.update_of_ne hu]
      apply (h.places u).erase
      intro own hown
      exact ((h.apart t u hu.symm slab hslab own hown).ne hpos).symm

end Owned

/-! ## Sleep and wake-ups -/

/-- Whoever sleeps has something to wait for, or is about to be woken. -/
structure Waits {ι : Type*} (ready : CondVar ι) (pool : StagingPool) : Prop where
  full : ready.waiting ≠ [] → pool.buffers.length = pool.params.maxBuffers
  told : ready.Until (pool.stopped = false ∧ pool.retired < pool.buffers.length)
  covered : ready.Covers pool.free.length

/-- The same for a call that took the lock: it answers for one wake-up itself. -/
structure Resumed {ι : Type*} (ready : CondVar ι) (pool : StagingPool) : Prop where
  full : ready.waiting ≠ [] → pool.buffers.length = pool.params.maxBuffers
  told : ready.Until (pool.stopped = false ∧ pool.retired < pool.buffers.length)
  covered : ready.Covers (pool.free.length - 1)

/-- What {lit}`look` says about the pool. -/
def StagingPool.Found.Means (pool : StagingPool) : StagingPool.Found → Prop
  | .stopped => pool.stopped = true
  | .buffer out rest =>
      pool.stopped = false ∧ ∃ i free, pool.free = i :: free ∧ pool.buffers[i]? = some out ∧
        rest = { pool with free }
  | .room perSlab bytesize =>
      Planned pool.params perSlab bytesize ∧
        pool.buffers.length + perSlab ≤ pool.params.maxBuffers
  | .barren => False
  | .spent code =>
      pool.stopped = false ∧ pool.free = [] ∧
        pool.buffers.length = pool.params.maxBuffers ∧
        pool.buffers.length ≤ pool.retired ∧ code = pool.retiredCode
  | .inFlight =>
      pool.stopped = false ∧ pool.free = [] ∧
        pool.buffers.length = pool.params.maxBuffers ∧ pool.retired < pool.buffers.length

/-- What a call that takes the lock finds. -/
theorem Accounted.look {pool : StagingPool} {held retired : List StagingBuffer}
    (h : Accounted pool held retired) (hvalid : pool.params.Valid)
    (hle : pool.buffers.length ≤ pool.params.maxBuffers) : pool.look.Means pool := by
  unfold StagingPool.look
  cases hstopped : pool.stopped with
  | true => exact hstopped
  | false =>
      rw [if_neg Bool.false_ne_true]
      cases hfree : pool.free with
      | cons i free =>
          rcases h.handOut_cons hfree with ⟨out, hout, hhand⟩
          rw [hhand]
          exact ⟨hstopped, i, free, hfree, hout, rfl⟩
      | nil =>
          have hnone : pool.handOut = none := by
            unfold StagingPool.handOut
            rw [hfree]
          rw [hnone]
          rcases Nat.lt_or_eq_of_le hle with hless | hfull
          · rcases StagingPool.planSlab_spec hvalid hless with ⟨hplan, hroom⟩
            have hpos := hplan.pos
            simp only [if_neg (show pool.planSlab.1 ≠ 0 by omega)]
            exact ⟨hplan, hroom⟩
          · have hmax := hvalid.max_pos
            have hne : pool.buffers ≠ [] := by
              intro hnil
              rw [hnil, List.length_nil] at hfull
              omega
            simp only [StagingPool.planSlab_full hvalid hfull, if_true, if_neg hne]
            split
            · rename_i hspent
              exact ⟨hstopped, hfree, hfull, hspent, rfl⟩
            · rename_i hspent
              exact ⟨hstopped, hfree, hfull, Nat.lt_of_not_le hspent⟩

section WaitRules

variable {ι : Type*} {ready ready' : CondVar ι} {pool : StagingPool} {t : ι}

/-- A call that was not asleep took the lock. -/
theorem Waits.resumed (h : Waits ready pool) : Resumed ready pool :=
  ⟨h.full, h.told, h.covered.mono (Nat.sub_le _ _)⟩

/-- A call that was woken took the lock. -/
theorem Waits.resume [DecidableEq ι] (h : Waits ready pool) : Resumed (ready.resume t) pool := by
  refine ⟨h.full, h.told, ?_⟩
  cases hfree : pool.free with
  | nil => exact CondVar.covers_zero
  | cons i free =>
      have hcovered := h.covered
      rw [hfree] at hcovered
      exact hcovered.resume

/-- Whoever sleeps when the pool was stopped is about to be told. -/
theorem Resumed.stopped (h : Resumed ready pool) (hstopped : pool.stopped = true) :
    Waits ready pool := by
  refine ⟨h.full, h.told, h.told.imp fun htold => ?_⟩
  rw [hstopped] at htold
  cases htold.1

/-- A call takes the buffer that it was woken for. -/
theorem Resumed.give (h : Resumed ready pool) {i : Nat} {free : List Nat}
    (hfree : pool.free = i :: free) : Waits ready { pool with free } := by
  refine ⟨h.full, h.told, ?_⟩
  have hcovered := h.covered
  rw [hfree] at hcovered
  exact hcovered

/-- No call sleeps over a free buffer when there is none. -/
theorem Resumed.empty (h : Resumed ready pool) (hfree : pool.free = []) : Waits ready pool := by
  refine ⟨h.full, h.told, ?_⟩
  rw [hfree]
  exact CondVar.covers_zero

/-- A call goes to sleep while a buffer is in flight. -/
theorem Resumed.sleep (hstopped : pool.stopped = false) (hfree : pool.free = [])
    (hfull : pool.buffers.length = pool.params.maxBuffers)
    (hless : pool.retired < pool.buffers.length) : Waits (ready.wait t) pool := by
  refine ⟨fun _ => hfull, fun _ => Or.inr ⟨hstopped, hless⟩, ?_⟩
  rw [hfree]
  exact CondVar.covers_zero

/-- Nobody sleeps while the pool can grow. -/
theorem waits_of_awake (h : ready.waiting = []) : Waits ready pool :=
  ⟨fun hwaiting => absurd h hwaiting, fun hwaiting => absurd h hwaiting,
    fun hwaiting => absurd h hwaiting⟩

/-- A notification is delivered. -/
theorem Waits.deliver (h : Waits ready pool) (hkeep : ready.LosesNone ready') :
    Waits ready' pool :=
  ⟨fun hwaiting => h.full (hkeep hwaiting).1, hkeep.until h.told, hkeep.covers h.covered⟩

end WaitRules

/-! ## The invariant -/

/-- What holds at every point between two steps. -/
structure StagingInv {ι : Type*} (params : StagingParams) (s : StagingRun ι) : Prop where
  params_eq : s.pool.params = params
  le_max : s.pool.buffers.length ≤ s.pool.params.maxBuffers
  accounted : Accounted s.pool s.held s.retiredBuffers
  retires : Retires s.pool s.retiredBuffers s.retireCodes
  cut : Cut s.pool
  owned : Owned s.pool.params s.pool.slabs s.place s.memory
  waits : Waits s.ready s.pool

section Run

variable {ι : Type*} {params : StagingParams} {s s' : StagingRun ι} {t : ι} {call : Acquire}

theorem stagingInv_start (ι : Type*) (params : StagingParams) :
    StagingInv params (StagingRun.start ι { params }) := by
  refine ⟨rfl, Nat.zero_le _, ⟨List.Perm.refl _, ?_, ?_⟩, ⟨rfl, rfl, rfl⟩,
    ⟨Nat.le_refl 0, ?_, List.Pairwise.nil, ?_, ?_, List.Pairwise.nil⟩, ⟨?_, ?_, ?_⟩,
    waits_of_awake rfl⟩
  · exact fun buffer hb => absurd hb List.not_mem_nil
  · intro i buffer hb
    cases hb
  · exact fun slab hslab => absurd hslab List.not_mem_nil
  · exact fun buffer hb => absurd hb List.not_mem_nil
  · exact fun buffer hb => absurd hb List.not_mem_nil
  · exact fun slab hslab => absurd hslab List.not_mem_nil
  · exact fun _ => trivial
  · intro _ _ _ slab hslab
    cases hslab

/-- A notification is delivered, or a thread wakes by itself. -/
theorem StagingInv.deliver (h : StagingInv params s) {ready : CondVar ι}
    (hkeep : s.ready.LosesNone ready) : StagingInv params { s with ready } :=
  ⟨h.params_eq, h.le_max, h.accounted, h.retires, h.cut, h.owned, h.waits.deliver hkeep⟩

theorem StagingInv.release (h : StagingInv params s) {buffer : StagingBuffer}
    (hmem : buffer ∈ s.held) : StagingInv params (s.release buffer) := by
  unfold StagingRun.release
  rw [h.accounted.release_eq hmem]
  refine ⟨h.params_eq, h.le_max, h.accounted.release hmem,
    h.retires.of_eq rfl rfl rfl,
    h.cut.of_eq rfl rfl rfl,
    h.owned, ⟨h.waits.full, h.waits.told, ?_⟩⟩
  rw [List.length_append]
  exact h.waits.covered.signal

/-- The first failure is kept. -/
theorem firstRetireCode_append (codes : List ResponseCode) (code : ResponseCode) :
    firstRetireCode (codes ++ [code]) =
      if firstRetireCode codes = .success then code else firstRetireCode codes := by
  unfold firstRetireCode
  rw [List.find?_append]
  cases hfind : codes.find? fun code => code ≠ .success with
  | none =>
      simp only [Option.none_or, Option.getD_none, if_true, List.find?_singleton]
      split
      · rfl
      · rename_i hcode
        simp only [decide_eq_true_eq, Decidable.not_not] at hcode
        rw [hcode]
        rfl
  | some first =>
      have hfirst := List.find?_some hfind
      simp only [decide_eq_true_eq] at hfirst
      rw [Option.some_or, Option.getD_some, if_neg hfirst]

theorem StagingInv.retire (h : StagingInv params s) {buffer : StagingBuffer}
    (hmem : buffer ∈ s.held) (code : ResponseCode) :
    StagingInv params (s.retire buffer code) := by
  refine ⟨h.params_eq, h.le_max, h.accounted.retire hmem code, ⟨?_, ?_, ?_⟩,
    h.cut.of_eq rfl rfl rfl,
    h.owned, ⟨h.waits.full, CondVar.until_broadcast, CondVar.until_broadcast⟩⟩
  · change s.pool.retired + 1 = (s.retiredBuffers ++ [buffer]).length
    rw [h.retires.count, List.length_append, List.length_singleton]
  · change (if s.pool.retiredCode = .success then code else s.pool.retiredCode) =
      firstRetireCode (s.retireCodes ++ [code])
    rw [firstRetireCode_append, h.retires.code]
  · change s.pool.leakedSlabs ++ [buffer.slab] =
      (s.retiredBuffers ++ [buffer]).map StagingBuffer.slab
    rw [h.retires.leaked, List.map_append, List.map_singleton]

theorem StagingInv.stop (h : StagingInv params s) :
    StagingInv params { s with pool := s.pool.stop, ready := s.ready.broadcast } :=
  ⟨h.params_eq, h.le_max, ⟨h.accounted.partition, h.accounted.created, h.accounted.index_eq⟩,
    h.retires.of_eq rfl rfl rfl, h.cut.of_eq rfl rfl rfl, h.owned,
    ⟨h.waits.full, CondVar.until_broadcast, CondVar.until_broadcast⟩⟩

variable [DecidableEq ι]

/-- A thread that took the lock looks at the pool. -/
theorem StagingInv.look (h : StagingInv params s) (hvalid : params.Valid) {ready : CondVar ι}
    (hready : Resumed ready s.pool) : StagingInv params ({ s with ready }.look t call) := by
  have hparams := h.params_eq
  have hmeans := h.accounted.look (hparams ▸ hvalid) h.le_max
  have howned : ∀ p : Place, p.Fits s.pool.params s.pool.slabs s.memory → p.slab? = none →
      Owned s.pool.params s.pool.slabs (Function.update s.place t p) s.memory :=
    fun _ hfits hnone => h.owned.move hfits hnone
  unfold StagingRun.look
  change StagingInv params (match s.pool.look with
    | .stopped => _ | .buffer out pool => _ | .room perSlab bytesize => _ | .barren => _
    | .spent code => _ | .inFlight => _)
  cases hlook : s.pool.look with
  | stopped =>
      rw [hlook] at hmeans
      exact ⟨h.params_eq, h.le_max, h.accounted, h.retires, h.cut, howned .outside trivial rfl,
        hready.stopped hmeans⟩
  | buffer out pool =>
      rw [hlook] at hmeans
      rcases hmeans with ⟨-, i, free, hfree, hbuffer, rfl⟩
      exact ⟨h.params_eq, h.le_max, h.accounted.give hfree hbuffer,
        h.retires.of_eq rfl rfl rfl,
        h.cut.of_eq rfl rfl rfl,
        howned .outside trivial rfl, hready.give hfree⟩
  | room perSlab bytesize =>
      rw [hlook] at hmeans
      rcases hmeans with ⟨hplan, hroom⟩
      have hpos := hplan.pos
      have hawake : ready.waiting = [] := by
        by_contra hwaiting
        have hfull := hready.full hwaiting
        omega
      exact ⟨h.params_eq, h.le_max, h.accounted, h.retires, h.cut,
        howned (.pinning call perSlab bytesize) hplan rfl, waits_of_awake hawake⟩
  | barren =>
      rw [hlook] at hmeans
      exact hmeans.elim
  | spent code =>
      rw [hlook] at hmeans
      exact ⟨h.params_eq, h.le_max, h.accounted, h.retires, h.cut, howned .outside trivial rfl,
        hready.empty hmeans.2.1⟩
  | inFlight =>
      rw [hlook] at hmeans
      rcases hmeans with ⟨hstopped, hfree, hfull, hless⟩
      cases call with
      | tryAcquire =>
          exact ⟨h.params_eq, h.le_max, h.accounted, h.retires, h.cut,
            howned .outside trivial rfl, hready.empty hfree⟩
      | acquire =>
          exact ⟨h.params_eq, h.le_max, h.accounted, h.retires, h.cut,
            howned .waiting trivial rfl, Resumed.sleep hstopped hfree hfull hless⟩

/-- The end of {lit}`add_slab`, once its memory is where it belongs. -/
theorem StagingInv.handOver (hparams : s.pool.params = params)
    (hle : s.pool.buffers.length ≤ s.pool.params.maxBuffers)
    (haccounted : Accounted s.pool s.held s.retiredBuffers)
    (hretires : Retires s.pool s.retiredBuffers s.retireCodes) (hcut : Cut s.pool)
    (howned : ∀ p : Place, (∀ slabs memory, p.Fits s.pool.params slabs memory) →
      p.slab? = none →
        Owned s.pool.params s.pool.slabs (Function.update s.place t p) s.memory)
    (hwaits : Waits s.ready s.pool) : StagingInv params (s.handOver t call) := by
  unfold StagingRun.handOver
  cases hfree : s.pool.free with
  | cons i free =>
      rcases haccounted.handOut_cons hfree with ⟨out, hout, hhand⟩
      rw [hhand]
      exact ⟨hparams, hle, haccounted.give hfree hout,
        hretires.of_eq rfl rfl rfl,
        hcut.of_eq rfl rfl rfl,
        howned .outside (fun _ _ => trivial) rfl, hwaits.resumed.give hfree⟩
  | nil =>
      have hnone : s.pool.handOut = none := by
        unfold StagingPool.handOut
        rw [hfree]
      rw [hnone]
      cases call with
      | tryAcquire =>
          exact ⟨hparams, hle, haccounted, hretires, hcut,
            howned .outside (fun _ _ => trivial) rfl, hwaits⟩
      | acquire =>
          exact ⟨hparams, hle, haccounted, hretires, hcut,
            howned (.looking .acquire) (fun _ _ => trivial) rfl, hwaits⟩

/-- A call brings its memory to the pool, or frees it. -/
theorem StagingInv.addSlab (h : StagingInv params s) (hvalid : params.Valid) {perSlab : Nat}
    {slab : Slab} (hplace : s.place t = .pinned call perSlab slab) :
    StagingInv params ((s.publish slab perSlab).handOver t call) := by
  have hvalid : s.pool.params.Valid := h.params_eq ▸ hvalid
  have hmem : slab ∈ (s.place t).slab? := by
    rw [hplace]
    rfl
  have hfits := h.owned.places t
  rw [hplace] at hfits
  rcases hfits with ⟨hplan, hslab, -, hapart⟩
  have hpos := hplan.pos
  unfold StagingRun.publish
  cases hadd : s.pool.addSlab slab perSlab with
  | none =>
      exact StagingInv.handOver h.params_eq h.le_max h.accounted h.retires h.cut
        (fun _ hp hnone => h.owned.drop hmem (hplan.bytes_pos hvalid) hapart (fun _ _ => hp _ _)
          hnone) h.waits
  | some pool =>
      have haccounted := h.accounted.addSlab hvalid.max_lt hadd
      have hcut := h.cut.addSlab hvalid hslab hplan hapart hadd
      simp only [StagingPool.addSlab, Option.ite_none_right_eq_some, Option.some.injEq] at hadd
      rcases hadd with ⟨hroom, rfl⟩
      have hawake : s.ready.waiting = [] := by
        by_contra hwaiting
        have hfull := h.waits.full hwaiting
        omega
      change StagingInv params (StagingRun.handOver { s with pool := _ } t call)
      refine StagingInv.handOver h.params_eq ?_ haccounted (h.retires.of_eq rfl rfl rfl) hcut
        (fun _ hp hnone => h.owned.publish hmem (fun _ _ => hp _ _) hnone)
        (waits_of_awake hawake)
      rw [List.length_append, StagingPool.length_cut]
      exact hroom

/-- A thread goes on to a place without memory. -/
theorem StagingInv.moveTo (h : StagingInv params s) {p : Place}
    (hfits : p.Fits s.pool.params s.pool.slabs s.memory) (hnone : p.slab? = none) :
    StagingInv params (s.moveTo t p) :=
  ⟨h.params_eq, h.le_max, h.accounted, h.retires, h.cut, h.owned.move hfits hnone, h.waits⟩

/-- A call returns a code. -/
theorem StagingInv.refuse (h : StagingInv params s) {code : ResponseCode} :
    StagingInv params (s.refuse t call code) :=
  ⟨h.params_eq, h.le_max, h.accounted, h.retires, h.cut, h.owned.move trivial rfl, h.waits⟩

/-- The host allocator gives a call memory that nobody has. -/
theorem StagingInv.pin (h : StagingInv params s) {perSlab bytesize base : Nat}
    (hplace : s.place t = .pinning call perSlab bytesize) (hpos : 0 < base)
    (hle : base + bytesize ≤ 2 ^ 64)
    (hnew : ∀ other ∈ s.memory, Slab.Apart ⟨base, bytesize⟩ other) :
    StagingInv params
      { s.moveTo t (.pinned call perSlab ⟨base, bytesize⟩) with
        memory := ⟨base, bytesize⟩ :: s.memory } := by
  have hplan := h.owned.places t
  rw [hplace] at hplan
  exact ⟨h.params_eq, h.le_max, h.accounted, h.retires, h.cut,
    h.owned.pin hplan ⟨hpos, hle⟩ hnew, h.waits⟩

/-- Every step keeps what the pool keeps. -/
theorem StagingInv.step (h : StagingInv params s) (hvalid : params.Valid)
    {action : StagingAction ι} (hstep : stagingStep s action = some s') :
    StagingInv params s' := by
  unfold stagingStep at hstep
  split at hstep
  · cases hstep
  · cases action with
    | call t call =>
        dsimp only at hstep
        split at hstep
        · cases hstep
          exact h.moveTo trivial rfl
        · cases hstep
    | look t =>
        dsimp only at hstep
        split at hstep
        · cases hstep
          exact h.look hvalid h.waits.resumed
        · rw [Option.ite_none_right_eq_some] at hstep
          cases hstep.2
          exact h.look hvalid h.waits.resume
        · cases hstep
    | hostAlloc t code base =>
        dsimp only at hstep
        split at hstep
        · rename_i call perSlab bytesize hplace
          split at hstep
          · cases hstep
            exact h.refuse
          · rw [Option.ite_none_right_eq_some] at hstep
            rcases hstep with ⟨⟨hpos, hle, hnew⟩, hstep⟩
            cases hstep
            exact h.pin hplace hpos hle hnew
        · cases hstep
    | hostAllocThrows t =>
        dsimp only at hstep
        split at hstep
        · cases hstep
          exact h.moveTo trivial rfl
        · cases hstep
    | addSlab t =>
        dsimp only at hstep
        split at hstep
        · rename_i call perSlab slab hplace
          cases hstep
          exact h.addSlab hvalid hplace
        · cases hstep
    | release buffer =>
        rw [Option.ite_none_right_eq_some] at hstep
        cases hstep.2
        exact h.release hstep.1
    | retire buffer code =>
        rw [Option.ite_none_right_eq_some] at hstep
        cases hstep.2
        exact h.retire hstep.1 code
    | stop =>
        cases hstep
        exact h.stop
    | notifyOne t =>
        rcases Option.map_eq_some_iff.1 hstep with ⟨ready, hready, rfl⟩
        exact h.deliver (CondVar.losesNone_of_deliverOne hready)
    | notifyAll =>
        rcases Option.map_eq_some_iff.1 hstep with ⟨ready, hready, rfl⟩
        exact h.deliver (CondVar.losesNone_of_deliverAll hready)
    | spurious t =>
        rcases Option.map_eq_some_iff.1 hstep with ⟨ready, hready, rfl⟩
        exact h.deliver (CondVar.losesNone_of_spurious hready)
    | destroy =>
        cases hstep
        exact ⟨h.params_eq, h.le_max, h.accounted, h.retires, h.cut, h.owned, h.waits⟩

/-- What holds at every point of every run. -/
theorem stagingInv_run (hvalid : params.Valid) {actions : List (StagingAction ι)}
    (hrun : run stagingStep (StagingRun.start ι { params }) actions = some s) :
    StagingInv params s :=
  run_invariant (P := StagingInv params) (fun _ _ _ h hstep => h.step hvalid hstep)
    (stagingInv_start ι params) hrun

end Run

end Staging
end DeviceIo
end ModelStreamer
