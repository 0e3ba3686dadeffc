import ModelStreamer.AsyncIo.ChunkReadSpec
import ModelStreamer.AsyncIo.WorkerInvariant

/-!
# Moves of a chunk

What a worker does with one chunk, one step at a time: it changes places, its entry is changed,
and buffers change owners with it.

Main results:

- Theorem {lit}`Core.setEntry`: the entry of a chunk is changed, with its buffers.
- Theorem {lit}`Core.stage`: a read is staged.
- Theorem {lit}`Core.copy`: a copy is issued.
- Theorem {lit}`Core.setFile`: the descriptor of a batch is changed.
-/

namespace ModelStreamer
namespace AsyncIo

open Common Lib Streamer PosixIo
open ObjectStorage (Answer CapacityQueue)

/-- A chunk with a slot comes into the hands of a call. -/
def Hand.slot (hand : Hand) (id : Nat) : Hand :=
  { hand with slotted := id :: hand.slotted }

/-- A chunk without a slot comes into the hands of a call. -/
def Hand.hold (hand : Hand) (id : Nat) : Hand :=
  { hand with bare := id :: hand.bare }

section Entries

variable {w : Worker} {id : Nat} {entry entry' : InflightChunk}

theorem find_set (chunks : InflightChunks) (id : Nat) (entry : InflightChunk) (j : Nat) :
    (chunks.set id entry).find j =
      if j = id then (chunks.find id).map fun _ => entry else chunks.find j :=
  Table.lookup_update chunks.entries id (fun _ => entry) j

theorem keys_set (chunks : InflightChunks) (id : Nat) (entry : InflightChunk) :
    (chunks.set id entry).entries.keys = chunks.entries.keys :=
  Table.keys_update chunks.entries id fun _ => entry

/-- A changed entry belongs where the one before did. -/
theorem owners_set (hnodup : w.chunks.entries.keys.Nodup) (hfind : w.chunks.find id = some entry)
    (howner : entry'.owner = entry.owner) :
    ((w.chunks.set id entry').entries.map fun e => e.2.owner) = w.owners :=
  Table.map_update hnodup hfind (fun _ => entry') InflightChunk.owner howner

/-- The buffers that the chunks hold, apart from those of one chunk. -/
theorem held_set {β : Type*} {chunks : InflightChunks} (hnodup : chunks.entries.keys.Nodup)
    (hfind : chunks.find id = some entry) (entry' : InflightChunk) (f : InflightChunk → Option β) :
    (chunks.entries.filterMap fun e => f e.2).Perm
        ((f entry).toList ++ (chunks.release id).entries.filterMap fun e => f e.2) ∧
      ((chunks.set id entry').entries.filterMap fun e => f e.2).Perm
        ((f entry').toList ++ (chunks.release id).entries.filterMap fun e => f e.2) := by
  have hcons : ∀ e : InflightChunk, ∀ t : Table InflightChunk,
      (((id, e) :: t).filterMap fun e => f e.2) =
        (f e).toList ++ t.filterMap fun e => f e.2 := by
    intro e t
    cases hf : f e with
    | none => simp only [List.filterMap_cons, hf, Option.toList_none, List.nil_append]
    | some b => simp only [List.filterMap_cons, hf, Option.toList_some, List.singleton_append]
  constructor
  · rw [← hcons]
    exact (Table.perm_remove hnodup hfind).filterMap _
  · rw [← hcons]
    exact (Table.perm_update hnodup hfind fun _ => entry').filterMap _

end Entries

section Moves

variable {env : Setting} {hand hand' : Hand} {w w' : Worker} {id workloadId batchIndex : Nat}
  {entry entry' : InflightChunk} {wl : Inflight} {batch : Batch} {read : EngineRead}

/-! ## Changing places -/

/-- A chunk is taken from the queue. -/
theorem Core.take {queue : CapacityQueue Nat} (h : Core env hand w)
    (htake : w.queue.tryTake = some (id, queue)) : Core env (hand.slot id) { w with queue } :=
  { h with
    placed := by
      rcases CapacityQueue.tryTake_eq_some htake with ⟨cost, hpending, -, -⟩
      refine List.Perm.trans ?_ h.placed
      unfold Hand.ids Hand.slot Worker.places
      rw [hpending, List.perm_iff_count]
      intro x
      simp only [List.map_cons, List.count_append, List.count_cons, Worker.engineIds,
        Worker.copyIds]
      omega }

/-- A chunk that waits for a buffer is tried again. -/
theorem Core.unpark {waiting : List Nat} (h : Core env hand w)
    (hwaiting : w.waiting = id :: waiting) : Core env (hand.slot id) { w with waiting } :=
  { h with
    placed := by
      refine List.Perm.trans ?_ h.placed
      unfold Hand.ids Hand.slot Worker.places
      rw [hwaiting, List.perm_iff_count]
      intro x
      simp only [List.count_append, List.count_cons, Worker.engineIds, Worker.copyIds]
      omega }

/-- A chunk waits for a buffer. -/
theorem Core.park (h : Core env (hand.slot id) w) :
    Core env hand { w with waiting := w.waiting ++ [id] } :=
  { h with
    placed := by
      refine List.Perm.trans ?_ h.placed
      unfold Hand.ids Hand.slot Worker.places
      rw [List.perm_iff_count]
      intro x
      simp only [List.count_append, List.count_cons, List.count_nil, Worker.engineIds,
        Worker.copyIds]
      omega }

/-- The slot of a completion is with the call that processes it. -/
theorem Core.process {reaped : List Nat} (h : Core env hand w)
    (hreaped : hand.reaped = id :: reaped)
    (hquiet : ∀ entry, w.chunks.find id = some entry → entry.bounces = false) :
    Core env ({ hand with reaped }.slot id) { w with issued := w.issued - 1 } :=
  { h with
    placed := by
      refine (List.Perm.append_right w.places ?_).trans h.placed
      unfold Hand.ids Hand.slot
      rw [hreaped, List.perm_iff_count]
      intro x
      simp only [List.count_append, List.count_cons]
      omega
    issued := by
      have hissued := h.issued
      rw [hreaped, List.length_cons] at hissued
      change w.issued - 1 = reaped.length + w.kernel.length
      omega
    bouncing := by
      intro j entry hfind hbounces
      have hmem := h.bouncing j entry hfind hbounces
      rw [hreaped, List.cons_append] at hmem
      rcases List.mem_cons.1 hmem with rfl | hmem
      · rw [hquiet entry hfind] at hbounces
        cases hbounces
      · exact hmem }

/-! ## The entry of a chunk -/

/-- The entry of a chunk is changed, and buffers change owners with it. -/
theorem Core.setEntry {scratch : Option ScratchPool} {lent borrowed returned : List StagingBuffer}
    {copiesIssued : Nat} (h : Core env hand w) (copying : List IssuedCopy)
    (hfind : w.chunks.find id = some entry) (howner : entry'.owner = entry.owner)
    (hplaced : (hand'.ids ++ { w with copying }.places).Perm (hand.ids ++ w.places))
    (hreaped : hand'.reaped = hand.reaped) (hfinishing : hand'.finishing = hand.finishing)
    (hcopied : copiesIssued = copying.length + w.copies.length)
    (hstrategy : scratch.isSome = w.scratch.isSome)
    (hpooled : ∀ rest, w.heldScratch.Perm (entry.scratch.toList ++ rest) → ∀ p, scratch = some p →
      (p.free ++ (entry'.scratch.toList ++ rest)).Perm env.scratch ∧ env.scratch.length = w.depth)
    (hbouncing : entry'.bounces = true → id ∈ hand.reaped ++ w.engineIds)
    (hnodup : lent.Nodup)
    (hlent : ∀ rest, w.heldStaging.Perm (entry.staging.toList ++ rest) →
      lent.Perm ((entry'.staging.toList ++ rest) ++ copying.map IssuedCopy.staging))
    (hreturned : borrowed.Perm (returned ++ lent)) :
    Core env hand'
      { w with
        chunks := w.chunks.set id entry'
        scratch, lent, borrowed, returned, copying, copiesIssued } := by
  have howners : ∀ w' : Worker, w'.chunks = w.chunks.set id entry' → w'.owners = w.owners := by
    intro w' hchunks
    unfold Worker.owners
    rw [hchunks]
    exact owners_set h.keys_nodup hfind howner
  exact
    { h with
      keys_nodup := by
        rw [keys_set]
        exact h.keys_nodup
      keys_lt := by
        rw [keys_set]
        exact h.keys_lt
      placed := by
        rw [keys_set]
        exact hplaced.trans h.placed
      issued := by
        rw [hreaped]
        exact h.issued
      copied := hcopied
      owned := by
        rw [howners _ rfl]
        exact h.owned
      workload := by
        rw [howners _ rfl]
        exact h.workload
      unfinished := by
        rw [hfinishing]
        exact h.unfinished
      strategy := hstrategy.trans h.strategy
      pooled := by
        intro p hp
        rcases held_set h.keys_nodup hfind entry' InflightChunk.scratch with ⟨hold, hnew⟩
        rcases hpooled _ hold p hp with ⟨hperm, hlength⟩
        exact ⟨(hnew.append_left _).trans hperm, hlength⟩
      bouncing := by
        intro j e hj hbounces
        rw [hreaped]
        rw [find_set] at hj
        by_cases heq : j = id
        · subst heq
          rw [if_pos rfl, hfind, Option.map_some] at hj
          rw [← Option.some.inj hj] at hbounces
          exact hbouncing hbounces
        · rw [if_neg heq] at hj
          exact h.bouncing j e hj hbounces
      lent_nodup := hnodup
      lent := by
        rcases held_set h.keys_nodup hfind entry' InflightChunk.staging with ⟨hold, hnew⟩
        exact (hlent _ hold).trans (hnew.symm.append_right _)
      returned := hreturned
      reads := by
        intro read hread
        rcases h.reads read hread with ⟨e, file, he, hfile, hopen, hfd⟩
        by_cases heq : read.id = id
        · rw [heq, hfind] at he
          obtain rfl := Option.some.inj he
          refine ⟨entry', file, ?_, ?_, hopen, hfd⟩
          · rw [find_set, if_pos heq, hfind, Option.map_some]
          · have hids : entry'.workloadId = entry.workloadId ∧
                entry'.batchIndex = entry.batchIndex :=
              ⟨congrArg Owner.workloadId howner, congrArg Owner.batchIndex howner⟩
            rw [hids.1, hids.2]
            exact hfile
        · refine ⟨e, file, ?_, hfile, hopen, hfd⟩
          rw [find_set, if_neg heq]
          exact he }

/-- The entry of a chunk is changed, and its buffers stay. -/
theorem Core.setPlain (h : Core env hand w) (hfind : w.chunks.find id = some entry)
    (howner : entry'.owner = entry.owner) (hscratch : entry'.scratch = entry.scratch)
    (hstaging : entry'.staging = entry.staging)
    (hbouncing : entry'.bounces = true → entry.bounces = true) :
    Core env hand { w with chunks := w.chunks.set id entry' } := by
  refine h.setEntry w.copying hfind howner (List.Perm.refl _) rfl rfl h.copied rfl ?_ ?_
    h.lent_nodup ?_ h.returned
  · intro rest hrest p hp
    rcases h.pooled p hp with ⟨hperm, hlength⟩
    rw [hscratch]
    exact ⟨(hrest.symm.append_left _).trans hperm, hlength⟩
  · exact fun hbounces => h.bouncing id entry hfind (hbouncing hbounces)
  · intro rest hrest
    rw [hstaging]
    exact h.lent.trans (hrest.append_right _)

/-- A pass is over, and its scratch buffer goes back. -/
theorem Core.clearBounce (h : Core env hand w) (hfind : w.chunks.find id = some entry) :
    Core env hand (w.clearBounce id entry) := by
  refine h.setEntry w.copying hfind rfl (List.Perm.refl _) rfl rfl h.copied ?_ ?_ ?_
    h.lent_nodup ?_ h.returned
  · cases entry.scratch with
    | none => rfl
    | some buffer => exact Option.isSome_map
  · intro rest hrest p hp
    cases hscratch : entry.scratch with
    | none =>
        rw [hscratch] at hp hrest
        rcases h.pooled p hp with ⟨hperm, hlength⟩
        exact ⟨(hrest.symm.append_left _).trans hperm, hlength⟩
    | some buffer =>
        rw [hscratch] at hp hrest
        rcases Option.map_eq_some_iff.1 hp with ⟨p₀, hp₀, rfl⟩
        rcases h.pooled p₀ hp₀ with ⟨hperm, hlength⟩
        refine ⟨?_, hlength⟩
        exact List.perm_middle.symm.trans ((hrest.symm.append_left _).trans hperm)
  · intro hbounces
    cases hbounces
  · intro rest hrest
    exact h.lent.trans (hrest.append_right _)

/-- A chunk gets a staging buffer. -/
theorem Core.acquire {buffer : StagingBuffer} (h : Core env hand w)
    (hfind : w.chunks.find id = some entry) (hstaging : entry.staging = none)
    (hfree : buffer ∉ w.lent) :
    Core env hand
      { w with
        lent := w.lent ++ [buffer]
        borrowed := w.borrowed ++ [buffer]
        chunks := w.chunks.set id { entry with staging := some buffer } } := by
  refine h.setEntry w.copying hfind rfl (List.Perm.refl _) rfl rfl h.copied rfl ?_ ?_ ?_ ?_ ?_
  · intro rest hrest p hp
    rcases h.pooled p hp with ⟨hperm, hlength⟩
    exact ⟨(hrest.symm.append_left _).trans hperm, hlength⟩
  · exact fun hbounces => h.bouncing id entry hfind hbounces
  · exact List.nodup_append'.2
      ⟨h.lent_nodup, List.nodup_singleton buffer, List.disjoint_singleton.2 hfree⟩
  · intro rest hrest
    rw [hstaging] at hrest
    have hlent := (h.lent.trans (hrest.append_right _)).append_right [buffer]
    exact hlent.trans (List.perm_append_singleton _ _)
  · rw [← List.append_assoc]
    exact h.returned.append_right [buffer]

/-- A pass that was planned, with the scratch buffer that it takes. -/
theorem planPass_scratch {pool pool' : Option ScratchPool} {pending : Chunk} {block : Nat}
    {direct staged : Bool} {pass : DirectPass}
    (h : planPass pool pending block direct staged = some (pass, pool')) :
    pool'.isSome = pool.isSome ∧ ∀ p', pool' = some p' →
      ∃ p, pool = some p ∧ p.free = pass.scratch.toList ++ p'.free := by
  rcases planPass_shape h with _ | _ | _ | ⟨hpool, htake⟩
  · exact ⟨rfl, fun p' hp' => ⟨p', hp', rfl⟩⟩
  · exact ⟨rfl, fun p' hp' => ⟨p', hp', rfl⟩⟩
  · exact ⟨rfl, fun p' hp' => ⟨p', hp', rfl⟩⟩
  · rename_i scratch p p''
    refine ⟨by rw [hpool]; rfl, ?_⟩
    rintro p' ⟨⟩
    refine ⟨p, hpool, ?_⟩
    unfold ScratchPool.take at htake
    cases hfree : p.free with
    | nil =>
        rw [hfree] at htake
        cases htake
    | cons buffer free =>
        rw [hfree] at htake
        cases htake
        rfl

/-- A chunk without a pass has no scratch buffer. -/
theorem scratch_of_quiet (hquiet : entry.bounces = false) : entry.scratch = none :=
  (not_bounces_iff.1 hquiet).1

/-- The scratch buffer of an entry that has got a pass. -/
theorem withPass_scratch (hquiet : entry.bounces = false) (pass : DirectPass) :
    (entry.withPass pass).scratch = pass.scratch := by
  unfold InflightChunk.withPass
  split
  · rfl
  · rename_i hplain
    rw [scratch_of_quiet hquiet]
    cases hscratch : pass.scratch with
    | none => rfl
    | some buffer =>
        rw [hscratch] at hplain
        exact absurd (Or.inl rfl) hplain

/-- A read is staged, and its pass is recorded. -/
theorem Core.stage {pass : DirectPass} {direct staged : Bool} {pending : Chunk} {block : Nat}
    {scratch : Option ScratchPool} (h : Core env (hand.slot id) w)
    (hfind : w.chunks.find id = some entry) (hquiet : entry.bounces = false)
    (hplan : planPass w.scratch pending block direct staged = some (pass, scratch))
    (hread : read.id = id) (hreads : w.Reads read) :
    Core env hand
      { w with
        scratch
        chunks := w.chunks.set id (entry.withPass pass)
        staged := w.staged ++ [read] } := by
  have hmoved : Core env hand { w with staged := w.staged ++ [read] } :=
    { h with
      placed := by
        refine List.Perm.trans ?_ h.placed
        unfold Hand.ids Hand.slot Worker.places Worker.engineIds
        rw [List.perm_iff_count]
        intro x
        simp only [List.map_append, List.map_cons, List.map_nil, List.count_append,
          List.count_cons, List.count_nil, hread, Worker.copyIds]
        omega
      bouncing := by
        intro j e hj hbounces
        have hmem := h.bouncing j e hj hbounces
        unfold Worker.engineIds at hmem ⊢
        simp only [List.map_append, List.mem_append] at hmem ⊢
        tauto
      reads := by
        intro r hr
        rw [List.append_assoc, List.mem_append, List.mem_append, List.mem_singleton] at hr
        rcases hr with hr | rfl | hr
        · exact h.reads r (List.mem_append_left _ hr)
        · exact hreads
        · exact h.reads r (List.mem_append_right _ hr) }
  rcases planPass_scratch hplan with ⟨hsome, hfree⟩
  refine hmoved.setEntry w.copying hfind ?_ (List.Perm.refl _) rfl rfl h.copied hsome ?_ ?_
    h.lent_nodup ?_ h.returned
  · unfold InflightChunk.withPass
    split <;> rfl
  · intro rest hrest p' hp'
    rcases hfree p' hp' with ⟨p, hp, heq⟩
    rcases h.pooled p hp with ⟨hperm, hlength⟩
    rw [scratch_of_quiet hquiet] at hrest
    rw [heq] at hperm
    rw [withPass_scratch hquiet]
    refine ⟨(List.perm_append_comm_assoc _ _ _).trans ?_, hlength⟩
    rw [← List.append_assoc]
    exact (hrest.symm.append_left _).trans hperm
  · intro _
    unfold Worker.engineIds
    simp only [List.map_append, List.mem_append, List.map_cons, List.map_nil, hread]
    exact Or.inr (Or.inl (Or.inr List.mem_cons_self))
  · intro rest hrest
    rw [withPass_staging]
    exact h.lent.trans (hrest.append_right _)

/-- A copy is issued, and holds the staging buffer of its chunk. -/
theorem Core.copy {buffer : StagingBuffer} (h : Core env (hand.slot id) w)
    (hfind : w.chunks.find id = some entry) (hstaging : entry.staging = some buffer) :
    Core env hand
      { w with
        chunks := w.chunks.set id { entry with staging := none }
        copying := w.copying ++ [{ id, staging := buffer }]
        copiesIssued := w.copiesIssued + 1 } := by
  have howner : { entry with staging := none }.owner = entry.owner := rfl
  have hslot : hand.reaped = (hand.slot id).reaped ∧ hand.finishing = (hand.slot id).finishing :=
    ⟨rfl, rfl⟩
  refine h.setEntry (w.copying ++ [{ id, staging := buffer }]) hfind howner ?_ hslot.1 hslot.2 ?_ rfl
    ?_ ?_ h.lent_nodup ?_ h.returned
  · unfold Hand.ids Hand.slot Worker.places Worker.engineIds Worker.copyIds
    rw [List.perm_iff_count]
    intro x
    simp only [List.map_append, List.map_cons, List.map_nil, List.count_append,
      List.count_cons, List.count_nil]
    omega
  · have hcopied := h.copied
    rw [List.length_append, List.length_singleton]
    omega
  · intro rest hrest p hp
    rcases h.pooled p hp with ⟨hperm, hlength⟩
    exact ⟨(hrest.symm.append_left _).trans hperm, hlength⟩
  · exact fun hbounces => h.bouncing id entry hfind hbounces
  · intro rest hrest
    rw [hstaging] at hrest
    refine (h.lent.trans (hrest.append_right _)).trans ?_
    rw [List.perm_iff_count]
    intro x
    simp only [List.map_append, List.map_cons, List.map_nil, List.count_append,
      List.count_cons, List.count_nil, Option.toList_some, Option.toList_none]
    omega

/-! ## The engine -/

/-- Reads are issued. -/
theorem Core.flush {n : Nat} (h : Core env hand w) (hn : n ≤ w.staged.length) :
    Core env hand
      { w with
        kernel := w.kernel ++ w.staged.take n
        staged := w.staged.drop n
        issued := w.issued + n } := by
  have hids : ((w.staged.drop n).map EngineRead.id ++
      (w.kernel ++ w.staged.take n).map EngineRead.id).Perm w.engineIds := by
    unfold Worker.engineIds
    conv_rhs => rw [← List.take_append_drop n w.staged]
    rw [List.perm_iff_count]
    intro x
    simp only [List.map_append, List.count_append]
    omega
  exact
    { h with
      placed := by
        refine List.Perm.trans ?_ h.placed
        unfold Worker.places
        apply List.Perm.append_left
        apply List.Perm.append_left
        apply List.Perm.append_left
        exact hids.append_right _
      issued := by
        have hissued := h.issued
        simp only [List.length_append, List.length_take]
        omega
      bouncing := by
        intro j e hj hbounces
        have hmem := h.bouncing j e hj hbounces
        rw [List.mem_append] at hmem ⊢
        exact hmem.imp_right fun hin => hids.symm.subset hin
      reads := by
        intro read hread
        apply h.reads
        simp only [List.mem_append] at hread ⊢
        rcases hread with hdrop | hkernel | htake
        · exact Or.inl (List.mem_of_mem_drop hdrop)
        · exact Or.inr hkernel
        · exact Or.inl (List.mem_of_mem_take htake) }

/-- The engine hands a completion out. -/
theorem Core.reap {kernel : List EngineRead} (h : Core env hand w)
    (hkernel : w.kernel.Perm (read :: kernel)) :
    Core env { hand with reaped := hand.reaped ++ [read.id] } { w with kernel } :=
  { h with
    placed := by
      refine List.Perm.trans ?_ h.placed
      have hids := hkernel.map EngineRead.id
      rw [List.perm_iff_count] at hids ⊢
      intro x
      have hcount := hids x
      unfold Hand.ids Worker.places Worker.engineIds
      simp only [List.map_cons, List.count_append, List.count_cons, List.count_nil,
        Worker.copyIds] at hcount ⊢
      omega
    issued := by
      have hlength := hkernel.length_eq
      rw [List.length_cons] at hlength
      change w.issued = (hand.reaped ++ [read.id]).length + kernel.length
      rw [List.length_append, List.length_singleton, h.issued, hlength]
      omega
    bouncing := by
      intro j e hj hbounces
      have hmem := h.bouncing j e hj hbounces
      unfold Worker.engineIds at hmem ⊢
      have hids := (hkernel.map EngineRead.id).mem_iff (a := j)
      simp only [List.mem_append, List.map_cons, List.mem_cons, List.not_mem_nil,
        or_false] at hmem hids ⊢
      tauto
    reads := by
      intro r hr
      apply h.reads
      simp only [List.mem_append] at hr ⊢
      exact hr.imp_right fun hin => hkernel.symm.subset (List.mem_cons_of_mem _ hin) }

/-! ## Copies -/

/-- Without a buffer to give back, all stay lent. -/
theorem filter_lent_none (lent : List StagingBuffer) :
    lent.filter (fun b => none ≠ some b) = lent := by
  rw [List.filter_eq_self]
  intro b _
  exact decide_eq_true (Option.some_ne_none b).symm

/-- A buffer that was lent once is taken out of the list. -/
theorem filter_lent {lent rest : List StagingBuffer} {buffer : StagingBuffer}
    (hnodup : lent.Nodup) (hperm : lent.Perm (buffer :: rest)) :
    (lent.filter fun b => some buffer ≠ some b).Perm rest := by
  have hout : buffer ∉ rest := (List.nodup_cons.1 (hperm.nodup hnodup)).1
  have hrest : rest.filter (fun b => some buffer ≠ some b) = rest := by
    rw [List.filter_eq_self]
    intro b hb
    rw [decide_eq_true_eq, Ne, Option.some.injEq]
    rintro rfl
    exact hout hb
  have hfilter := hperm.filter fun b => decide (some buffer ≠ some b)
  rwa [List.filter_cons_of_neg (by simp), hrest] at hfilter

/-- A buffer that was lent once moves from the lent buffers to the returned ones. -/
theorem returned_filter {lent returned borrowed rest : List StagingBuffer} {buffer : StagingBuffer}
    (hnodup : lent.Nodup) (hperm : lent.Perm (buffer :: rest))
    (hreturned : borrowed.Perm (returned ++ lent)) :
    borrowed.Perm
      ((returned ++ [buffer]) ++ lent.filter fun b => some buffer ≠ some b) := by
  have hleft := (filter_lent hnodup hperm).symm
  have hmoved := hreturned.trans (hperm.append_left returned)
  rw [List.append_assoc]
  exact hmoved.trans ((hleft.cons buffer).append_left returned)

/-- A copy lands, and its buffer is the pool's again. -/
theorem Core.copyLands {copy : IssuedCopy} {copying : List IssuedCopy} {done : CopyDone}
    (h : Core env hand w) (hcopying : w.copying.Perm (copy :: copying))
    (hdone : done.id = copy.id) :
    Core env hand { w.giveBack copy.staging with copying, copies := w.copies ++ [done] } :=
  { h with
    placed := by
      refine List.Perm.trans ?_ h.placed
      have hids := hcopying.map IssuedCopy.id
      rw [List.perm_iff_count] at hids ⊢
      intro x
      have hcount := hids x
      unfold Worker.places Worker.copyIds Worker.engineIds Worker.giveBack
      simp only [List.map_cons, List.map_append, List.map_nil, List.count_append,
        List.count_cons, List.count_nil, hdone] at hcount ⊢
      omega
    copied := by
      have hcopied := h.copied
      have hlength := hcopying.length_eq
      rw [List.length_cons] at hlength
      change w.copiesIssued = copying.length + (w.copies ++ [done]).length
      rw [List.length_append, List.length_singleton]
      omega
    lent_nodup := h.lent_nodup.filter _
    lent := by
      have hperm := h.lent.trans ((hcopying.map IssuedCopy.staging).append_left _)
      rw [List.map_cons] at hperm
      exact filter_lent h.lent_nodup (hperm.trans List.perm_middle)
    returned := by
      have hperm := h.lent.trans ((hcopying.map IssuedCopy.staging).append_left _)
      rw [List.map_cons] at hperm
      exact returned_filter h.lent_nodup (hperm.trans List.perm_middle) h.returned }

/-- A copy that has landed is accounted next. -/
theorem Core.popCopy {done : CopyDone} {copies : List CopyDone} (h : Core env hand w)
    (hcopies : w.copies = done :: copies) :
    Core env (hand.hold done.id)
      { w with copies, copiesIssued := w.copiesIssued - 1 } :=
  { h with
    placed := by
      refine List.Perm.trans ?_ h.placed
      unfold Hand.ids Hand.hold Worker.places Worker.copyIds Worker.engineIds
      rw [hcopies, List.perm_iff_count]
      intro x
      simp only [List.map_cons, List.count_append, List.count_cons]
      omega
    copied := by
      have hcopied := h.copied
      rw [hcopies, List.length_cons] at hcopied
      change w.copiesIssued - 1 = w.copying.length + copies.length
      omega }

/-! ## Workloads -/

section Update

variable (f : Inflight → Inflight)

/-- A workload that was changed, or another one. -/
theorem lookup_updated {t : Table Inflight} (hwl : t.lookup workloadId = some wl) {j : Nat}
    {wl' : Inflight} (hj : (t.update workloadId f).lookup j = some wl') :
    j = workloadId ∧ wl' = f wl ∨ j ≠ workloadId ∧ t.lookup j = some wl' := by
  rw [Table.lookup_update] at hj
  by_cases heq : j = workloadId
  · rw [if_pos heq, hwl, Option.map_some] at hj
    exact Or.inl ⟨heq, (Option.some.inj hj).symm⟩
  · rw [if_neg heq] at hj
    exact Or.inr ⟨heq, hj⟩

/-- The batches stay when a workload is changed. -/
theorem live_update (hnodup : w.workloads.keys.Nodup)
    (hwl : w.workloads.lookup workloadId = some wl) (hbatches : (f wl).batches = wl.batches) :
    { w with workloads := w.workloads.update workloadId f }.live = w.live := by
  unfold Worker.live
  rw [List.flatMap_def, List.flatMap_def]
  exact congrArg List.flatten (Table.map_update hnodup hwl f Inflight.batches hbatches)

/-- The chunks belong to the same batches when a workload is changed. -/
theorem Worker.Routes.update {o : Owner} (h : w.Routes o)
    (hwl : w.workloads.lookup workloadId = some wl) (hbatches : (f wl).batches = wl.batches) :
    { w with workloads := w.workloads.update workloadId f }.Routes o := by
  rcases h with ⟨wl', batch, hlookup, hbatch, hchunk⟩
  by_cases heq : o.workloadId = workloadId
  · rw [heq, hwl] at hlookup
    obtain rfl := Option.some.inj hlookup
    refine ⟨f wl, batch, ?_, hbatches ▸ hbatch, hchunk⟩
    rw [Table.lookup_update, if_pos heq, hwl, Option.map_some]
  · refine ⟨wl', batch, ?_, hbatch, hchunk⟩
    rw [Table.lookup_update, if_neg heq, hlookup]

/-- The descriptors after a workload was changed. -/
theorem descriptors_update (hnodup : w.workloads.keys.Nodup)
    (hwl : w.workloads.lookup workloadId = some wl) :
    ∃ rest, w.descriptors.Perm (wl.descriptors ++ rest) ∧
      { w with workloads := w.workloads.update workloadId f }.descriptors.Perm
        ((f wl).descriptors ++ rest) := by
  refine ⟨(w.workloads.remove workloadId).flatMap fun e => e.2.descriptors, ?_, ?_⟩
  · exact (Table.perm_remove hnodup hwl).flatMap_right fun e => e.2.descriptors
  · exact (Table.perm_update hnodup hwl f).flatMap_right fun e => e.2.descriptors

/-- The descriptor of a batch after a workload was changed. -/
theorem fileAt_update (hwl : w.workloads.lookup workloadId = some wl) (i j : Nat) :
    { w with workloads := w.workloads.update workloadId f }.fileAt i j =
      if i = workloadId then (f wl).fds[j]? else w.fileAt i j := by
  unfold Worker.fileAt
  rw [Table.lookup_update, hwl]
  by_cases heq : i = workloadId
  · rw [if_pos heq, if_pos heq, Option.map_some, Option.bind_some]
  · rw [if_neg heq, if_neg heq]

end Update

/-! ## Descriptors -/

/-- The descriptor of a batch, and the others of its workload. -/
theorem descriptors_set {file : BatchFd} (file' : BatchFd)
    (hfile : wl.fds[batchIndex]? = some file) :
    ∃ rest, wl.descriptors.Perm (file.descriptor ++ rest) ∧
      { wl with fds := wl.fds.set batchIndex file' }.descriptors.Perm
        (file'.descriptor ++ rest) := by
  rcases List.getElem?_eq_some_iff.1 hfile with ⟨hbound, hget⟩
  refine ⟨(wl.fds.eraseIdx batchIndex).flatMap BatchFd.descriptor, ?_, ?_⟩
  · have hperm := List.getElem_cons_eraseIdx_perm hbound
    rw [hget] at hperm
    exact hperm.symm.flatMap_right _
  · exact (List.set_perm_cons_eraseIdx hbound file').flatMap_right _

/-- The descriptor of a batch is changed. -/
theorem Core.setFile {file : BatchFd} {opened : List Int} (h : Core env hand w)
    (file' : BatchFd) (hwl : w.workloads.lookup workloadId = some wl)
    (hfile : wl.fds[batchIndex]? = some file)
    (hdirect : file'.direct = true → w.strategy.isDirect = true)
    (hkeep : 0 ≤ file.fd → file'.fd = file.fd) (hnodup : opened.Nodup)
    (hopened : ∀ rest, w.descriptors.Perm (file.descriptor ++ rest) →
      opened.Perm (file'.descriptor ++ rest)) :
    Core env hand { w.setFile workloadId batchIndex file' with opened } := by
  let f : Inflight → Inflight := fun wl => { wl with fds := wl.fds.set batchIndex file' }
  exact
    { h with
      ids_nodup := (Table.keys_update w.workloads workloadId f).symm ▸ h.ids_nodup
      ids_lt := (Table.keys_update w.workloads workloadId f).symm ▸ h.ids_lt
      owned := fun o ho => (h.owned o ho).update f hwl rfl
      workload := by
        intro j wl' hj
        rcases lookup_updated f hwl hj with ⟨rfl, rfl⟩ | ⟨-, hj⟩
        · have hok := h.workload _ wl hwl
          exact
            { hok with
              files := List.length_set.trans hok.files
              direct := by
                intro other hother
                rcases List.mem_or_eq_of_mem_set hother with hmem | rfl
                · exact hok.direct other hmem
                · exact hdirect
              telling := hok.telling }
        · exact h.workload j wl' hj
      unfinished := by
        intro j wl' hj hout
        rcases lookup_updated f hwl hj with ⟨rfl, rfl⟩ | ⟨-, hj⟩
        · exact h.unfinished _ wl hwl hout
        · exact h.unfinished j wl' hj hout
      accounts := by
        rcases h.accounts with ⟨settled, hperm, hsettled⟩
        refine ⟨settled, ?_, hsettled⟩
        rw [← live_update f h.ids_nodup hwl rfl] at hperm
        exact hperm
      opened_nodup := hnodup
      opened := by
        rcases descriptors_update f h.ids_nodup hwl with ⟨others, hall, hall'⟩
        rcases descriptors_set file' hfile with ⟨rest, hown, hown'⟩
        have hbefore := hall.trans (hown.append_right others)
        rw [List.append_assoc] at hbefore
        have hafter := hall'.trans (hown'.append_right others)
        rw [List.append_assoc] at hafter
        exact (hopened _ hbefore).trans hafter.symm
      reads := by
        intro read hread
        rcases h.reads read hread with ⟨e, other, he, hother, hopen, hfd⟩
        have hat := fileAt_update f hwl e.workloadId e.batchIndex
        by_cases hids : e.workloadId = workloadId
        · rw [if_pos hids] at hat
          unfold Worker.fileAt at hother
          rw [hids, hwl, Option.bind_some] at hother
          by_cases hindex : e.batchIndex = batchIndex
          · rw [hindex, hfile] at hother
            obtain rfl := Option.some.inj hother
            have hbound := (List.getElem?_eq_some_iff.1 hfile).1
            have hsame := hkeep hopen
            refine ⟨e, file', he, ?_, hsame ▸ hopen, hfd.trans hsame.symm⟩
            refine hat.trans ?_
            rw [hindex]
            exact List.getElem?_set_self hbound
          · refine ⟨e, other, he, hat.trans ?_, hopen, hfd⟩
            rw [← hother]
            exact List.getElem?_set_ne (Ne.symm hindex)
        · rw [if_neg hids] at hat
          exact ⟨e, other, he, hat.trans hother, hopen, hfd⟩ }

end Moves

end AsyncIo
end ModelStreamer
