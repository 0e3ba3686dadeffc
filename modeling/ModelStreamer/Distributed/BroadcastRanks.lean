import ModelStreamer.Distributed.BroadcastScript

/-!
# Where a rank is

At every point of every run, where a rank is follows from the tensors that it has taken part
in.  This file is about the steps of a rank between two broadcasts.

Main results:

- Theorem {lit}`RankInv.frame`: a rank does not see what others broadcast until it gets there.
- Theorem {lit}`Settled.afterRank`: on to the next rank, or to the next round.
- Theorem {lit}`RankInv.fill`: the top of the loop.
- Theorem {lit}`RankInv.yieldNext`: the chunks of a batch.
-/

namespace ModelStreamer
namespace Distributed
namespace Broadcast

open Lib

variable {β : Type*}

/-! ## The invariant -/

/-- The script after the first {lit}`k` broadcasts. -/
def scriptOf (g : Group) (log : List (Message β)) (k : Nat) : Script β :=
  scriptAt (Script.add g) (Script.start β) log k

/-- The rank has filled its staging buffer and not broadcast it. -/
def Phase.unsent (i : Nat) : Phase → Bool
  | .metadata r => r ≤ i
  | .data r => r ≤ i
  | .yielding r _ => r < i
  | _ => false

/-- The batch that a rank has filled and not broadcast. -/
def RankState.unsent (i : Nat) (st : RankState β) : List (Yielded β) :=
  if st.phase.unsent i then unpack st.staging.count st.staging.batch.rows st.staging.data else []

/-- What a rank has taken part in and not yielded. -/
def RankState.rest (i : Nat) (st : RankState β) : List (Yielded β) :=
  match st.phase with
  | .yielding r j =>
      (unpack (st.metadataOf i r).count (st.metadataOf i r).rows (st.bufferOf i r)).drop j
  | _ => []

/-- The round that ends when the rank has yielded the last batch. -/
def RankState.endingRound (g : Group) (st : RankState β) : List Int :=
  match st.phase with
  | .yielding r _ => if r + 1 < g.size then [] else [st.chunksToRead]
  | _ => []

/-- The rank is where the script is. -/
def RankState.Agrees (g : Group) (i : Nat) (st : RankState β) (sc : Script β) : Prop :=
  match st.phase with
  | .filling => sc.cursor = .metadata 0
  | .metadata r =>
      r < g.size ∧ sc.cursor = .metadata r ∧
        st.totalBroadcastChunks = (if r = 0 then 0 else sc.round) ∧
        (r = 0 → 0 < st.chunksToRead)
  | .data r =>
      r < g.size ∧ sc.cursor = .data r (if r = i then st.staging.batch else st.receivedMetadata) ∧
        st.totalBroadcastChunks = sc.round
  | .yielding r _ =>
      r < g.size ∧ sc.cursor = .metadata (nextRank g r) ∧ st.totalBroadcastChunks = sc.round
  | .finished => sc.cursor = .metadata 0 ∧ st.chunksToRead = 0
  | .raised => False
  | .mismatched => False

/-- What does not depend on where the rank is. -/
structure RankCore (g : Group) (share : Nat → List (ReadyChunk β)) (i : Nat)
    (log : List (Message β)) (st : RankState β) : Prop where
  calls_le : st.calls ≤ log.length
  own_lt : ∀ k msg, log[k]? = some msg → msg.source = i → k < st.calls
  chunks : st.chunksToRead = (g.total : Int) - (scriptOf g log st.calls).count
  made : st.made = (log.take st.calls).map fun msg => (msg.source, msg.tensor.shape)
  reading : st.staging.readingFromStorage = false → st.staging.pending = []
  rows : RowsOk g.bufferBytesize st.staging.count st.staging.dataSize st.staging.batch.rows
  batch_count : st.staging.batch.count = st.staging.count
  subset : ∀ chunk ∈ st.staging.pending, chunk ∈ share i

/-- What holds of a rank between two steps. -/
structure RankInv (g : Group) (share : Nat → List (ReadyChunk β)) (i : Nat)
    (log : List (Message β)) (st : RankState β) : Prop where
  core : RankCore g share i log st
  agrees : st.Agrees g i (scriptOf g log st.calls)
  yields : st.yields ++ st.rest i = (scriptOf g log st.calls).yields
  rounds : st.rounds ++ st.endingRound g =
    (scriptOf g log st.calls).rounds.map fun (count : Nat) => (g.total : Int) - count
  /-- What was sent, what is in the staging buffer and what is left are the share. -/
  share : (scriptOf g log log.length).sent i ++ st.unsent i ++
      st.staging.pending.map (ReadyChunk.original (g.dicts i)) =
    (share i).map (ReadyChunk.original (g.dicts i))
  empty : st.phase.unsent i = true → st.staging.count = 0 → st.staging.pending = []

/-- A rank that is done with the batch of rank {lit}`r`. -/
structure Settled (g : Group) (share : Nat → List (ReadyChunk β)) (i : Nat)
    (log : List (Message β)) (r : Nat) (st : RankState β) : Prop where
  core : RankCore g share i log st
  lt : r < g.size
  cursor : (scriptOf g log st.calls).cursor = .metadata (nextRank g r)
  total : st.totalBroadcastChunks = (scriptOf g log st.calls).round
  yields : st.yields = (scriptOf g log st.calls).yields
  rounds : st.rounds ++ (if r + 1 < g.size then [] else [st.chunksToRead]) =
    (scriptOf g log st.calls).rounds.map fun (count : Nat) => (g.total : Int) - count
  share : (scriptOf g log log.length).sent i ++
      (if r < i then unpack st.staging.count st.staging.batch.rows st.staging.data else []) ++
      st.staging.pending.map (ReadyChunk.original (g.dicts i)) =
    (share i).map (ReadyChunk.original (g.dicts i))
  empty : r < i → st.staging.count = 0 → st.staging.pending = []

/-- What the group is given: shares that make up all chunks, and none larger than the largest. -/
structure SharesOk (g : Group) (share : Nat → List (ReadyChunk β)) : Prop where
  size_pos : 0 < g.size
  total : g.total = ((List.range g.size).map fun i => (share i).length).sum
  fits : ∀ i < g.size, ∀ chunk ∈ share i, chunk.bytes.length ≤ g.maxChunk

/-- What holds of the group between two steps. -/
structure JobInv (g : Group) (share : Nat → List (ReadyChunk β)) (s : Job β) : Prop where
  scripted : Scripted (Script.add g) (Allowed g fun i => (share i).length) (Script.start β) s.log
  ranks : ∀ i < g.size, RankInv g share i s.log (s.rank i)

/-! ## The script along a run -/

section Scripts

variable {g : Group} {share : Nat → List (ReadyChunk β)} {log : List (Message β)} {k r : Nat}
  {msg : Message β} {m : Metadata}

/-- The script keeps what it keeps at every position of the log. -/
theorem scriptInv_of_scripted (hok : SharesOk g share)
    (h : Scripted (Script.add g) (Allowed g fun i => (share i).length) (Script.start β) log)
    (hk : k ≤ log.length) : ScriptInv g (fun i => (share i).length) (scriptOf g log k) :=
  h.invariant (scriptInv_start hok.size_pos) (fun _ _ hinv hmsg => hinv.add hmsg) hk

theorem scriptOf_succ (hmsg : log[k]? = some msg) :
    scriptOf g log (k + 1) = (scriptOf g log k).add g msg :=
  scriptAt_succ hmsg

theorem scriptOf_concat (msg : Message β) (hk : k ≤ log.length) :
    scriptOf g (log ++ [msg]) k = scriptOf g log k :=
  scriptAt_concat msg hk

theorem add_metadata_zero {sc : Script β} (hcursor : sc.cursor = .metadata r)
    (hzero : m.count = 0) (source : Nat) :
    sc.add g ⟨source, .metadata m⟩ = (sc.announced r m).passed g r := by
  unfold Script.add
  simp only [hcursor, hzero, if_true]

theorem add_metadata_pos {sc : Script β} (hcursor : sc.cursor = .metadata r)
    (hpos : m.count ≠ 0) (source : Nat) :
    sc.add g ⟨source, .metadata m⟩ = { sc.announced r m with cursor := .data r m } := by
  unfold Script.add
  simp only [hcursor, hpos, if_false]

theorem add_data {sc : Script β} (hcursor : sc.cursor = .data r m) (source : Nat)
    (bytes : List β) :
    sc.add g ⟨source, .data bytes⟩ =
      { sc with batches := sc.batches ++ [(r, unpackBytes m bytes)] }.passed g r := by
  unfold Script.add
  simp only [hcursor]

/-- Another rank's tensor changes nothing about what a rank has sent. -/
theorem sent_add_of_ne {length : Nat → Nat} {sc : Script β} (hmsg : Allowed g length sc msg)
    {i : Nat} (hi : msg.source ≠ i) : (sc.add g msg).sent i = sc.sent i := by
  unfold Allowed at hmsg
  unfold Script.add
  split at hmsg
  · split
    · rfl
    · rfl
  · rename_i r m bytes hcursor htensor
    rw [passed_sent, sent_concat, if_neg (hmsg.1 ▸ hi), List.append_nil]
  · exact hmsg.elim

/-- A rank does not see what others broadcast until it gets there. -/
theorem RankInv.frame {length : Nat → Nat} {i : Nat} {st : RankState β}
    (h : RankInv g share i log st) (hmsg : Allowed g length (scriptOf g log log.length) msg)
    (hi : msg.source ≠ i) : RankInv g share i (log ++ [msg]) st := by
  have hcalls := h.core.calls_le
  have hscript := scriptOf_concat (g := g) msg hcalls
  have hlast : scriptOf g (log ++ [msg]) (log ++ [msg]).length =
      (scriptOf g log log.length).add g msg := by
    rw [List.length_append, List.length_singleton]
    exact scriptAt_concat_last msg
  refine ⟨⟨?_, ?_, ?_, ?_, h.core.reading, h.core.rows, h.core.batch_count, h.core.subset⟩,
    ?_, ?_, ?_, ?_, h.empty⟩
  · rw [List.length_append]
    omega
  · intro k other hother hsource
    rcases Nat.lt_or_ge k log.length with hlt | hge
    · rw [List.getElem?_append_left hlt] at hother
      exact h.core.own_lt k other hother hsource
    · rw [List.getElem?_append_right hge] at hother
      rw [← List.mem_singleton.1 (List.mem_of_getElem? hother)] at hi
      exact absurd hsource hi
  · rw [hscript]
    exact h.core.chunks
  · rw [List.take_append_of_le_length hcalls]
    exact h.core.made
  · rw [hscript]
    exact h.agrees
  · rw [hscript]
    exact h.yields
  · rw [hscript]
    exact h.rounds
  · rw [hlast, sent_add_of_ne hmsg hi]
    exact h.share

end Scripts

/-! ## From one rank to the next -/

section Ranks

variable {g : Group} {share : Nat → List (ReadyChunk β)} {log : List (Message β)} {i r : Nat}
  {st : RankState β} {m : Metadata}

/-- A rank that is done with one batch goes on to the next rank, or to the next round. -/
theorem Settled.afterRank (h : Settled g share i log r st) (hok : SharesOk g share)
    (hscript : ScriptInv g (fun i => (share i).length) (scriptOf g log st.calls))
    (hi : i < g.size) : RankInv g share i log (st.afterRank g r) := by
  unfold RankState.afterRank
  have hlt := h.lt
  split
  · rename_i hmore
    have hnext : nextRank g r = r + 1 := if_pos hmore
    refine ⟨⟨h.core.calls_le, h.core.own_lt, h.core.chunks, h.core.made, h.core.reading,
      h.core.rows, h.core.batch_count, h.core.subset⟩, ?_, ?_, ?_, ?_, ?_⟩
    · exact ⟨hmore, hnext ▸ h.cursor, h.total.trans (if_neg (Nat.succ_ne_zero r)).symm,
        fun hzero => absurd hzero (Nat.succ_ne_zero r)⟩
    · exact (List.append_nil _).trans h.yields
    · have hrounds := h.rounds
      rw [if_pos hmore] at hrounds
      exact hrounds
    · have hshare := h.share
      unfold RankState.unsent Phase.unsent
      simp only [decide_eq_true_eq]
      exact hshare
    · intro hunsent
      exact h.empty (of_decide_eq_true hunsent)
  · rename_i hlast
    have hcursor : (scriptOf g log st.calls).cursor = .metadata 0 := by
      rw [h.cursor]
      unfold nextRank
      rw [if_neg hlast]
    have hrounds := h.rounds
    rw [if_neg hlast] at hrounds
    have hsome : (scriptOf g log st.calls).rounds ≠ [] := by
      intro hnone
      rw [hnone] at hrounds
      simp at hrounds
    have hnot : ¬ (st.totalBroadcastChunks = 0 ∧ 0 < st.chunksToRead) := by
      rintro ⟨hzero, hpos⟩
      have hcount := hscript.count_eq_total hok.total hcursor hsome (h.total ▸ hzero)
      rw [h.core.chunks, hcount] at hpos
      omega
    rw [if_neg hnot]
    refine ⟨⟨h.core.calls_le, h.core.own_lt, h.core.chunks, h.core.made, h.core.reading,
      h.core.rows, h.core.batch_count, h.core.subset⟩, hcursor, ?_, ?_, ?_, nofun⟩
    · exact (List.append_nil _).trans h.yields
    · exact (List.append_nil _).trans hrounds
    · have hshare := h.share
      rw [if_neg (by omega)] at hshare
      exact hshare

/-- The top of the loop. -/
theorem RankInv.fill (h : RankInv g share i log st) (hok : SharesOk g share) (hi : i < g.size)
    (hscript : ScriptInv g (fun i => (share i).length) (scriptOf g log st.calls))
    (hphase : st.phase = .filling) : RankInv g share i log (st.fill g i) := by
  have hcursor := h.agrees
  have hyields := h.yields
  have hrounds := h.rounds
  have hshare := h.share
  unfold RankState.Agrees at hcursor
  unfold RankState.rest at hyields
  unfold RankState.endingRound at hrounds
  unfold RankState.unsent at hshare
  rw [hphase] at hcursor hyields hrounds hshare
  unfold RankState.fill
  split
  · rename_i hpos
    rcases prefill_spec g i st.staging h.core.reading with ⟨taken, hfilled⟩
    have hsub : ∀ chunk ∈ (prefill g i st.staging).pending, chunk ∈ share i := by
      intro chunk hchunk
      apply h.core.subset
      rw [hfilled.pending]
      exact List.mem_append_right _ hchunk
    refine ⟨⟨h.core.calls_le, h.core.own_lt, h.core.chunks, h.core.made, ?_, hfilled.rows,
      hfilled.batch_count, hsub⟩, ⟨hok.size_pos, hcursor, rfl, fun _ => hpos⟩, hyields,
      hrounds, ?_, ?_⟩
    · intro hreading
      have hnone := h.core.reading (hfilled.reading.symm.trans hreading)
      rw [hfilled.pending] at hnone
      exact (List.append_eq_nil_iff.1 hnone).2
    · unfold RankState.unsent
      change _ ++ (if (decide (0 ≤ i)) = true then _ else _) ++ _ = _
      rw [if_pos (decide_eq_true (Nat.zero_le i))]
      change _ ++ unpack (prefill g i st.staging).count _ _ ++
        (prefill g i st.staging).pending.map _ = _
      rw [hfilled.unpack, ← hshare, hfilled.pending, List.map_append]
      simp [Phase.unsent]
    · intro _ hzero
      have htaken : taken = [] := by
        rw [← List.length_eq_zero_iff, ← hfilled.count]
        exact hzero
      have hnone := hfilled.sends
        (fun chunk hchunk => hok.fits i hi chunk (h.core.subset chunk hchunk)) htaken
      rw [hfilled.pending] at hnone
      exact (List.append_eq_nil_iff.1 hnone).2
  · rename_i hdone
    have hle := hscript.count_le_total hok.total
    have hchunks := h.core.chunks
    have hzero : st.chunksToRead = 0 := by omega
    exact ⟨⟨h.core.calls_le, h.core.own_lt, h.core.chunks, h.core.made, h.core.reading,
      h.core.rows, h.core.batch_count, h.core.subset⟩, ⟨hcursor, hzero⟩, hyields, hrounds,
      hshare, nofun⟩

/-- A rank yields the next chunk, or is done with the batch. -/
theorem RankInv.yieldNext (h : RankInv g share i log st) (hok : SharesOk g share)
    (hi : i < g.size)
    (hscript : ScriptInv g (fun i => (share i).length) (scriptOf g log st.calls)) {j : Nat}
    (hphase : st.phase = .yielding r j) : RankInv g share i log (st.yieldNext g i r j) := by
  have hagrees := h.agrees
  have hyields := h.yields
  have hrounds := h.rounds
  have hshare := h.share
  have hempty := h.empty
  unfold RankState.Agrees at hagrees
  unfold RankState.rest at hyields
  unfold RankState.endingRound at hrounds
  unfold RankState.unsent at hshare
  rw [hphase] at hagrees hyields hrounds hshare hempty
  dsimp only at hagrees hyields hrounds
  unfold RankState.yieldNext
  split
  · rename_i hmore
    refine ⟨⟨h.core.calls_le, h.core.own_lt, h.core.chunks, h.core.made, h.core.reading,
      h.core.rows, h.core.batch_count, h.core.subset⟩, hagrees, ?_, hrounds, hshare, hempty⟩
    rw [← hyields, List.append_assoc]
    congr 1
    rw [drop_unpack _ _ hmore]
    rfl
  · rename_i hdone
    have hnone : (unpack (st.metadataOf i r).count (st.metadataOf i r).rows
        (st.bufferOf i r)).drop j = [] := by
      apply List.drop_eq_nil_of_le
      rw [length_unpack]
      omega
    rw [hnone, List.append_nil] at hyields
    have hsettled : Settled g share i log r st := by
      refine ⟨h.core, hagrees.1, hagrees.2.1, hagrees.2.2, hyields, hrounds, ?_, ?_⟩
      · unfold Phase.unsent at hshare
        simp only [decide_eq_true_eq] at hshare
        exact hshare
      · intro hlt
        exact hempty (decide_eq_true hlt)
    exact hsettled.afterRank hok hscript hi

end Ranks

end Broadcast
end Distributed
end ModelStreamer
