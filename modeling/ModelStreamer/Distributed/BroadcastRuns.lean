import ModelStreamer.Distributed.BroadcastRanks

/-!
# Runs of the broadcast

Where a rank is follows from the tensors that it has taken part in.  So the broadcast that a
rank waits for is the one that its source makes.

Main results:

- Theorem {lit}`RankInv.step`: what every step of a rank keeps.
- Theorem {lit}`JobInv.step`: what every step of every rank keeps for the group.
- Theorem {lit}`jobInv_run`: what holds at every point of every run.
-/

namespace ModelStreamer
namespace Distributed
namespace Broadcast

open Lib

variable {β : Type*}

/-! ## Broadcasts -/

section Calls

variable {g : Group} {share : Nat → List (ReadyChunk β)} {log log' : List (Message β)}
  {i r : Nat} {st st₁ : RankState β} {m : Metadata} {msg : Message β}

/-- The source of an allowed tensor is the rank whose turn it is. -/
theorem source_of_allowed {length : Nat → Nat} {sc : Script β} (h : Allowed g length sc msg)
    (hturn : sc.cursor = .metadata r ∨ ∃ m, sc.cursor = .data r m) : msg.source = r := by
  unfold Allowed at h
  split at h
  · rename_i hcursor _
    rw [hcursor] at hturn
    rcases hturn with hturn | ⟨m, hturn⟩
    · cases hturn
      exact h.1
    · cases hturn
  · rename_i hcursor _
    rw [hcursor] at hturn
    rcases hturn with hturn | ⟨m, hturn⟩
    · cases hturn
    · cases hturn
      exact h.1
  · exact h.elim

/-- When it is the turn of a rank, nobody has broadcast more than it has seen. -/
theorem RankCore.calls_eq {length : Nat → Nat} (h : RankCore g share i log st)
    (hscripted : Scripted (Script.add g) (Allowed g length) (Script.start β) log)
    (hturn : (scriptOf g log st.calls).cursor = .metadata i ∨
      ∃ m, (scriptOf g log st.calls).cursor = .data i m) : log.length = st.calls := by
  by_contra hne
  have hcalls := h.calls_le
  have hlt : st.calls < log.length := by omega
  have hmsg : log[st.calls]? = some log[st.calls] := List.getElem?_eq_getElem hlt
  have hsource := source_of_allowed (hscripted _ _ hmsg) hturn
  exact Nat.lt_irrefl _ (h.own_lt _ _ hmsg hsource)

/-- A rank has made one more broadcast. -/
theorem RankCore.called (h : RankCore g share i log st) (hmsg : log'[st.calls]? = some msg)
    (hsame_log : log'.take st.calls = log.take st.calls)
    (hown : ∀ k other, log'[k]? = some other → other.source = i → k < st.calls + 1)
    (hcalls : st₁.calls = st.calls + 1)
    (hmade : st₁.made = st.made ++ [(msg.source, msg.tensor.shape)])
    (hstaging : st₁.staging = st.staging)
    (hchunks : st₁.chunksToRead = (g.total : Int) - (scriptOf g log' (st.calls + 1)).count) :
    RankCore g share i log' st₁ := by
  refine ⟨?_, ?_, ?_, ?_, ?_, ?_, ?_, ?_⟩
  · rw [hcalls]
    exact (List.getElem?_eq_some_iff.1 hmsg).1
  · rw [hcalls]
    exact hown
  · rw [hcalls]
    exact hchunks
  · rw [hcalls, hmade, h.made, List.take_add_one, hmsg, hsame_log, Option.toList_some,
      List.map_append]
    rfl
  · rw [hstaging]
    exact h.reading
  · rw [hstaging]
    exact h.rows
  · rw [hstaging]
    exact h.batch_count
  · rw [hstaging]
    exact h.subset

/-- A rank knows of one more batch. -/
theorem RankInv.announce (h : RankInv g share i log st) (hphase : st.phase = .metadata r)
    {source : Nat} (hmsg : log'[st.calls]? = some ⟨source, .metadata m⟩)
    (hsame_log : scriptOf g log' st.calls = scriptOf g log st.calls)
    (hcore : RankCore g share i log' st₁) (hcalls : st₁.calls = st.calls + 1)
    (hstaging : st₁.staging = st.staging) (hyields₁ : st₁.yields = st.yields)
    (hrounds₁ : st₁.rounds = st.rounds)
    (htotal : st₁.totalBroadcastChunks = st.totalBroadcastChunks + m.count)
    (hbatch : (if r = i then st₁.staging.batch else st₁.receivedMetadata) = m)
    (hsent : (scriptOf g log' log'.length).sent i = (scriptOf g log log.length).sent i) :
    (m.count = 0 → Settled g share i log' r st₁) ∧
      (m.count ≠ 0 → RankInv g share i log' { st₁ with phase := .data r }) := by
  have hagrees := h.agrees
  have hyields := h.yields
  have hrounds := h.rounds
  have hshare := h.share
  have hempty := h.empty
  unfold RankState.Agrees at hagrees
  unfold RankState.rest at hyields
  unfold RankState.endingRound at hrounds
  unfold RankState.unsent Phase.unsent at hshare
  unfold Phase.unsent at hempty
  rw [hphase] at hagrees hyields hrounds hshare hempty
  dsimp only at hagrees hyields hrounds hshare hempty
  simp only [decide_eq_true_eq, List.append_nil] at hyields hrounds hshare hempty
  rcases hagrees with ⟨hr, hcursor, hround, -⟩
  have hscript : scriptOf g log' st₁.calls =
      (scriptOf g log st.calls).add g ⟨source, .metadata m⟩ := by
    rw [hcalls, scriptOf_succ hmsg, hsame_log]
  have hchunks := hcore.chunks
  constructor
  · intro hzero
    rw [add_metadata_zero hcursor hzero] at hscript
    have hcount : i = r → st.staging.count = 0 := by
      intro heq
      rw [if_pos heq.symm, hstaging] at hbatch
      rw [← h.core.batch_count, hbatch]
      exact hzero
    refine ⟨hcore, hr, ?_, ?_, ?_, ?_, ?_, ?_⟩
    · rw [hscript]
      rfl
    · rw [hscript, htotal, hround]
      rfl
    · rw [hscript, hyields₁, hyields]
      rfl
    · rw [hrounds₁, hrounds, hchunks, hscript]
      unfold Script.passed
      dsimp only
      split
      · exact List.append_nil _
      · rw [List.map_append]
        rfl
    · rw [hsent, hstaging, ← hshare]
      congr 2
      by_cases hlt : r < i
      · rw [if_pos hlt, if_pos (Nat.le_of_lt hlt)]
      · rw [if_neg hlt]
        split
        · rw [hcount (by omega)]
          rfl
        · rfl
    · intro hlt
      rw [hstaging]
      exact hempty (Nat.le_of_lt hlt)
  · intro hpos
    rw [add_metadata_pos hcursor hpos] at hscript
    refine ⟨⟨hcore.calls_le, hcore.own_lt, hcore.chunks, hcore.made, hcore.reading, hcore.rows,
      hcore.batch_count, hcore.subset⟩, ⟨hr, ?_, ?_⟩, ?_, ?_, ?_, ?_⟩
    · change (scriptOf g log' st₁.calls).cursor =
        .data r (if r = i then st₁.staging.batch else st₁.receivedMetadata)
      rw [hscript, hbatch]
    · change st₁.totalBroadcastChunks = (scriptOf g log' st₁.calls).round
      rw [hscript, htotal, hround]
      rfl
    · change st₁.yields ++ [] = (scriptOf g log' st₁.calls).yields
      rw [hscript, List.append_nil, hyields₁, hyields]
      rfl
    · change st₁.rounds ++ [] = (scriptOf g log' st₁.calls).rounds.map _
      rw [hscript, List.append_nil, hrounds₁, hrounds]
      rfl
    · unfold RankState.unsent Phase.unsent
      simp only [decide_eq_true_eq, hstaging]
      rw [hsent]
      exact hshare
    · unfold Phase.unsent
      simp only [decide_eq_true_eq, hstaging]
      exact hempty

/-- A rank has the bytes of a batch. -/
theorem RankInv.hand (h : RankInv g share i log st) (hphase : st.phase = .data r)
    {source : Nat} {bytes : List β} (hmsg : log'[st.calls]? = some ⟨source, .data bytes⟩)
    (hsame_log : scriptOf g log' st.calls = scriptOf g log st.calls)
    (hcore : RankCore g share i log' st₁) (hcalls : st₁.calls = st.calls + 1)
    (hstaging : st₁.staging = st.staging) (hyields₁ : st₁.yields = st.yields)
    (hrounds₁ : st₁.rounds = st.rounds)
    (htotal : st₁.totalBroadcastChunks = st.totalBroadcastChunks)
    (hphase₁ : st₁.phase = .yielding r 0)
    (hrest : unpack (st₁.metadataOf i r).count (st₁.metadataOf i r).rows (st₁.bufferOf i r) =
      unpackBytes (if r = i then st.staging.batch else st.receivedMetadata) bytes)
    (hsent : (scriptOf g log' log'.length).sent i =
      (scriptOf g log log.length).sent i ++
        (if r = i then unpack st.staging.count st.staging.batch.rows st.staging.data else [])) :
    RankInv g share i log' st₁ := by
  have hagrees := h.agrees
  have hyields := h.yields
  have hrounds := h.rounds
  have hshare := h.share
  have hempty := h.empty
  unfold RankState.Agrees at hagrees
  unfold RankState.rest at hyields
  unfold RankState.endingRound at hrounds
  unfold RankState.unsent Phase.unsent at hshare
  unfold Phase.unsent at hempty
  rw [hphase] at hagrees hyields hrounds hshare hempty
  dsimp only at hagrees hyields hrounds hshare hempty
  simp only [decide_eq_true_eq, List.append_nil] at hyields hrounds hshare hempty
  rcases hagrees with ⟨hr, hcursor, hround⟩
  have hscript : scriptOf g log' st₁.calls =
      (scriptOf g log st.calls).add g ⟨source, .data bytes⟩ := by
    rw [hcalls, scriptOf_succ hmsg, hsame_log]
  rw [add_data hcursor] at hscript
  have hchunks := hcore.chunks
  refine ⟨hcore, ?_, ?_, ?_, ?_, ?_⟩
  · unfold RankState.Agrees
    rw [hphase₁]
    refine ⟨hr, ?_, ?_⟩
    · rw [hscript]
      rfl
    · rw [hscript, htotal, hround]
      rfl
  · unfold RankState.rest
    rw [hphase₁]
    dsimp only
    rw [hrest, hscript, hyields₁, hyields, List.drop_zero]
    unfold Script.yields Script.passed
    rw [List.flatMap_append, List.flatMap_singleton]
  · unfold RankState.endingRound
    rw [hphase₁]
    dsimp only
    rw [hrounds₁, hrounds, hchunks, hscript]
    unfold Script.passed
    dsimp only
    split
    · exact List.append_nil _
    · rw [List.map_append]
      rfl
  · unfold RankState.unsent Phase.unsent
    rw [hphase₁]
    simp only [decide_eq_true_eq, hstaging]
    rw [hsent, ← hshare]
    by_cases hri : r = i
    · subst hri
      rw [if_pos rfl, if_neg (Nat.lt_irrefl r), if_pos (Nat.le_refl r), List.append_nil]
    · rw [if_neg hri, List.append_nil]
      congr 2
      by_cases hlt : r < i
      · rw [if_pos hlt, if_pos (Nat.le_of_lt hlt)]
      · rw [if_neg hlt, if_neg (by omega)]
  · unfold Phase.unsent
    rw [hphase₁]
    simp only [decide_eq_true_eq, hstaging]
    intro hlt
    exact hempty (Nat.le_of_lt hlt)

/-! ### Of other ranks -/

/-- A broadcast that was made by another rank. -/
theorem RankCore.received (h : RankCore g share i log st) (hmsg : log[st.calls]? = some msg)
    (hcalls : st₁.calls = st.calls + 1)
    (hmade : st₁.made = st.made ++ [(msg.source, msg.tensor.shape)])
    (hstaging : st₁.staging = st.staging)
    (hchunks : st₁.chunksToRead = (g.total : Int) - (scriptOf g log (st.calls + 1)).count) :
    RankCore g share i log st₁ :=
  h.called hmsg rfl
    (fun k other hother hsource => Nat.lt_succ_of_lt (h.own_lt k other hother hsource)) hcalls
    hmade hstaging hchunks

/-- Counting the chunks of a batch. -/
theorem count_add_metadata {sc : Script β} (hcursor : sc.cursor = .metadata r) (source : Nat) :
    (sc.add g ⟨source, .metadata m⟩).count = sc.count + m.count := by
  by_cases hzero : m.count = 0
  · rw [add_metadata_zero hcursor hzero]
    rfl
  · rw [add_metadata_pos hcursor hzero]
    rfl

@[simp]
theorem counted_zero (st : RankState β) : st.counted 0 = st := by
  unfold RankState.counted
  simp

/-- A rank takes the metadata of another one. -/
theorem RankInv.tookMetadata (h : RankInv g share i log st) (hok : SharesOk g share)
    (hi : i < g.size)
    (hscripted : Scripted (Script.add g) (Allowed g fun i => (share i).length)
      (Script.start β) log)
    (hphase : st.phase = .metadata r) (hne : r ≠ i)
    (hmsg : log[st.calls]? = some ⟨r, .metadata m⟩) :
    RankInv g share i log (st.tookMetadata g r m) := by
  have hcursor : (scriptOf g log st.calls).cursor = .metadata r := by
    have hagrees := h.agrees
    unfold RankState.Agrees at hagrees
    rw [hphase] at hagrees
    exact hagrees.2.1
  have hchunks : st.chunksToRead - m.count =
      (g.total : Int) - (scriptOf g log (st.calls + 1)).count := by
    rw [scriptOf_succ hmsg, count_add_metadata hcursor, h.core.chunks]
    omega
  have hcore : RankCore g share i log
      (({ st.called r .metadata with receivedMetadata := m } : RankState β).counted m.count) :=
    h.core.received hmsg rfl rfl rfl hchunks
  have hannounce := h.announce hphase hmsg rfl hcore rfl rfl rfl rfl rfl (if_neg hne) rfl
  unfold RankState.tookMetadata
  dsimp only
  split
  · rename_i hzero
    have hsettled := hannounce.1 hzero
    rw [hzero, counted_zero] at hsettled
    exact hsettled.afterRank hok (scriptInv_of_scripted hok hscripted hsettled.core.calls_le) hi
  · rename_i hpos
    exact hannounce.2 hpos

/-- A rank takes the bytes of another one. -/
theorem RankInv.tookData (h : RankInv g share i log st) (hok : SharesOk g share)
    (hscripted : Scripted (Script.add g) (Allowed g fun i => (share i).length)
      (Script.start β) log)
    (hphase : st.phase = .data r) (hne : r ≠ i) {bytes : List β}
    (hmsg : log[st.calls]? = some ⟨r, .data bytes⟩)
    (hlength : bytes.length = st.receivedMetadata.lastEnd) :
    RankInv g share i log (st.tookData r bytes) := by
  have hcursor : (scriptOf g log st.calls).cursor = .data r st.receivedMetadata := by
    have hagrees := h.agrees
    unfold RankState.Agrees at hagrees
    rw [hphase] at hagrees
    rw [hagrees.2.1, if_neg hne]
  have hscript := scriptInv_of_scripted hok hscripted h.core.calls_le
  rcases hscript.data_ok r _ hcursor with ⟨-, -, -, hrows, -⟩
  rw [← hlength] at hrows
  have hchunks : st.chunksToRead = (g.total : Int) - (scriptOf g log (st.calls + 1)).count := by
    rw [scriptOf_succ hmsg, add_data hcursor]
    exact h.core.chunks
  have hmade : (st.tookData r bytes).made =
      st.made ++ [(r, (Tensor.data bytes).shape)] := by
    change st.made ++ [(r, Shape.data st.receivedMetadata.lastEnd)] =
      st.made ++ [(r, Shape.data bytes.length)]
    rw [hlength]
  have hcore : RankCore g share i log (st.tookData r bytes) :=
    h.core.received hmsg rfl hmade rfl hchunks
  refine h.hand hphase hmsg rfl hcore rfl rfl rfl rfl rfl rfl ?_ ?_
  · unfold RankState.metadataOf RankState.bufferOf
    simp only [if_neg hne]
    exact unpack_writeAt hrows
  · rw [if_neg hne, List.append_nil]

/-! ### Of the rank itself -/

/-- What a rank broadcasts is behind all that it has seen. -/
theorem RankCore.sent (h : RankCore g share i log st) (hlast : log.length = st.calls)
    (hcalls : st₁.calls = st.calls + 1)
    (hmade : st₁.made = st.made ++ [(msg.source, msg.tensor.shape)])
    (hstaging : st₁.staging = st.staging)
    (hchunks : st₁.chunksToRead =
      (g.total : Int) - ((scriptOf g log st.calls).add g msg).count) :
    RankCore g share i (log ++ [msg]) st₁ := by
  have hmsg : (log ++ [msg])[st.calls]? = some msg := by
    rw [← hlast]
    exact List.getElem?_concat_length
  have hsame_log : (log ++ [msg]).take st.calls = log.take st.calls :=
    List.take_append_of_le_length (Nat.le_of_eq hlast.symm)
  refine h.called hmsg hsame_log ?_ hcalls hmade hstaging ?_
  · intro k other hother _
    rcases List.getElem?_eq_some_iff.1 hother with ⟨hk, -⟩
    rw [List.length_append, List.length_singleton] at hk
    omega
  · rw [scriptOf_succ hmsg, scriptOf_concat msg (Nat.le_of_eq hlast.symm)]
    exact hchunks

/-- What a rank may still send. -/
theorem RankInv.length_share (h : RankInv g share i log st) (hunsent : st.phase.unsent i = true) :
    ((scriptOf g log log.length).sent i).length + st.staging.count + st.staging.pending.length =
      (share i).length := by
  have hlength := congrArg List.length h.share
  unfold RankState.unsent at hlength
  rw [if_pos hunsent] at hlength
  simpa [Nat.add_assoc] using hlength

/-- The end of the last chunk is the size of the batch. -/
theorem RankCore.lastEnd (h : RankCore g share i log st) (hpos : 0 < st.staging.count) :
    st.staging.batch.lastEnd = st.staging.dataSize := by
  unfold Metadata.lastEnd
  rw [h.batch_count]
  exact h.rows.last hpos

/-- It is the turn of the rank to broadcast its metadata. -/
theorem RankInv.sentMetadata (h : RankInv g share i log st) (hok : SharesOk g share)
    (hi : i < g.size)
    (hscripted : Scripted (Script.add g) (Allowed g fun i => (share i).length)
      (Script.start β) log)
    (hphase : st.phase = .metadata i) (hmsg : msg = ⟨i, .metadata st.staging.batch⟩) :
    log.length = st.calls ∧
      Allowed g (fun i => (share i).length) (scriptOf g log log.length) msg ∧
      RankInv g share i (log ++ [msg]) (st.sentMetadata g i) := by
  have hagrees := h.agrees
  unfold RankState.Agrees at hagrees
  rw [hphase] at hagrees
  rcases hagrees with ⟨-, hcursor, -, hmore⟩
  have hlast := h.core.calls_eq hscripted (Or.inl hcursor)
  have hunsent : st.phase.unsent i = true := by
    rw [hphase]
    exact decide_eq_true (Nat.le_refl i)
  have hlength := h.length_share hunsent
  have hbatch := h.core.batch_count
  have hallowed : Allowed g (fun i => (share i).length) (scriptOf g log log.length) msg := by
    unfold Allowed
    rw [hlast] at hlength
    rw [hlast, hcursor, hmsg]
    dsimp only
    refine ⟨rfl, ?_, ?_, ?_, ?_⟩
    · split
      · rename_i hzero
        rw [hzero]
        exact ⟨nofun, fun hpos => absurd hpos (Nat.lt_irrefl 0), Nat.zero_le _⟩
      · rw [hbatch, h.core.lastEnd (by omega)]
        exact h.core.rows
    · intro hzero
      have hnone := h.empty hunsent (by omega)
      rw [hnone, List.length_nil] at hlength
      omega
    · omega
    · intro hzero
      have hpos := hmore hzero
      rw [h.core.chunks] at hpos
      omega
  have hscripted' := hscripted.concat hallowed
  have hget : (log ++ [msg])[st.calls]? = some ⟨i, .metadata st.staging.batch⟩ := by
    rw [← hlast, ← hmsg]
    exact List.getElem?_concat_length
  have hsame_log := scriptOf_concat (g := g) msg (Nat.le_of_eq hlast.symm)
  have hchunks : st.chunksToRead - st.staging.count =
      (g.total : Int) - ((scriptOf g log st.calls).add g msg).count := by
    rw [hmsg, count_add_metadata hcursor, h.core.chunks, hbatch]
    omega
  have hcore : RankCore g share i (log ++ [msg])
      ((st.counted st.staging.count).called i .metadata) := by
    refine h.core.sent hlast rfl ?_ rfl hchunks
    rw [hmsg]
    rfl
  have hsent : (scriptOf g (log ++ [msg]) (log ++ [msg]).length).sent i =
      (scriptOf g log log.length).sent i := by
    rw [List.length_append, List.length_singleton, hlast, scriptOf_succ hget, hsame_log]
    by_cases hzero : st.staging.batch.count = 0
    · rw [add_metadata_zero hcursor hzero]
      rfl
    · rw [add_metadata_pos hcursor hzero]
      rfl
  have htotal : ((st.counted st.staging.count).called i .metadata).totalBroadcastChunks =
      st.totalBroadcastChunks + st.staging.batch.count := by
    rw [hbatch]
    rfl
  have hannounce := h.announce hphase hget hsame_log hcore rfl rfl rfl rfl htotal (if_pos rfl) hsent
  refine ⟨hlast, hallowed, ?_⟩
  unfold RankState.sentMetadata
  dsimp only
  rw [show ((st.counted st.staging.count).called i .metadata).staging.count =
    st.staging.batch.count from hbatch.symm]
  split
  · rename_i hpos
    exact hannounce.2 (Nat.pos_iff_ne_zero.1 hpos)
  · rename_i hnone
    have hsettled := hannounce.1 (Nat.eq_zero_of_not_pos hnone)
    exact hsettled.afterRank hok (scriptInv_of_scripted hok hscripted' hsettled.core.calls_le) hi

/-- It is the turn of the rank to broadcast its batch. -/
theorem RankInv.sentData (h : RankInv g share i log st) (hok : SharesOk g share)
    (hscripted : Scripted (Script.add g) (Allowed g fun i => (share i).length)
      (Script.start β) log)
    (hphase : st.phase = .data i)
    (hmsg : msg = ⟨i, .data (readAt st.staging.data 0 st.staging.dataSize)⟩) :
    log.length = st.calls ∧
      Allowed g (fun i => (share i).length) (scriptOf g log log.length) msg ∧
      RankInv g share i (log ++ [msg]) (st.sentData i) := by
  have hcursor : (scriptOf g log st.calls).cursor = .data i st.staging.batch := by
    have hagrees := h.agrees
    unfold RankState.Agrees at hagrees
    rw [hphase] at hagrees
    rw [hagrees.2.1, if_pos rfl]
  have hlast := h.core.calls_eq hscripted (Or.inr ⟨_, hcursor⟩)
  have hscript := scriptInv_of_scripted hok hscripted h.core.calls_le
  rcases hscript.data_ok i _ hcursor with ⟨-, hpos, -, -, -⟩
  have hbatch := h.core.batch_count
  have hallowed : Allowed g (fun i => (share i).length) (scriptOf g log log.length) msg := by
    unfold Allowed
    rw [hlast, hcursor, hmsg]
    refine ⟨rfl, ?_⟩
    rw [length_readAt, h.core.lastEnd (by omega)]
  have hrows : RowsOk g.bufferBytesize st.staging.batch.count st.staging.dataSize
      st.staging.batch.rows := by
    rw [hbatch]
    exact h.core.rows
  have hget : (log ++ [msg])[st.calls]? =
      some ⟨i, .data (readAt st.staging.data 0 st.staging.dataSize)⟩ := by
    rw [← hlast, ← hmsg]
    exact List.getElem?_concat_length
  have hsame_log := scriptOf_concat (g := g) msg (Nat.le_of_eq hlast.symm)
  have hchunks : st.chunksToRead =
      (g.total : Int) - ((scriptOf g log st.calls).add g msg).count := by
    rw [hmsg, add_data hcursor]
    exact h.core.chunks
  have hmade : (st.sentData i).made = st.made ++ [(msg.source, msg.tensor.shape)] := by
    rw [hmsg]
    change st.made ++ [(i, Shape.data st.staging.dataSize)] =
      st.made ++ [(i, Shape.data (readAt st.staging.data 0 st.staging.dataSize).length)]
    rw [length_readAt]
  have hcore : RankCore g share i (log ++ [msg]) (st.sentData i) :=
    h.core.sent hlast rfl hmade rfl hchunks
  refine ⟨hlast, hallowed, ?_⟩
  refine h.hand hphase hget hsame_log hcore rfl rfl rfl rfl rfl rfl ?_ ?_
  · unfold RankState.metadataOf RankState.bufferOf
    simp only [if_pos]
    rw [unpackBytes_readAt hrows, hbatch]
    rfl
  · rw [List.length_append, List.length_singleton, hlast, scriptOf_succ hget, hsame_log,
      add_data hcursor, passed_sent, sent_concat, if_pos rfl, if_pos rfl,
      unpackBytes_readAt hrows, hbatch]

/-! ### Steps -/

/-- What a step of a rank leaves, and what it broadcasts. -/
def StepOk (g : Group) (share : Nat → List (ReadyChunk β)) (i : Nat) (log : List (Message β))
    (st' : RankState β) (messages : List (Message β)) : Prop :=
  (messages = [] ∧ RankInv g share i log st') ∨
    ∃ msg, messages = [msg] ∧ msg.source = i ∧
      Allowed g (fun i => (share i).length) (scriptOf g log log.length) msg ∧
      RankInv g share i (log ++ [msg]) st'

/-- A metadata broadcast. -/
theorem RankInv.metadata_step (h : RankInv g share i log st) (hok : SharesOk g share)
    (hi : i < g.size)
    (hscripted : Scripted (Script.add g) (Allowed g fun i => (share i).length)
      (Script.start β) log)
    (hphase : st.phase = .metadata r) {st' : RankState β} {messages : List (Message β)}
    (hstep : metadataCall g i log st r = some (st', messages)) :
    StepOk g share i log st' messages := by
  have hagrees := h.agrees
  unfold RankState.Agrees at hagrees
  rw [hphase] at hagrees
  rcases hagrees with ⟨-, hcursor, -, -⟩
  unfold metadataCall at hstep
  by_cases hown : r = i
  · subst hown
    rcases h.sentMetadata hok hi hscripted hphase rfl with ⟨hlast, hallowed, hinv⟩
    rw [if_pos rfl, if_pos hlast] at hstep
    cases hstep
    exact Or.inr ⟨_, rfl, rfl, hallowed, hinv⟩
  · rw [if_neg hown] at hstep
    cases hmsg : log[st.calls]? with
    | none =>
        rw [hmsg] at hstep
        cases hstep
    | some msg =>
        have hallowed := hscripted _ _ hmsg
        have hsource := source_of_allowed hallowed (Or.inl hcursor)
        rcases msg with ⟨source, tensor⟩
        cases tensor with
        | metadata m =>
            dsimp only at hsource
            rw [hmsg] at hstep
            simp only [hsource, if_true] at hstep
            cases hstep
            subst hsource
            exact Or.inl ⟨rfl, h.tookMetadata hok hi hscripted hphase hown hmsg⟩
        | data bytes =>
            -- The script says that metadata comes next.
            change Allowed g _ (scriptOf g log st.calls) _ at hallowed
            unfold Allowed at hallowed
            rw [hcursor] at hallowed
            exact hallowed.elim

/-- A data broadcast. -/
theorem RankInv.data_step (h : RankInv g share i log st) (hok : SharesOk g share)
    (hscripted : Scripted (Script.add g) (Allowed g fun i => (share i).length)
      (Script.start β) log)
    (hphase : st.phase = .data r) {st' : RankState β} {messages : List (Message β)}
    (hstep : dataCall i log st r = some (st', messages)) :
    StepOk g share i log st' messages := by
  have hagrees := h.agrees
  unfold RankState.Agrees at hagrees
  rw [hphase] at hagrees
  rcases hagrees with ⟨-, hcursor, -⟩
  unfold dataCall at hstep
  by_cases hown : r = i
  · subst hown
    rcases h.sentData hok hscripted hphase rfl with ⟨hlast, hallowed, hinv⟩
    rw [if_pos rfl, if_pos hlast] at hstep
    cases hstep
    exact Or.inr ⟨_, rfl, rfl, hallowed, hinv⟩
  · rw [if_neg hown] at hstep hcursor
    cases hmsg : log[st.calls]? with
    | none =>
        rw [hmsg] at hstep
        cases hstep
    | some msg =>
        have hallowed := hscripted _ _ hmsg
        change Allowed g _ (scriptOf g log st.calls) _ at hallowed
        unfold Allowed at hallowed
        rw [hcursor] at hallowed
        rcases msg with ⟨source, tensor⟩
        cases tensor with
        | metadata m => exact hallowed.elim
        | data bytes =>
            rcases hallowed with ⟨hsource, hlength⟩
            dsimp only at hsource hlength
            rw [hmsg] at hstep
            simp only [hsource, hlength, and_self, if_true] at hstep
            cases hstep
            subst hsource
            exact Or.inl ⟨rfl, h.tookData hok hscripted hphase hown hmsg hlength⟩

/-- What every step of a rank keeps. -/
theorem RankInv.step (h : RankInv g share i log st) (hok : SharesOk g share)
    (hi : i < g.size)
    (hscripted : Scripted (Script.add g) (Allowed g fun i => (share i).length)
      (Script.start β) log)
    {st' : RankState β} {messages : List (Message β)}
    (hstep : rankStep g i log st = some (st', messages)) :
    StepOk g share i log st' messages := by
  have hscript := scriptInv_of_scripted hok hscripted h.core.calls_le
  unfold rankStep at hstep
  split at hstep
  · rename_i hphase
    cases hstep
    exact Or.inl ⟨rfl, h.fill hok hi hscript hphase⟩
  · rename_i r hphase
    exact h.metadata_step hok hi hscripted hphase hstep
  · rename_i r hphase
    exact h.data_step hok hscripted hphase hstep
  · rename_i r j hphase
    cases hstep
    exact Or.inl ⟨rfl, h.yieldNext hok hi hscript hphase⟩
  · cases hstep
  · cases hstep
  · cases hstep

/-- A step of the group is a step of one rank. -/
theorem jobStep_eq_some {s s' : Job β} (h : jobStep g s i = some s') :
    i < g.size ∧ ∃ messages, rankStep g i s.log (s.rank i) = some (s'.rank i, messages) ∧
      s'.log = s.log ++ messages ∧ ∀ k, k ≠ i → s'.rank k = s.rank k := by
  unfold jobStep at h
  split at h
  · rename_i hi
    rcases Option.map_eq_some_iff.1 h with ⟨⟨st', messages⟩, hrank, rfl⟩
    refine ⟨hi, messages, ?_, rfl, fun k hk => Function.update_of_ne hk _ _⟩
    rw [hrank]
    exact congrArg (fun st => some (st, messages)) (Function.update_self i st' s.rank).symm
  · cases h

/-- What every step of every rank keeps for the group. -/
theorem JobInv.step {s s' : Job β} (h : JobInv g share s) (hok : SharesOk g share)
    (hstep : jobStep g s i = some s') : JobInv g share s' := by
  rcases jobStep_eq_some hstep with ⟨hi, messages, hrank, hlog, hothers⟩
  rcases (h.ranks i hi).step hok hi h.scripted hrank with
    ⟨rfl, hinv⟩ | ⟨msg, rfl, hsource, hallowed, hinv⟩
  · rw [List.append_nil] at hlog
    constructor
    · rw [hlog]
      exact h.scripted
    · intro k hk
      rw [hlog]
      by_cases hki : k = i
      · subst hki
        exact hinv
      · rw [hothers k hki]
        exact h.ranks k hk
  · constructor
    · rw [hlog]
      exact h.scripted.concat hallowed
    · intro k hk
      rw [hlog]
      by_cases hki : k = i
      · subst hki
        exact hinv
      · rw [hothers k hki]
        apply (h.ranks k hk).frame hallowed
        rw [hsource]
        exact fun heq => hki heq.symm

end Calls

/-! ## Runs -/

section Runs

variable {g : Group} {share : Nat → List (ReadyChunk β)}

/-- A group that starts. -/
theorem jobInv_start (share : Nat → List (ReadyChunk β)) (blank : Nat → β) :
    JobInv g share (Job.start g share blank) := by
  refine ⟨?_, fun i hi => ?_⟩
  · intro k msg hmsg
    cases hmsg
  · refine ⟨⟨Nat.le_refl 0, nofun, ?_, rfl, ?_, ?_, rfl, ?_⟩, rfl, rfl, rfl, ?_, nofun⟩
    · exact (Int.sub_zero _).symm
    · intro hreading
      change decide (share i ≠ []) = false at hreading
      change [] ++ share i = []
      simpa using hreading
    · exact ⟨nofun, fun hpos => absurd hpos (Nat.lt_irrefl 0), Nat.zero_le _⟩
    · intro chunk hchunk
      exact hchunk
    · rfl

/-- What holds at every point of every run. -/
theorem jobInv_run (hok : SharesOk g share) {blank : Nat → β} {actions : List Nat}
    {s : Job β} (hrun : run (jobStep g) (Job.start g share blank) actions = some s) :
    JobInv g share s :=
  run_invariant (fun _ _ _ hinv hstep => hinv.step hok hstep) (jobInv_start share blank) hrun

end Runs

end Broadcast
end Distributed
end ModelStreamer
