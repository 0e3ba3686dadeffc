import ModelStreamer.Distributed.BroadcastRuns

/-!
# The broadcast ends

Ranks that have made the same broadcasts wait for the same one, so its source gets there and no
rank waits forever.  A round counts at least one chunk, so there are only so many steps.

Main results:

- Theorem {lit}`RankInv.nextCall_eq`: the broadcast that a rank waits for.
- Theorem {lit}`JobInv.progress`: as long as a rank is not finished, some rank goes on.
- Theorem {lit}`jobRun_length_le`: how many steps a run has at most.
-/

namespace ModelStreamer
namespace Distributed
namespace Broadcast

open Lib

variable {β : Type*}

/-! ## The broadcast that a rank waits for -/

/-- The source and the size of the broadcast that a rank makes next. -/
def RankState.nextCall (i : Nat) (st : RankState β) : Option (Nat × Shape) :=
  match st.phase with
  | .metadata r => some (r, .metadata)
  | .data r =>
      some (r, .data (if r = i then st.staging.dataSize else st.receivedMetadata.lastEnd))
  | _ => none

/-- The source and the size of the broadcast that comes next. -/
def Script.nextCall (sc : Script β) : Nat × Shape :=
  match sc.cursor with
  | .metadata r => (r, .metadata)
  | .data r m => (r, .data m.lastEnd)

section Waiting

variable {g : Group} {share : Nat → List (ReadyChunk β)} {log : List (Message β)} {i : Nat}
  {st : RankState β} {call : Nat × Shape}

/-- The broadcast that a rank waits for follows from the ones that it has made. -/
theorem RankInv.nextCall_eq (h : RankInv g share i log st)
    (hscript : ScriptInv g (fun i => (share i).length) (scriptOf g log st.calls))
    (hcall : st.nextCall i = some call) :
    call = (scriptOf g log st.calls).nextCall ∧ call.1 < g.size := by
  have hagrees := h.agrees
  unfold RankState.Agrees at hagrees
  unfold RankState.nextCall at hcall
  unfold Script.nextCall
  split at hcall
  · rename_i r hphase
    cases hcall
    rw [hphase] at hagrees
    rcases hagrees with ⟨hr, hcursor, -, -⟩
    rw [hcursor]
    exact ⟨rfl, hr⟩
  · rename_i r hphase
    cases hcall
    rw [hphase] at hagrees
    rcases hagrees with ⟨hr, hcursor, -⟩
    refine ⟨?_, hr⟩
    by_cases hown : r = i
    · rw [if_pos hown] at hcursor
      rcases hscript.data_ok r _ hcursor with ⟨-, hpos, -, -, -⟩
      rw [hcursor, if_pos hown]
      dsimp only
      rw [h.core.lastEnd (h.core.batch_count ▸ hpos)]
    · rw [if_neg hown] at hcursor
      rw [hcursor, if_neg hown]
  · cases hcall

/-- Nobody waits for a broadcast when all chunks were announced and sent. -/
theorem RankInv.count_lt (h : RankInv g share i log st) (hcall : st.nextCall i = some call)
    (hcursor : (scriptOf g log st.calls).cursor = .metadata 0) :
    (scriptOf g log st.calls).count < g.total := by
  have hagrees := h.agrees
  unfold RankState.Agrees at hagrees
  unfold RankState.nextCall at hcall
  split at hcall
  · rename_i r hphase
    rw [hphase] at hagrees
    rcases hagrees with ⟨-, hturn, -, hmore⟩
    rw [hcursor] at hturn
    cases hturn
    have hpos := hmore rfl
    rw [h.core.chunks] at hpos
    omega
  · rename_i r hphase
    rw [hphase] at hagrees
    rw [hcursor] at hagrees
    cases hagrees.2.1
  · cases hcall

/-- A rank that is finished has seen all chunks announced and sent. -/
theorem RankInv.finished (h : RankInv g share i log st) (hphase : st.phase = .finished) :
    (scriptOf g log st.calls).cursor = .metadata 0 ∧
      (scriptOf g log st.calls).count = g.total ∧ st.chunksToRead = 0 := by
  have hagrees := h.agrees
  unfold RankState.Agrees at hagrees
  rw [hphase] at hagrees
  rcases hagrees with ⟨hcursor, hzero⟩
  have hchunks := h.core.chunks
  exact ⟨hcursor, by omega, hzero⟩

/-- A rank that is finished has taken part in every broadcast. -/
theorem RankInv.calls_of_finished {length : Nat → Nat} (h : RankInv g share i log st)
    (hscripted : Scripted (Script.add g) (Allowed g length) (Script.start β) log)
    (hphase : st.phase = .finished) : st.calls = log.length := by
  rcases h.finished hphase with ⟨hcursor, hcount, -⟩
  have hle := h.core.calls_le
  by_contra hne
  have hlt : st.calls < log.length := by omega
  have hallowed := hscripted _ _ (List.getElem?_eq_getElem hlt)
  change Allowed g _ (scriptOf g log st.calls) _ at hallowed
  unfold Allowed at hallowed
  rw [hcursor] at hallowed
  split at hallowed
  · rename_i hturn _
    cases hturn
    have hmore := hallowed.2.2.2.2 rfl
    omega
  · rename_i hturn _
    cases hturn
  · exact hallowed

/-- A rank that cannot go on is finished, or waits for the broadcast of another rank. -/
theorem RankInv.waits (h : RankInv g share i log st) (hstep : rankStep g i log st = none) :
    st.phase = .finished ∨
      ∃ call, st.nextCall i = some call ∧ call.1 ≠ i ∧ st.calls = log.length := by
  have hle := h.core.calls_le
  have hagrees := h.agrees
  unfold RankState.Agrees at hagrees
  unfold rankStep at hstep
  unfold RankState.nextCall
  split at hstep
  · cases hstep
  · rename_i r hphase
    unfold metadataCall at hstep
    by_cases hown : r = i
    · rw [if_pos hown] at hstep
      split at hstep
      · cases hstep
      · cases hstep
    · rw [if_neg hown] at hstep
      split at hstep
      · rename_i hnone
        have hge := List.getElem?_eq_none_iff.1 hnone
        exact Or.inr ⟨_, by rw [hphase], hown, by omega⟩
      · split at hstep
        · cases hstep
        · cases hstep
      · cases hstep
  · rename_i r hphase
    unfold dataCall at hstep
    by_cases hown : r = i
    · rw [if_pos hown] at hstep
      split at hstep
      · cases hstep
      · cases hstep
    · rw [if_neg hown] at hstep
      split at hstep
      · rename_i hnone
        have hge := List.getElem?_eq_none_iff.1 hnone
        exact Or.inr ⟨_, by rw [hphase], hown, by omega⟩
      · cases hstep
      · split at hstep
        · cases hstep
        · cases hstep
  · cases hstep
  · rename_i hphase
    exact Or.inl hphase
  · rename_i hphase
    rw [hphase] at hagrees
    exact hagrees.elim
  · rename_i hphase
    rw [hphase] at hagrees
    exact hagrees.elim

end Waiting

section Meeting

variable {g : Group} {share : Nat → List (ReadyChunk β)} {s : Job β}

/-- Ranks that have made the same broadcasts wait for the same one, and none of them is
finished. -/
theorem JobInv.meet (h : JobInv g share s) (hok : SharesOk g share) {i j : Nat}
    (hi : i < g.size) (hj : j < g.size) (hcalls : (s.rank i).calls = (s.rank j).calls)
    {call : Nat × Shape} (hcall : (s.rank i).nextCall i = some call) :
    (s.rank j).phase ≠ .finished ∧
      ∀ other, (s.rank j).nextCall j = some other → other = call := by
  have hscript := fun k hk => scriptInv_of_scripted hok h.scripted (h.ranks k hk).core.calls_le
  constructor
  · intro hphase
    rcases (h.ranks j hj).finished hphase with ⟨hcursor, hcount, -⟩
    rw [← hcalls] at hcursor hcount
    have hlt := (h.ranks i hi).count_lt hcall hcursor
    omega
  · intro other hother
    rw [((h.ranks i hi).nextCall_eq (hscript i hi) hcall).1,
      ((h.ranks j hj).nextCall_eq (hscript j hj) hother).1, hcalls]

/-- As long as a rank is not finished, some rank goes on. -/
theorem JobInv.progress (h : JobInv g share s) (hok : SharesOk g share)
    (hstuck : ∀ i, jobStep g s i = none) : ∀ i < g.size, (s.rank i).phase = .finished := by
  have hnone : ∀ i < g.size, rankStep g i s.log (s.rank i) = none := by
    intro i hi
    have hstep := hstuck i
    unfold jobStep at hstep
    rw [if_pos hi] at hstep
    exact Option.map_eq_none_iff.1 hstep
  intro i hi
  rcases (h.ranks i hi).waits (hnone i hi) with hdone | ⟨call, hcall, hother, hcalls⟩
  · exact hdone
  · -- The source of the broadcast that the rank waits for is not stuck.
    have hscript := scriptInv_of_scripted hok h.scripted (h.ranks i hi).core.calls_le
    rcases (h.ranks i hi).nextCall_eq hscript hcall with ⟨-, hr⟩
    rcases (h.ranks _ hr).waits (hnone _ hr) with hdone | ⟨call', hcall', hother', hcalls'⟩
    · have hall := (h.ranks _ hr).calls_of_finished h.scripted hdone
      exact absurd hdone (h.meet hok hi hr (hcalls.trans hall.symm) hcall).1
    · have hsame := (h.meet hok hi hr (hcalls.trans hcalls'.symm) hcall).2 _ hcall'
      rw [hsame] at hother'
      exact absurd rfl hother'

end Meeting

/-! ## The length of a run -/

/-- More than the steps of a round that yield nothing. -/
def roundSteps (g : Group) : Nat :=
  4 * g.size + 2

/-- What the rounds cost that come after this one: a round without chunks is the last one. -/
def laterSteps (g : Group) (chunksToRead counted : Nat) : Nat :=
  (chunksToRead + min counted 1 - 1) * roundSteps g + 1

/-- More than the steps that a rank will still take. -/
def RankState.work (g : Group) (i : Nat) (st : RankState β) : Nat :=
  let later := laterSteps g st.chunksToRead.toNat st.totalBroadcastChunks
  match st.phase with
  | .filling => st.chunksToRead.toNat * roundSteps g + 1
  | .metadata r => later + 4 * (g.size - r) + 1
  | .data r => later + 4 * (g.size - r) - 1 + (st.metadataOf i r).count
  | .yielding r j => later + 4 * (g.size - r) - 2 + ((st.metadataOf i r).count - j)
  | _ => 0

section Work

variable {g : Group} {share : Nat → List (ReadyChunk β)} {log : List (Message β)} {i r : Nat}
  {st : RankState β}

/-- Counting the chunks of a batch pays for yielding them. -/
theorem laterSteps_counted {chunks counted m : Nat} (hpos : 0 < m) (hle : m ≤ chunks) :
    laterSteps g (chunks - m) (counted + m) + m ≤ laterSteps g chunks counted + 1 := by
  unfold laterSteps
  rcases Nat.exists_eq_add_of_le hle with ⟨rest, rfl⟩
  rcases Nat.exists_eq_add_of_lt hpos with ⟨k, hk⟩
  have hone : m + rest - m + min (counted + m) 1 - 1 = rest := by omega
  have hbefore : rest + k ≤ m + rest + min counted 1 - 1 := by omega
  have hsteps : k ≤ k * roundSteps g :=
    Nat.le_mul_of_pos_right k (Nat.succ_pos _)
  calc
    (m + rest - m + min (counted + m) 1 - 1) * roundSteps g + 1 + m
        = rest * roundSteps g + 1 + m := by rw [hone]
    _ ≤ rest * roundSteps g + k * roundSteps g + 1 + 1 := by omega
    _ = (rest + k) * roundSteps g + 1 + 1 := by rw [Nat.add_mul]
    _ ≤ (m + rest + min counted 1 - 1) * roundSteps g + 1 + 1 := by
      have hmul := Nat.mul_le_mul_right (roundSteps g) hbefore
      omega

/-- Going on to the next rank, or to the next round. -/
theorem work_afterRank (hr : r < g.size) :
    (st.afterRank g r).work g i + 4 ≤
      laterSteps g st.chunksToRead.toNat st.totalBroadcastChunks + 4 * (g.size - r) + 1 := by
  unfold RankState.afterRank
  split
  · unfold RankState.work
    dsimp only
    omega
  · split
    · unfold RankState.work laterSteps
      dsimp only
      omega
    · rename_i hlast hnot
      have hchunks : st.chunksToRead.toNat ≤
          st.chunksToRead.toNat + min st.totalBroadcastChunks 1 - 1 := by
        by_cases hzero : st.totalBroadcastChunks = 0
        · have hnone : ¬ 0 < st.chunksToRead := fun hpos => hnot ⟨hzero, hpos⟩
          omega
        · omega
      have hmul := Nat.mul_le_mul_right (roundSteps g) hchunks
      unfold RankState.work laterSteps
      dsimp only
      omega

/-- Going on counts nothing. -/
theorem afterRank_chunks (g : Group) (st : RankState β) (r : Nat) :
    (st.afterRank g r).chunksToRead = st.chunksToRead := by
  unfold RankState.afterRank
  split
  · rfl
  · split
    · rfl
    · rfl

/-- A step that fills the staging buffer. -/
theorem work_fill (hphase : st.phase = .filling) : (st.fill g i).work g i < st.work g i := by
  unfold RankState.fill
  have hwork : st.work g i = st.chunksToRead.toNat * roundSteps g + 1 := by
    unfold RankState.work
    rw [hphase]
  rw [hwork]
  split
  · rename_i hpos
    unfold RankState.work laterSteps
    dsimp only
    rcases Nat.exists_eq_add_of_lt (Int.pos_iff_toNat_pos.1 hpos) with ⟨rest, hrest⟩
    rw [Nat.zero_add] at hrest
    have hlater : st.chunksToRead.toNat + min 0 1 - 1 = rest := by omega
    have hmul : st.chunksToRead.toNat * roundSteps g = rest * roundSteps g + roundSteps g := by
      rw [hrest, Nat.succ_mul]
    rw [hlater]
    have hround : roundSteps g = 4 * g.size + 2 := rfl
    omega
  · exact Nat.succ_pos _

/-- A rank after the metadata of a batch. -/
theorem work_announce {st₁ : RankState β} {m : Nat} (hphase : st.phase = .metadata r)
    (hr : r < g.size) (hchunks : st₁.chunksToRead = st.chunksToRead - m)
    (htotal : st₁.totalBroadcastChunks = st.totalBroadcastChunks + m)
    (hnonneg : 0 ≤ st₁.chunksToRead) :
    (m = 0 → (st₁.afterRank g r).work g i < st.work g i) ∧
      (0 < m → (st₁.metadataOf i r).count = m →
        ({ st₁ with phase := .data r } : RankState β).work g i < st.work g i) := by
  have hwork : st.work g i =
      laterSteps g st.chunksToRead.toNat st.totalBroadcastChunks + 4 * (g.size - r) + 1 := by
    unfold RankState.work
    rw [hphase]
  constructor
  · rintro rfl
    have hafter := @work_afterRank _ g i r st₁ hr
    rw [hchunks, htotal] at hafter
    simp only [Nat.cast_zero, Int.sub_zero, Nat.add_zero] at hafter
    omega
  · intro hpos hcount
    have hle : m ≤ st.chunksToRead.toNat := by omega
    have hpaid := @laterSteps_counted g _ st.totalBroadcastChunks _ hpos hle
    have htoNat : st₁.chunksToRead.toNat = st.chunksToRead.toNat - m := by omega
    rw [← htoNat, ← htotal] at hpaid
    rw [hwork]
    unfold RankState.work
    dsimp only
    change laterSteps g st₁.chunksToRead.toNat st₁.totalBroadcastChunks + 4 * (g.size - r) - 1 +
      (st₁.metadataOf i r).count < _
    omega

/-- A rank that cannot be reached has nothing left to do. -/
theorem work_mismatch : st.mismatch.work g i = 0 :=
  rfl

/-- The count of chunks is not negative after a step. -/
theorem RankInv.chunksToRead_nonneg (h : RankInv g share i log st) (hok : SharesOk g share)
    (hi : i < g.size)
    (hscripted : Scripted (Script.add g) (Allowed g fun i => (share i).length)
      (Script.start β) log)
    {st' : RankState β} {messages : List (Message β)}
    (hstep : rankStep g i log st = some (st', messages)) : 0 ≤ st'.chunksToRead := by
  rcases h.step hok hi hscripted hstep with ⟨-, hinv⟩ | ⟨msg, -, -, hallowed, hinv⟩
  · have hscript := scriptInv_of_scripted hok hscripted hinv.core.calls_le
    have hle := hscript.count_le_total hok.total
    have hchunks := hinv.core.chunks
    omega
  · have hscript := scriptInv_of_scripted hok (hscripted.concat hallowed) hinv.core.calls_le
    have hle := hscript.count_le_total hok.total
    have hchunks := hinv.core.chunks
    omega

/-- The metadata of a batch uses up work. -/
theorem metadataCall_work {st' : RankState β} {messages : List (Message β)}
    (hphase : st.phase = .metadata r) (hr : r < g.size) (hnonneg : 0 ≤ st'.chunksToRead)
    (hstep : metadataCall g i log st r = some (st', messages)) : st'.work g i < st.work g i := by
  have hmismatch : st.mismatch.work g i < st.work g i := by
    rw [work_mismatch]
    unfold RankState.work
    rw [hphase]
    exact Nat.succ_pos _
  unfold metadataCall at hstep
  by_cases hown : r = i
  · rw [if_pos hown] at hstep
    split at hstep
    · cases hstep
      unfold RankState.sentMetadata at hnonneg ⊢
      dsimp only at hnonneg ⊢
      have hwork := @work_announce _ g i r st
        ((st.counted st.staging.count).called r .metadata) st.staging.count hphase hr rfl rfl
      split at hnonneg
      · rename_i hpos
        rw [if_pos hpos]
        apply (hwork hnonneg).2 hpos
        unfold RankState.metadataOf
        rw [if_pos hown]
        rfl
      · rename_i hnone
        rw [if_neg hnone]
        exact (hwork (afterRank_chunks g _ r ▸ hnonneg)).1 (Nat.eq_zero_of_not_pos hnone)
    · cases hstep
      exact hmismatch
  · rw [if_neg hown] at hstep
    split at hstep
    · cases hstep
    · rename_i m hmsg
      split at hstep
      · cases hstep
        unfold RankState.tookMetadata at hnonneg ⊢
        dsimp only at hnonneg ⊢
        have hwork := @work_announce _ g i r st
          (({ st.called r .metadata with receivedMetadata := m } : RankState β).counted m.count)
          m.count hphase hr rfl rfl
        split at hnonneg
        · rename_i hzero
          rw [if_pos hzero]
          rw [hzero, counted_zero] at hwork
          exact (hwork (afterRank_chunks g _ r ▸ hnonneg)).1 rfl
        · rename_i hpos
          rw [if_neg hpos]
          apply (hwork hnonneg).2 (Nat.pos_of_ne_zero hpos)
          unfold RankState.metadataOf
          rw [if_neg hown]
          rfl
      · cases hstep
        exact hmismatch
    · cases hstep
      exact hmismatch

/-- The data of a batch uses up work. -/
theorem dataCall_work {st' : RankState β} {messages : List (Message β)}
    (hphase : st.phase = .data r) (hr : r < g.size)
    (hstep : dataCall i log st r = some (st', messages)) : st'.work g i < st.work g i := by
  have hwork : st.work g i =
      laterSteps g st.chunksToRead.toNat st.totalBroadcastChunks + 4 * (g.size - r) - 1 +
        (st.metadataOf i r).count := by
    unfold RankState.work
    rw [hphase]
  have hmismatch : st.mismatch.work g i < st.work g i := by
    rw [work_mismatch, hwork]
    omega
  have hdone : ∀ {st₁ : RankState β}, st₁.chunksToRead = st.chunksToRead →
      st₁.totalBroadcastChunks = st.totalBroadcastChunks → st₁.phase = .yielding r 0 →
      (st₁.metadataOf i r).count = (st.metadataOf i r).count →
      st₁.work g i < st.work g i := by
    intro st₁ hchunks htotal hphase₁ hcount
    rw [hwork]
    unfold RankState.work
    rw [hphase₁, hchunks, htotal]
    dsimp only
    omega
  unfold dataCall at hstep
  by_cases hown : r = i
  · rw [if_pos hown] at hstep
    split at hstep
    · cases hstep
      exact hdone rfl rfl rfl rfl
    · cases hstep
      exact hmismatch
  · rw [if_neg hown] at hstep
    split at hstep
    · cases hstep
    · cases hstep
      exact hmismatch
    · split at hstep
      · cases hstep
        exact hdone rfl rfl rfl rfl
      · cases hstep
        exact hmismatch

/-- A chunk that is yielded uses up work. -/
theorem yieldNext_work {j : Nat} (hphase : st.phase = .yielding r j) (hr : r < g.size) :
    (st.yieldNext g i r j).work g i < st.work g i := by
  have hwork : st.work g i =
      laterSteps g st.chunksToRead.toNat st.totalBroadcastChunks + 4 * (g.size - r) - 2 +
        ((st.metadataOf i r).count - j) := by
    unfold RankState.work
    rw [hphase]
  unfold RankState.yieldNext
  split
  · rename_i hmore
    rw [hwork]
    change laterSteps g st.chunksToRead.toNat st.totalBroadcastChunks + 4 * (g.size - r) - 2 +
      ((st.metadataOf i r).count - (j + 1)) < _
    omega
  · have hafter := @work_afterRank _ g i r st hr
    omega

/-- Every step of a rank uses up work. -/
theorem RankInv.work_lt (h : RankInv g share i log st) (hok : SharesOk g share)
    (hi : i < g.size)
    (hscripted : Scripted (Script.add g) (Allowed g fun i => (share i).length)
      (Script.start β) log)
    {st' : RankState β} {messages : List (Message β)}
    (hstep : rankStep g i log st = some (st', messages)) : st'.work g i < st.work g i := by
  have hagrees := h.agrees
  unfold RankState.Agrees at hagrees
  have hnonneg := h.chunksToRead_nonneg hok hi hscripted hstep
  unfold rankStep at hstep
  split at hstep
  · rename_i hphase
    cases hstep
    exact work_fill hphase
  · rename_i r hphase
    rw [hphase] at hagrees
    exact metadataCall_work hphase hagrees.1 hnonneg hstep
  · rename_i r hphase
    rw [hphase] at hagrees
    exact dataCall_work hphase hagrees.1 hstep
  · rename_i r j hphase
    rw [hphase] at hagrees
    cases hstep
    exact yieldNext_work hphase hagrees.1
  · cases hstep
  · cases hstep
  · cases hstep

end Work

section Length

variable {g : Group} {share : Nat → List (ReadyChunk β)}

/-- More than the steps that the group will still take. -/
def jobWork (g : Group) (s : Job β) : Nat :=
  ((List.range g.size).map fun i => (s.rank i).work g i).sum

/-- Every step of the group uses up work. -/
theorem JobInv.work_lt {s s' : Job β} (h : JobInv g share s) (hok : SharesOk g share) {i : Nat}
    (hstep : jobStep g s i = some s') : jobWork g s' < jobWork g s := by
  rcases jobStep_eq_some hstep with ⟨hi, messages, hrank, -, hothers⟩
  have hless := (h.ranks i hi).work_lt hok hi h.scripted hrank
  have hle : ∀ k, (s'.rank k).work g k ≤ (s.rank k).work g k := by
    intro k
    by_cases hki : k = i
    · subst hki
      exact Nat.le_of_lt hless
    · rw [hothers k hki]
  have hone : (s'.rank i).work g i + 1 ≤ (s.rank i).work g i := hless
  exact sum_range_add_le hi hle hone

/-- How many steps a run has at most. -/
theorem jobRun_length_le (hok : SharesOk g share) {blank : Nat → β} {actions : List Nat}
    {s : Job β} (hrun : run (jobStep g) (Job.start g share blank) actions = some s) :
    actions.length ≤ g.size * (g.total * roundSteps g + 1) := by
  have hlength := @run_length_le _ _ _ (JobInv g share) (fun _ _ => True) (jobWork g)
    (fun _ _ _ hinv _ hstep => ⟨hinv.step hok hstep, hinv.work_lt hok hstep⟩)
    _ _ _ (jobInv_start share blank) (eachStep_of_forall fun _ _ => trivial) hrun
  have hstart : jobWork g (Job.start g share blank) = g.size * (g.total * roundSteps g + 1) := by
    unfold jobWork
    change ((List.range g.size).map fun _ => g.total * roundSteps g + 1).sum = _
    rw [List.map_const', List.length_range, List.sum_replicate_nat]
  omega

end Length

end Broadcast
end Distributed
end ModelStreamer
