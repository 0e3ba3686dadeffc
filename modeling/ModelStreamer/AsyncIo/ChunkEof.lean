import ModelStreamer.AsyncIo.ChunkReadSpec

/-!
# The end of the file

A chunk is answered with {lit}`EofError` when a pass brought no byte of it.  A pass that was
widened to whole blocks may bring bytes and none of them may belong to the chunk, and then the
answer says that the file is short when it is not.

Main results:

- Theorem {lit}`eofError_iff_short_file`: a chunk whose reads all come back with counts is
  answered after at most as many passes as it has bytes, and the answers are right exactly
  when every count gets past the bytes in front of the chunk or the file is short.
-/

namespace ModelStreamer
namespace AsyncIo

open Common Lib Streamer PosixIo

/-- The reads come back with counts, and a scratch buffer is free for every pass. -/
def Served (action : ChunkAction) : Prop :=
  match action with
  | .stage pool => ∃ p, pool = some p ∧ p.free ≠ []
  | .fails _ _ => False
  | _ => True

/-- The answer says whether the file holds all of the chunk. -/
def AnswerRight (file : FileData) (chunk : Chunk) (s : ChunkRead) : Prop :=
  ∀ code, s.answer = some code →
    code = if file.size < chunk.offset + chunk.bytesize then .eofError else .success

/-- A count gets past the bytes in front of the chunk, unless the file is short. -/
def CountCoversSkip (file : FileData) (chunk : Chunk) (s : ChunkRead) (action : ChunkAction) :
    Prop :=
  match action with
  | .lands count =>
      file.size < chunk.offset + chunk.bytesize ∨ s.entry.scratchSkip < count
  | _ => True

/-- The number of passes that came back. -/
def landings (actions : List ChunkAction) : Nat :=
  actions.countP fun action => match action with
    | .lands _ => true
    | _ => false

/-- The next pass can be staged, or the pass in flight can come back. -/
def CanGoOn (file : FileData) (s : ChunkRead) : Prop :=
  match s.inFlight with
  | none => ∀ pool : ScratchPool, pool.free ≠ [] →
      ∃ s', chunkStep file s (.stage (some pool)) = some s' ∧ s'.inFlight.isSome = true
  | some _ => ∃ count s', chunkStep file s (.lands count) = some s'

/-! ## Steps -/

section Steps

variable {file : FileData} {strategy : Strategy} {mountBlock settingsChunk : Nat}
  {chunk : Chunk} {staging : Option StagingBuffer} {scratches : List Addr}
  {direct₀ : Bool} {block₀ : Nat} {memory : HostMemory} {s s' : ChunkRead}
  {action : ChunkAction} {actions : List ChunkAction}

/-- A pass can be planned while a scratch buffer is free. -/
theorem planPass_isSome {pool : ScratchPool} (hfree : pool.free ≠ []) (pending : Chunk)
    (block : Nat) (direct staged : Bool) :
    (planPass (some pool) pending block direct staged).isSome = true := by
  have hbounce : ∀ f, (bounceThrough (some pool) f).isSome = true := by
    intro f
    unfold bounceThrough ScratchPool.take
    cases hcase : pool.free with
    | nil => exact absurd hcase hfree
    | cons a free => simp [hcase]
  unfold planPass planDirectPass
  simp only
  split_ifs
  · rfl
  · exact hbounce _
  · rfl
  · exact hbounce _
  · rfl

/-- Staging with a free scratch buffer puts a pass in flight and takes nothing off the chunk. -/
theorem stagePending_served {pool : Option ScratchPool}
    (hserved : Served (.stage pool)) (hanswer : s.answer = none) :
    (s.stagePending pool).answer = none ∧ (s.stagePending pool).inFlight.isSome = true ∧
      (s.stagePending pool).entry.remaining = s.entry.remaining := by
  obtain ⟨p, rfl, hfree⟩ := hserved
  have hremaining : (s.entry.placeInStaging s.block s.direct).remaining = s.entry.remaining := by
    unfold InflightChunk.placeInStaging
    split_ifs <;> rfl
  unfold ChunkRead.stagePending
  simp only
  split
  · rename_i hplan
    have hsome := planPass_isSome hfree (s.entry.placeInStaging s.block s.direct).pending
      s.block s.direct (s.entry.placeInStaging s.block s.direct).staging.isSome
    simp [hplan] at hsome
  · simp [hanswer, hremaining]

/-- Nothing happens to a chunk that was answered. -/
theorem chunkStep_answered (hanswer : s.answer ≠ none) : chunkStep file s action = none := by
  unfold chunkStep
  rw [if_pos (Option.isSome_iff_ne_none.2 hanswer)]

/-- What a served step does: the answer is right exactly when the count covers the skip. -/
theorem served_step
    (hok : ReadOk file strategy mountBlock chunk staging scratches memory s)
    (hserved : Served action) (hstep : chunkStep file s action = some s') :
    (AnswerRight file chunk s' ↔ CountCoversSkip file chunk s action) ∧
      (s'.answer = none →
        landings [action] + s'.entry.remaining ≤ s.entry.remaining) := by
  -- a step that leaves the chunk unanswered and does not count
  have hquiet : ∀ {s₁ : ChunkRead}, s₁.answer = none → s₁.entry.remaining = s.entry.remaining →
      landings [action] = 0 → CountCoversSkip file chunk s action →
      (AnswerRight file chunk s₁ ↔ CountCoversSkip file chunk s action) ∧
        (s₁.answer = none →
          landings [action] + s₁.entry.remaining ≤ s.entry.remaining) := by
    intro s₁ hnone hremaining hzero hcover
    refine ⟨iff_of_true ?_ hcover, fun _ => by omega⟩
    intro code hcode
    rw [hnone] at hcode
    cases hcode
  unfold chunkStep at hstep
  split_ifs at hstep with hanswered
  have hanswer : s.answer = none := Option.not_isSome_iff_eq_none.1 hanswered
  cases action with
  | stage pool =>
      cases hidle : s.inFlight with
      | some pass => simp [hidle] at hstep
      | none =>
          simp only [hidle, Option.some.injEq] at hstep
          subst hstep
          obtain ⟨hnone, -, hremaining⟩ := stagePending_served hserved hanswer
          exact hquiet hnone hremaining rfl trivial
  | lands count =>
      cases hpass : s.inFlight with
      | none => simp [hpass] at hstep
      | some pass =>
          simp only [hpass] at hstep
          split_ifs at hstep with hmay
          cases hstep
          obtain ⟨hle, hsize, hzero⟩ := hmay
          have hflight := hok.flight pass hpass
          have hentry := hok.entry hanswer
          have hstop : s.entry.cursor + s.entry.remaining = chunk.offset + chunk.bytesize :=
            hentry.stop_eq
          have hpos : 0 < s.entry.remaining := hentry.remaining_pos
          have hskip := hflight.offset_add
          obtain ⟨huseful, hremaining⟩ := hflight.useful_le count hle
          unfold AnswerRight ChunkRead.land CountCoversSkip
          simp only
          by_cases hall : s.entry.remaining ≤ s.entry.useful count
          · -- the last byte of the chunk is in the file
            rw [@record_complete s.entry.clearBounce _ hall]
            have hlong : ¬ file.size < chunk.offset + chunk.bytesize := by omega
            refine ⟨iff_of_true ?_ (Or.inr (by omega)), fun hnone => by cases hnone⟩
            intro code hcode
            cases hcode
            rw [if_neg hlong]
          · by_cases hnothing : s.entry.useful count = 0
            · -- no byte of the chunk: right only for a short file
              have hcount := hflight.useful_zero count hnothing
              rw [hnothing, @record_zero s.entry.clearBounce hpos]
              refine ⟨⟨fun hright => Or.inl ?_, fun hcover code hcode => ?_⟩,
                fun hnone => by cases hnone⟩
              · by_contra hlong
                have heq := hright .eofError rfl
                rw [if_neg hlong] at heq
                cases heq
              · cases hcode
                rcases hcover with hshort | hpast
                · rw [if_pos hshort]
                · omega
            · rw [@record_short s.entry.clearBounce _ (Nat.pos_of_ne_zero hnothing)
                (Nat.lt_of_not_le hall)]
              refine ⟨iff_of_true ?_ (Or.inr (by omega)), fun _ => ?_⟩
              · intro code hcode
                cases hcode
              · have hone : landings [ChunkAction.lands count] = 1 := rfl
                rw [hone]
                simp only [clearBounce_remaining]
                omega
  | fails res reopened => exact hserved.elim
  | adoptBlock block =>
      simp only at hstep
      split_ifs at hstep with hblock
      cases hstep
      exact hquiet hanswer rfl rfl trivial
  | demote =>
      simp only [Option.some.injEq] at hstep
      subst hstep
      exact hquiet hanswer rfl rfl trivial

/-! ## Runs -/

/-- The answers of a run and the number of its passes. -/
theorem served_run
    (hsetup : ReadSetup strategy mountBlock settingsChunk chunk staging scratches direct₀ block₀)
    (hok : ReadOk file strategy mountBlock chunk staging scratches memory s)
    (hanswer : s.answer = none)
    (hscratch : ∀ action ∈ actions, ScratchFrom scratches action)
    (hserved : ∀ action ∈ actions, Served action)
    (hrun : run (chunkStep file) s actions = some s') :
    (AnswerRight file chunk s' ↔
      EachStep (chunkStep file) (CountCoversSkip file chunk) s actions) ∧
      landings actions ≤ s.entry.remaining ∧
      (s'.answer = none → landings actions + s'.entry.remaining ≤ s.entry.remaining) := by
  induction actions generalizing s with
  | nil =>
      cases hrun
      refine ⟨iff_of_true ?_ trivial, Nat.zero_le _, fun _ => ?_⟩
      · intro code hcode
        rw [hanswer] at hcode
        cases hcode
      · simp [landings]
  | cons action actions ih =>
      obtain ⟨s₁, hstep, hrest⟩ := run_cons.1 hrun
      have hok₁ := hok.step hsetup (hscratch action List.mem_cons_self) hstep
      obtain ⟨hright, hcount⟩ := served_step hok (hserved action List.mem_cons_self) hstep
      have hsplit : landings (action :: actions) = landings [action] + landings actions := by
        unfold landings
        rw [← List.countP_append]
        rfl
      have hpos : 0 < s.entry.remaining := (hok.entry hanswer).remaining_pos
      rw [eachStep_cons hstep, hsplit]
      by_cases hnone : s₁.answer = none
      · obtain ⟨ihright, ihle, ihcount⟩ := ih hok₁ hnone
          (fun a ha => hscratch a (List.mem_cons_of_mem _ ha))
          (fun a ha => hserved a (List.mem_cons_of_mem _ ha)) hrest
        have hcover : CountCoversSkip file chunk s action := hright.1 fun code hcode => by
          rw [hnone] at hcode
          cases hcode
        have hstepCount := hcount hnone
        refine ⟨?_, by omega, fun h => ?_⟩
        · rw [ihright]
          exact ⟨fun h => ⟨hcover, h⟩, fun h => h.2⟩
        · have hend := ihcount h
          omega
      · -- the chunk was answered, so this was the last step
        cases actions with
        | nil =>
            cases hrest
            have hone : landings [action] ≤ 1 := List.countP_le_length
            have hzero : landings ([] : List ChunkAction) = 0 := rfl
            refine ⟨?_, by omega, fun h => absurd h hnone⟩
            rw [hright]
            exact ⟨fun h => ⟨h, trivial⟩, fun h => h.1⟩
        | cons next rest =>
            obtain ⟨s₂, hdead, -⟩ := run_cons.1 hrest
            rw [chunkStep_answered hnone] at hdead
            cases hdead

/-- A chunk that was not answered can go on. -/
theorem ReadOk.canGoOn
    (hok : ReadOk file strategy mountBlock chunk staging scratches memory s)
    (hanswer : s.answer = none) : CanGoOn file s := by
  unfold CanGoOn
  cases hidle : s.inFlight with
  | none =>
      intro pool hfree
      refine ⟨s.stagePending (some pool), ?_, ?_⟩
      · simp [chunkStep, hanswer, hidle]
      · exact (stagePending_served ⟨pool, rfl, hfree⟩ hanswer).2.1
  | some pass =>
      have hpos := (hok.flight pass hidle).bytesize_pos
      -- the kernel gives one byte, or none at the end of the file
      refine ⟨min 1 (file.size - pass.offset), ?_⟩
      have hmay : MayDeliver file pass (min 1 (file.size - pass.offset)) := by
        refine ⟨?_, ?_, fun hzero => ?_⟩ <;> omega
      simp [chunkStep, hanswer, hidle, hmay]

end Steps

/--
A chunk whose reads come back with counts.  It is answered after at most as many passes as it
has bytes, and until then it can go on.  Its answer is {lit}`EofError` for a short file and
success for any other exactly when every count gets past the bytes in front of the chunk or
the file is short.
-/
theorem eofError_iff_short_file {file : FileData} {strategy : Strategy}
    {mountBlock settingsChunk : Nat} {chunk : Chunk} {staging : Option StagingBuffer}
    {scratches : List Addr} {direct : Bool} {block : Nat} {memory : HostMemory}
    {actions : List ChunkAction} {s : ChunkRead}
    (hsetup : ReadSetup strategy mountBlock settingsChunk chunk staging scratches direct block)
    (hscratch : ∀ action ∈ actions, ScratchFrom scratches action)
    (hserved : ∀ action ∈ actions, Served action)
    (hrun : run (chunkStep file) (ChunkRead.start chunk staging direct block memory) actions =
      some s) :
    (landings actions ≤ chunk.bytesize ∧
      (s.answer = none → landings actions < chunk.bytesize ∧ CanGoOn file s)) ∧
    (AnswerRight file chunk s ↔
      EachStep (chunkStep file) (CountCoversSkip file chunk)
        (ChunkRead.start chunk staging direct block memory) actions) := by
  have hstart := readOk_start file memory hsetup
  have hok := readOk_run hsetup hscratch hrun
  obtain ⟨hright, hle, hcount⟩ := served_run hsetup hstart rfl hscratch hserved hrun
  refine ⟨⟨hle, fun hnone => ⟨?_, hok.canGoOn hnone⟩⟩, hright⟩
  have hpos : 0 < s.entry.remaining := (hok.entry hnone).remaining_pos
  have hend := hcount hnone
  have hremaining : (ChunkRead.start chunk staging direct block memory).entry.remaining =
      chunk.bytesize := rfl
  omega

/-- The head block in one pass, whole blocks in two, and a bounced tail. -/
def longCounts : List ChunkAction :=
  [.stage oneScratch, .lands 4096, .stage oneScratch, .lands 1000, .adoptBlock 512,
    .stage oneScratch, .lands 512, .stage oneScratch, .lands 512, .stage oneScratch, .lands 512]

theorem eofError_iff_short_file_hostChunk :
    ∃ s, run (chunkStep countingFile)
        (ChunkRead.start hostChunk none true 4096 fun _ => 0) longCounts = some s ∧
      s.answer = some .success ∧ landings longCounts ≤ 5000 ∧
      EachStep (chunkStep countingFile) (CountCoversSkip countingFile hostChunk)
        (ChunkRead.start hostChunk none true 4096 fun _ => 0) longCounts := by
  have hanswer : (run (chunkStep countingFile)
      (ChunkRead.start hostChunk none true 4096 fun _ => 0) longCounts).map (·.answer) =
        some (some .success) := by decide +kernel
  obtain ⟨s, hrun, hsuccess⟩ := Option.map_eq_some_iff.1 hanswer
  have hscratch : ∀ action ∈ longCounts, ScratchFrom [131072#64] action := by
    simp [longCounts, ScratchFrom, oneScratch]
  have hserved : ∀ action ∈ longCounts, Served action := by
    simp [longCounts, Served, oneScratch]
  obtain ⟨⟨hle, -⟩, hright⟩ := eofError_iff_short_file hostChunk_setup hscratch hserved hrun
  refine ⟨s, hrun, hsuccess, hle, hright.1 fun code hcode => ?_⟩
  rw [hsuccess] at hcode
  cases hcode
  rfl

/-- A count of 500 ends in front of the chunk, which starts 904 bytes into its block. -/
theorem eofError_on_long_file :
    ∃ s, run (chunkStep countingFile)
        (ChunkRead.start hostChunk none true 4096 fun _ => 0)
          [.stage oneScratch, .lands 500] = some s ∧
      s.answer = some .eofError ∧
      hostChunk.offset + hostChunk.bytesize ≤ countingFile.size := by
  have hanswer : (run (chunkStep countingFile)
      (ChunkRead.start hostChunk none true 4096 fun _ => 0)
        [.stage oneScratch, .lands 500]).map (·.answer) = some (some .eofError) := by
    decide +kernel
  obtain ⟨s, hrun, heof⟩ := Option.map_eq_some_iff.1 hanswer
  exact ⟨s, hrun, heof, by decide⟩

end AsyncIo
end ModelStreamer
