import ModelStreamer.Distributed.BroadcastProgress

/-!
# What the broadcast promises

Results about every run of a group, with its ranks interleaved in any way, for shares that make
up one request.

Main results:

- Theorem {lit}`broadcast_contract`: the ranks agree on the broadcasts, on the chunks that are
  left and on the order of the chunks, and the run ends with all chunks yielded by every rank.
-/

namespace ModelStreamer
namespace Distributed
namespace Broadcast

open Lib

variable {β : Type*}

/-! ## What is promised -/

/-- The chunks that a rank has broadcast. -/
def sentBy (g : Group) (log : List (Message β)) (i : Nat) : List (Yielded β) :=
  (scriptOf g log log.length).sent i

/-- The chunks of a request, divided among the ranks of a group. -/
structure Divided (g : Group) (share : Nat → List (ReadyChunk β)) (request : List (Yielded β)) :
    Prop where
  size_pos : 0 < g.size
  total : g.total = request.length
  chunks : ((List.range g.size).flatMap fun i =>
    (share i).map (ReadyChunk.original (g.dicts i))).Perm request
  fits : ∀ i < g.size, ∀ chunk ∈ share i, chunk.bytes.length ≤ g.maxChunk

/-- What holds at every point of a run. -/
structure BroadcastContract (g : Group) (share : Nat → List (ReadyChunk β))
    (request : List (Yielded β)) (s : Job β) : Prop where
  /-- {lit}`No chunks to read` is not raised, and no broadcast meets another one. -/
  no_error : ∀ i < g.size, (s.rank i).phase ≠ .raised ∧ (s.rank i).phase ≠ .mismatched
  /-- All ranks make the same broadcasts, with the same sources and sizes. -/
  broadcasts : ∀ i < g.size,
    (s.rank i).made <+: s.log.map fun msg => (msg.source, msg.tensor.shape)
  /-- Ranks that have made the same broadcasts wait for the same one. -/
  meet : ∀ i < g.size, ∀ j < g.size, (s.rank i).calls = (s.rank j).calls →
    ∀ call, (s.rank i).nextCall i = some call →
      (s.rank j).phase ≠ .finished ∧ ∀ other, (s.rank j).nextCall j = some other → other = call
  /-- The data of every broadcast fits into a staging buffer. -/
  fits : ∀ msg ∈ s.log, ∀ bytes, msg.tensor = .data bytes → bytes.length ≤ g.bufferBytesize
  /-- All ranks yield in one order. -/
  yields : ∃ order, ∀ i < g.size, (s.rank i).yields <+: order
  /-- All ranks have as many chunks left after a round. -/
  rounds : ∃ left, ∀ i < g.size, (s.rank i).rounds <+: left
  /-- What a rank has broadcast, what its staging buffer holds, what was set aside and what is
  not read yet are its share, in this order. -/
  order : ∀ i < g.size,
    sentBy g s.log i ++ (s.rank i).unsent i ++
        ((s.rank i).staging.leftover.toList ++ (s.rank i).staging.ready).map
          (ReadyChunk.original (g.dicts i)) =
      (share i).map (ReadyChunk.original (g.dicts i))
  /-- A rank with chunks left has filled at least one into its staging buffer. -/
  sends : ∀ i < g.size, (s.rank i).phase.unsent i = true → (s.rank i).unsent i = [] →
    (s.rank i).staging.leftover = none ∧ (s.rank i).staging.ready = []
  /-- A rank that is finished has yielded every chunk of the request, and no other. -/
  finished : ∀ i < g.size, (s.rank i).phase = .finished →
    (s.rank i).chunksToRead = 0 ∧ (s.rank i).yields.Perm request ∧
      (s.rank i).made = s.log.map fun msg => (msg.source, msg.tensor.shape)
  /-- Ranks that are finished agree on everything. -/
  agree : ∀ i < g.size, ∀ j < g.size, (s.rank i).phase = .finished →
    (s.rank j).phase = .finished →
    (s.rank i).yields = (s.rank j).yields ∧ (s.rank i).rounds = (s.rank j).rounds
  /-- A run that cannot go on has finished all ranks. -/
  ends : (∀ i, jobStep g s i = none) → ∀ i < g.size, (s.rank i).phase = .finished

/-! ## Why it holds -/

section Promises

variable {g : Group} {share : Nat → List (ReadyChunk β)} {request : List (Yielded β)} {s : Job β}

/-- Shares that make up a request. -/
theorem Divided.sharesOk (h : Divided g share request) : SharesOk g share := by
  refine ⟨h.size_pos, ?_, h.fits⟩
  rw [h.total, ← h.chunks.length_eq, List.length_flatMap]
  simp

/-- What a rank has yielded is part of what all ranks will have. -/
theorem RankInv.yields_initial {log : List (Message β)} {i : Nat} {st : RankState β}
    (h : RankInv g share i log st) : st.yields <+: (scriptOf g log log.length).yields := by
  have hgrown : (scriptOf g log st.calls).yields <+: (scriptOf g log log.length).yields :=
    scriptAt_mono (R := fun a b : Script β => a.yields <+: b.yields)
      (fun _ => List.prefix_refl _) (fun _ _ _ => List.IsPrefix.trans) (yields_prefix_add g)
      h.core.calls_le
  apply List.IsPrefix.trans _ hgrown
  rw [← h.yields]
  exact List.prefix_append _ _

/-- What a rank has seen of the rounds is part of what all ranks will have. -/
theorem RankInv.rounds_initial {log : List (Message β)} {i : Nat} {st : RankState β}
    (h : RankInv g share i log st) :
    st.rounds <+: (scriptOf g log log.length).rounds.map
      fun (count : Nat) => (g.total : Int) - count := by
  have hgrown : (scriptOf g log st.calls).rounds <+: (scriptOf g log log.length).rounds :=
    scriptAt_mono (R := fun a b : Script β => a.rounds <+: b.rounds)
      (fun _ => List.prefix_refl _) (fun _ _ _ => List.IsPrefix.trans) (rounds_prefix_add g)
      h.core.calls_le
  apply List.IsPrefix.trans _ (hgrown.map _)
  rw [← h.rounds]
  exact List.prefix_append _ _

/-- A rank that is finished has yielded and counted all that was broadcast. -/
theorem RankInv.finished_eq {log : List (Message β)} {length : Nat → Nat} {i : Nat}
    {st : RankState β} (h : RankInv g share i log st)
    (hscripted : Scripted (Script.add g) (Allowed g length) (Script.start β) log)
    (hphase : st.phase = .finished) :
    st.yields = (scriptOf g log log.length).yields ∧
      st.rounds = (scriptOf g log log.length).rounds.map
        fun (count : Nat) => (g.total : Int) - count := by
  have hcalls := h.calls_of_finished hscripted hphase
  have hyields := h.yields
  have hrounds := h.rounds
  unfold RankState.rest at hyields
  unfold RankState.endingRound at hrounds
  rw [hphase, hcalls] at hyields hrounds
  exact ⟨(List.append_nil _).symm.trans hyields, (List.append_nil _).symm.trans hrounds⟩

/-- When a rank is finished, every rank has sent its share. -/
theorem JobInv.sent_all (h : JobInv g share s) (hok : SharesOk g share) {i j : Nat}
    (hi : i < g.size) (hphase : (s.rank i).phase = .finished) (hj : j < g.size) :
    (scriptOf g s.log s.log.length).sent j = (share j).map (ReadyChunk.original (g.dicts j)) := by
  have hcalls := (h.ranks i hi).calls_of_finished h.scripted hphase
  rcases (h.ranks i hi).finished hphase with ⟨hcursor, hcount, -⟩
  rw [hcalls] at hcursor hcount
  have hscript := scriptInv_of_scripted hok h.scripted (Nat.le_refl s.log.length)
  have hlength := hscript.complete_of_count hok.total hcursor hcount hj
  have hshare := (h.ranks j hj).share
  rw [List.append_assoc] at hshare
  apply List.IsPrefix.eq_of_length
  · rw [← hshare]
    exact List.prefix_append _ _
  · rw [List.length_map]
    exact hlength

/-- A rank that is finished has yielded the request. -/
theorem JobInv.yields_perm (h : JobInv g share s) (hdivided : Divided g share request) {i : Nat}
    (hi : i < g.size) (hphase : (s.rank i).phase = .finished) :
    (s.rank i).yields.Perm request := by
  have hok := hdivided.sharesOk
  have hscript := scriptInv_of_scripted hok h.scripted (Nat.le_refl s.log.length)
  rw [((h.ranks i hi).finished_eq h.scripted hphase).1]
  apply hscript.yields_perm.symm.trans
  apply List.Perm.trans _ hdivided.chunks
  apply List.Perm.of_eq
  apply List.flatMap_congr
  intro j hj
  exact h.sent_all hok hi hphase (List.mem_range.1 hj)

/-- The data of every broadcast fits. -/
theorem JobInv.fits (h : JobInv g share s) (hok : SharesOk g share) {msg : Message β}
    (hmsg : msg ∈ s.log) {bytes : List β} (htensor : msg.tensor = .data bytes) :
    bytes.length ≤ g.bufferBytesize := by
  rcases List.getElem?_of_mem hmsg with ⟨k, hk⟩
  rcases List.getElem?_eq_some_iff.1 hk with ⟨hlt, -⟩
  have hscript := scriptInv_of_scripted hok h.scripted (Nat.le_of_lt hlt)
  have hallowed := h.scripted k msg hk
  change Allowed g _ (scriptOf g s.log k) _ at hallowed
  unfold Allowed at hallowed
  rw [htensor] at hallowed
  split at hallowed
  · rename_i htensor'
    cases htensor'
  · rename_i r m bytes' hcursor htensor'
    cases htensor'
    rcases hscript.data_ok r m hcursor with ⟨-, -, -, hrows, -⟩
    rw [hallowed.2]
    exact hrows.le
  · exact hallowed.elim

end Promises

/-! ## The contract -/

/-- At every point of every run the ranks agree, and every run ends with all chunks yielded. -/
theorem broadcast_contract {g : Group} {share : Nat → List (ReadyChunk β)}
    {request : List (Yielded β)} (hdivided : Divided g share request) (blank : Nat → β)
    {actions : List Nat} {s : Job β}
    (hrun : run (jobStep g) (Job.start g share blank) actions = some s) :
    BroadcastContract g share request s ∧
      actions.length ≤ g.size * (g.total * (4 * g.size + 2) + 1) := by
  have hok := hdivided.sharesOk
  have hinv := jobInv_run hok hrun
  constructor
  case right => exact jobRun_length_le hok hrun
  case left =>
    constructor
    case no_error =>
      intro i hi
      have hagrees := (hinv.ranks i hi).agrees
      unfold RankState.Agrees at hagrees
      constructor
      · intro hphase
        rw [hphase] at hagrees
        exact hagrees
      · intro hphase
        rw [hphase] at hagrees
        exact hagrees
    case broadcasts =>
      intro i hi
      rw [(hinv.ranks i hi).core.made]
      exact (List.take_prefix _ _).map _
    case meet =>
      intro i hi j hj hcalls call hcall
      exact hinv.meet hok hi hj hcalls hcall
    case fits =>
      intro msg hmsg bytes htensor
      exact hinv.fits hok hmsg htensor
    case yields => exact ⟨_, fun i hi => (hinv.ranks i hi).yields_initial⟩
    case rounds => exact ⟨_, fun i hi => (hinv.ranks i hi).rounds_initial⟩
    case order =>
      intro i hi
      exact (hinv.ranks i hi).share
    case sends =>
      intro i hi hunsent hnone
      have hcount : (s.rank i).staging.count = 0 := by
        have hlength := congrArg List.length hnone
        unfold RankState.unsent at hlength
        rw [if_pos hunsent, length_unpack] at hlength
        exact hlength
      have hpending := (hinv.ranks i hi).empty hunsent hcount
      rcases List.append_eq_nil_iff.1 hpending with ⟨hleftover, hready⟩
      exact ⟨Option.toList_eq_nil_iff.1 hleftover, hready⟩
    case finished =>
      intro i hi hphase
      refine ⟨((hinv.ranks i hi).finished hphase).2.2, hinv.yields_perm hdivided hi hphase, ?_⟩
      rw [(hinv.ranks i hi).core.made, (hinv.ranks i hi).calls_of_finished hinv.scripted hphase,
        List.take_length]
    case agree =>
      intro i hi j hj hphase hphase'
      rcases (hinv.ranks i hi).finished_eq hinv.scripted hphase with ⟨hyields, hrounds⟩
      rcases (hinv.ranks j hj).finished_eq hinv.scripted hphase' with ⟨hyields', hrounds'⟩
      exact ⟨hyields.trans hyields'.symm, hrounds.trans hrounds'.symm⟩
    case ends =>
      intro hstuck
      exact hinv.progress hok hstuck

/-- A group of two ranks, one of them with nothing to read. -/
def twoRanks : Group :=
  { size := 2
    alignment := 4
    minimum := 8
    maxChunk := 5
    total := 3
    rawPtr := fun i => 3 + i
    dicts := fun _ id index => (id, index) }

/-- The first rank has three chunks, and the last one is empty. -/
def twoShares : Nat → List (ReadyChunk Nat)
  | 0 => [⟨0, 0, [1, 2, 3, 4, 5]⟩, ⟨0, 1, [6, 7, 8, 9]⟩, ⟨0, 2, []⟩]
  | _ => []

/-- The request of the two ranks. -/
def twoRequest : List (Yielded Nat) :=
  [⟨0, 0, [1, 2, 3, 4, 5]⟩, ⟨0, 1, [6, 7, 8, 9]⟩, ⟨0, 2, []⟩]

theorem twoRanks_divided : Divided twoRanks twoShares twoRequest := by
  refine ⟨by decide, rfl, List.Perm.refl _, ?_⟩
  change ∀ i < 2, ∀ chunk ∈ twoShares i, chunk.bytes.length ≤ 5
  decide

/-- The second chunk does not fit behind the first one, so there are two rounds. -/
def twoActions : List Nat :=
  List.replicate 5 0 ++ List.replicate 6 1 ++ List.replicate 7 0 ++ List.replicate 8 1 ++
    List.replicate 2 0

/-- Both ranks yield all three chunks. -/
theorem broadcast_contract_two : ∃ s,
    run (jobStep twoRanks) (Job.start twoRanks twoShares fun _ => 0) twoActions = some s ∧
      BroadcastContract twoRanks twoShares twoRequest s ∧
      (s.rank 0).phase = .finished ∧ (s.rank 1).phase = .finished ∧
      (s.rank 0).rounds = [2, 0] ∧ (s.rank 1).yields = twoRequest := by
  have hends : ((run (jobStep twoRanks) (Job.start twoRanks twoShares fun _ => 0)
      twoActions).map fun s => ((s.rank 0).phase, (s.rank 1).phase, (s.rank 0).rounds,
        (s.rank 1).yields)) = some (.finished, .finished, [2, 0], twoRequest) := by
    decide +kernel
  rcases Option.map_eq_some_iff.1 hends with ⟨s, hrun, heq⟩
  simp only [Prod.mk.injEq] at heq
  exact ⟨s, hrun, (broadcast_contract twoRanks_divided (fun _ => 0) hrun).1, heq⟩

end Broadcast
end Distributed
end ModelStreamer
