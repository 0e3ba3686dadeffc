import ModelStreamer.AsyncIo.WorkerChunks
import ModelStreamer.Lib.Queues

/-!
# The loops of the asynchronous worker

The loops of a turn: chunks are submitted, copies that have landed are accounted, parked chunks
are tried again, and completions are processed.

Main results:

- Theorem {lit}`Busy.pump`: what is queued is submitted.
- Theorem {lit}`Core.drainCopies`: copies are drained, also while a worker is aborted.
- Theorem {lit}`Busy.harvestEach`: completions are processed one after the other.
-/

namespace ModelStreamer
namespace AsyncIo

open Common Lib Streamer PosixIo
open ObjectStorage (Answer CapacityQueue)

section Loops

variable {env : Setting} {hand : Hand} {w : Worker} {id : Nat} {entry : InflightChunk}

/-! ## Chunks without a pass -/

/-- A chunk that is neither in the engine nor a completion has no pass. -/
theorem Core.quiet_of_hand (h : Core env hand w) (hid : id ∈ hand.slotted ∨ id ∈ hand.bare) :
    ∀ entry, w.chunks.find id = some entry → entry.bounces = false := by
  intro entry hfind
  cases hbounces : entry.bounces with
  | false => rfl
  | true =>
      have hmem := h.bouncing id entry hfind hbounces
      have honce := List.nodup_iff_count_le_one.1 (h.placed.symm.nodup h.keys_nodup) id
      unfold Hand.ids Worker.places at honce
      simp only [List.count_append] at honce
      rw [List.mem_append] at hmem
      simp only [← List.count_pos_iff] at hid hmem
      omega

/-! ## Submitting -/

/-- What is queued is submitted. -/
theorem Busy.pump (answers : List StageAnswer) (h : Busy env hand w) :
    Ends (Busy env hand) (· = .refused) (Worker.pump answers w) := by
  induction answers generalizing w with
  | nil =>
      unfold Worker.pump
      cases htake : w.queue.tryTake with
      | none => exact h
      | some r => exact rfl
  | cons answer answers ih =>
      unfold Worker.pump
      cases htake : w.queue.tryTake with
      | none => exact h
      | some r =>
          have hcore := h.core.take htake
          have hbusy : Busy env (hand.slot r.1) { w with queue := r.2 } :=
            ⟨hcore, h.window.take htake⟩
          have hquiet := hcore.quiet_of_hand (Or.inl List.mem_cons_self)
          exact (hbusy.stagePending hquiet answer).bind fun w' h' => ih h'

/-! ## Copies -/

/-- A copy lands. -/
theorem Core.copyLands_ends (h : Core env hand w) (done : CopyDone) :
    Ends (fun w' => Core env hand w' ∧ w'.window = w.window) (· = .refused)
      (w.copyLands done) := by
  unfold Worker.copyLands
  cases hfind : w.copying.find? fun copy => copy.id = done.id with
  | none => exact rfl
  | some copy =>
      have hid := List.find?_some (p := fun copy : IssuedCopy => decide (copy.id = done.id)) hfind
      exact ⟨h.copyLands (perm_cons_of_find? hfind) (of_decide_eq_true hid).symm, rfl⟩

/-- Copies land one after the other. -/
theorem Core.copiesLand (landing : List CopyDone) (h : Core env hand w) :
    Ends (fun w' => Core env hand w' ∧ w'.window = w.window) (· = .refused)
      (Worker.copiesLand landing w) := by
  induction landing generalizing w with
  | nil => exact ⟨h, rfl⟩
  | cons done landing ih =>
      unfold Worker.copiesLand
      apply (h.copyLands_ends done).bind
      rintro w' ⟨h', hwindow⟩
      apply (ih h').imp
      rintro w'' ⟨h'', hwindow'⟩
      exact ⟨h'', hwindow'.trans hwindow⟩

/-- The copies that have landed are accounted. -/
theorem Core.popCopies (turns : Nat) (h : Core env hand w) :
    Ends (fun w' => Core env hand w' ∧ w'.window = w.window) (fun _ => False)
      (Worker.popCopies turns w) := by
  induction turns generalizing w with
  | zero => exact ⟨h, rfl⟩
  | succ turns ih =>
      unfold Worker.popCopies
      cases hcopies : w.copies with
      | nil => exact ⟨h, rfl⟩
      | cons done copies =>
          have hheld := h.popCopy hcopies
          have hquiet := hheld.quiet_of_hand (Or.inr List.mem_cons_self)
          have hhand : (hand.hold done.id).ids.Perm (done.id :: hand.ids) := List.perm_middle
          apply (hheld.accountChunk hhand rfl rfl hquiet done.ret false).bind
          rintro w' ⟨h', hwindow⟩
          apply (ih h').imp
          rintro w'' ⟨h'', hwindow'⟩
          exact ⟨h'', hwindow'.trans hwindow⟩

/-- Copies are drained, and all of them when the call waits. -/
theorem Core.drainCopies (h : Core env hand w) (wait : Bool) (landing : List CopyDone) :
    Ends (fun w' => Core env hand w' ∧ w'.window = w.window ∧
        (wait = true → w'.copying = [] ∧ w'.copies = []))
      (· = .refused) (w.drainCopies wait landing) := by
  unfold Worker.drainCopies
  apply (h.copiesLand landing).bind
  rintro w₁ ⟨h₁, hwindow₁⟩
  apply ((h₁.popCopies w₁.copiesIssued).mono (fun _ h => h) fun _ => False.elim).bind
  rintro w₂ ⟨h₂, hwindow₂⟩
  split
  case isTrue => exact rfl
  case isFalse hover =>
    refine ⟨h₂, hwindow₂.trans hwindow₁, fun hwait => ?_⟩
    have hcopied := h₂.copied
    have hzero : w₂.copiesIssued = 0 := not_not.1 fun hne => hover ⟨hwait, hne⟩
    exact ⟨List.eq_nil_of_length_eq_zero (by omega), List.eq_nil_of_length_eq_zero (by omega)⟩

/-! ## Parked chunks -/

/-- Parked chunks are tried again. -/
theorem Busy.resumeParked (turns : Nat) (answers : List StageAnswer) (h : Busy env hand w) :
    Ends (Busy env hand) (· = .refused) (Worker.resumeParked turns answers w) := by
  induction turns generalizing answers w with
  | zero => exact h
  | succ turns ih =>
      unfold Worker.resumeParked
      cases hwaiting : w.waiting with
      | nil => exact h
      | cons id waiting =>
          cases answers with
          | nil => exact rfl
          | cons answer answers =>
              have hcore := h.core.unpark hwaiting
              have hbusy : Busy env (hand.slot id) { w with waiting } :=
                ⟨hcore, h.window.unpark hwaiting⟩
              have hquiet := hcore.quiet_of_hand (Or.inl List.mem_cons_self)
              exact (hbusy.stagePending hquiet answer).bind fun w' h' => ih answers h'

/-! ## Completions -/

/-- The engine hands completions out. -/
theorem Busy.handOut (ids : List Nat) (h : Busy env hand w) :
    Ends (Busy env { hand with reaped := hand.reaped ++ ids }) (· = .refused)
      (Worker.handOut ids w) := by
  induction ids generalizing hand w with
  | nil =>
      rw [List.append_nil]
      exact h
  | cons id ids ih =>
      unfold Worker.handOut
      split
      case isTrue hheld =>
        rcases perm_cons_eraseP hheld with ⟨read, -, hread, hperm⟩
        have hreaped : Busy env { hand with reaped := hand.reaped ++ [read.id] } _ :=
          ⟨h.core.reap hperm, h.window.reap hperm⟩
        have hrest := ih hreaped
        rw [of_decide_eq_true hread, List.append_assoc, List.singleton_append] at hrest
        exact hrest
      case isFalse => exact rfl

/-- The engine is waited for. -/
theorem Busy.collect (ids : List Nat) (h : Busy env hand w) :
    Ends (Busy env { hand with reaped := hand.reaped ++ ids }) (· = .refused) (w.collect ids) :=
  Busy.handOut ids ⟨{ h.core with }, h.window⟩

/-- The file of a batch is read buffered from now on. -/
theorem Busy.demoteToBuffered (h : Busy env hand w) (entry : InflightChunk) (harvest : Worker.Harvest) :
    Ends (fun r => Busy env hand r.2 ∧ r.2.chunks = w.chunks) (· = .refused)
      (w.demoteToBuffered entry harvest) := by
  unfold Worker.demoteToBuffered
  cases hfile : (w.workloads.lookup entry.workloadId).bind fun wl => wl.fds[entry.batchIndex]? with
  | none => exact ⟨h, rfl⟩
  | some file =>
      rcases Option.bind_eq_some_iff.1 hfile with ⟨wl, hwl, hget⟩
      have hbuffered : (false = true → w.strategy.isDirect = true) := Bool.noConfusion
      dsimp only
      split
      case isTrue => exact ⟨h, rfl⟩
      case isFalse hpos =>
        split
        case isTrue => exact rfl
        case isFalse hfresh =>
          split
          case isTrue hopen =>
            split
            case isTrue => exact ⟨h, rfl⟩
            case isFalse =>
              have hcore := h.core.setFile { file with direct := false } hwl hget hbuffered
                (fun _ => rfl) h.core.opened_nodup fun rest hrest => h.core.opened.trans hrest
              exact ⟨⟨{ hcore with }, h.window⟩, rfl⟩
          case isFalse hclosed =>
            have hnodup : (w.opened ++ [harvest.reopened]).Nodup := List.nodup_append'.2
              ⟨h.core.opened_nodup, List.nodup_singleton _, List.disjoint_singleton.2 hfresh⟩
            let file' : BatchFd := { file with fd := harvest.reopened, direct := false }
            have hcore := h.core.setFile file' hwl hget hbuffered
              (fun hopen => absurd hopen hclosed) hnodup fun rest hrest => by
                have hnone : file.descriptor = [] := if_neg hclosed
                have hone : file'.descriptor = [harvest.reopened] := if_pos (not_lt.1 hpos)
                rw [hone]
                rw [hnone] at hrest
                exact (List.perm_append_singleton _ _).trans ((h.core.opened.trans hrest).cons _)
            exact ⟨⟨{ hcore with }, h.window⟩, rfl⟩

/-- A read that failed is tried again, or its chunk is answered. -/
theorem Busy.failedRead {harvest : Worker.Harvest} (h : Busy env (hand.slot harvest.id) w)
    (hfind : w.chunks.find harvest.id = some entry) (hquiet : entry.bounces = false) :
    Ends (Busy env hand) (· = .refused) (w.failedRead entry harvest) := by
  have hquiets := h.core.quiet_of_hand (Or.inl List.mem_cons_self)
  unfold Worker.failedRead
  cases hretry : if isTransient harvest.res then entry.mayRetryTransient else none with
  | some entry' =>
      have hsame : entry'.owner = entry.owner ∧ entry'.scratch = entry.scratch ∧
          entry'.staging = entry.staging ∧ entry'.bounces = entry.bounces := by
        split at hretry
        · unfold InflightChunk.mayRetryTransient at hretry
          split at hretry
          · cases hretry
          · cases hretry
            exact ⟨rfl, rfl, rfl, rfl⟩
        · cases hretry
      rcases hsame with ⟨howner, hscratch, hstaging, hbounces⟩
      have hcore := h.core.setPlain hfind howner hscratch hstaging (hbounces ▸ fun h => h)
      apply Busy.stagePending ⟨hcore, h.window⟩
      exact quiet_set hfind (hbounces.trans hquiet)
  | none =>
      dsimp only
      split
      case isTrue =>
        apply (h.demoteToBuffered entry harvest).bind
        rintro ⟨code, w'⟩ ⟨h', hchunks⟩
        have hquiets' := h'.core.quiet_of_hand (Or.inl List.mem_cons_self)
        dsimp only
        split
        case isTrue => exact h'.stagePending hquiets' harvest.restaged
        case isFalse =>
          exact (h'.completeChunk hquiets' code .success).mono (fun _ h => h) fun _ => False.elim
      case isFalse =>
        exact (h.completeChunk hquiets _ .success).mono (fun _ h => h) fun _ => False.elim

/-- A read that has landed is answered, copied or continued. -/
theorem Busy.landedRead {harvest : Worker.Harvest} (h : Busy env (hand.slot harvest.id) w)
    (hfind : w.chunks.find harvest.id = some entry) (hquiet : entry.bounces = false)
    (useful : Nat) :
    Ends (Busy env hand) (· = .refused) (w.landedRead entry useful harvest) := by
  have hsame : (entry.record useful).2.owner = entry.owner ∧
      (entry.record useful).2.scratch = entry.scratch ∧
      (entry.record useful).2.staging = entry.staging ∧
      (entry.record useful).2.bounces = entry.bounces := by
    unfold InflightChunk.record
    split
    · exact ⟨rfl, rfl, rfl, rfl⟩
    · split <;> exact ⟨rfl, rfl, rfl, rfl⟩
  unfold Worker.landedRead
  generalize entry.record useful = r at hsame ⊢
  rcases r with ⟨progress, entry'⟩
  rcases hsame with ⟨howner, hscratch, hstaging, hbounces⟩
  have hcore := h.core.setPlain hfind howner hscratch hstaging (hbounces ▸ fun h => h)
  have hbusy : Busy env (hand.slot harvest.id) _ := ⟨hcore, h.window⟩
  have hquiets := quiet_set hfind (hbounces.trans hquiet)
  cases progress with
  | complete =>
      exact (hbusy.completeChunk hquiets .success harvest.written).mono (fun _ h => h)
        fun _ => False.elim
  | eof =>
      exact (hbusy.completeChunk hquiets .eofError .success).mono (fun _ h => h)
        fun _ => False.elim
  | partialRead => exact hbusy.stagePending hquiets harvest.restaged

/-- A completion is processed. -/
theorem Busy.harvestOne {harvest : Worker.Harvest} {reaped : List Nat} (h : Busy env hand w)
    (hreaped : hand.reaped = harvest.id :: reaped) :
    Ends (Busy env { hand with reaped }) (· = .refused) (w.harvestOne harvest) := by
  have hmem : harvest.id ∈ hand.ids := by
    unfold Hand.ids
    rw [hreaped]
    simp
  rcases h.core.find_of_hand hmem with ⟨entry, hfind⟩
  have hissued : w.issued ≠ 0 := by
    rw [h.core.issued, hreaped, List.length_cons]
    omega
  unfold Worker.harvestOne
  rw [if_neg hissued]
  dsimp only
  rw [hfind]
  dsimp only
  have hcleared := h.core.clearBounce hfind
  have hfind' : (w.clearBounce harvest.id entry).chunks.find harvest.id = some entry.clearBounce := by
    refine (find_set _ _ _ _).trans ?_
    rw [if_pos rfl, hfind, Option.map_some]
  have hprocess := hcleared.process hreaped fun e he => by
    rw [hfind'] at he
    rw [← Option.some.inj he]
    rfl
  have hbusy : Busy env ({ hand with reaped }.slot harvest.id) _ :=
    ⟨hprocess, h.window.process hreaped⟩
  split
  case isTrue => exact hbusy.failedRead hfind' rfl
  case isFalse => exact hbusy.landedRead hfind' rfl _

/-- Completions are processed one after the other. -/
theorem Busy.harvestEach (harvests : List Worker.Harvest) (h : Busy env hand w)
    (hreaped : hand.reaped = harvests.map Worker.Harvest.id) :
    Ends (Busy env { hand with reaped := [] }) (· = .refused) (Worker.harvestEach harvests w) := by
  induction harvests generalizing hand w with
  | nil =>
      have hhand : { hand with reaped := [] } = hand := by
        rw [← List.map_nil, ← hreaped]
      rw [hhand]
      exact h
  | cons harvest harvests ih =>
      unfold Worker.harvestEach
      apply (h.harvestOne hreaped).bind
      intro w' h'
      have hrest := ih h' rfl
      exact hrest

end Loops

end AsyncIo
end ModelStreamer
