import ModelStreamer.Distributed.BroadcastFill
import ModelStreamer.Lib.Queues
import ModelStreamer.Lib.Script
import Mathlib.Algebra.BigOperators.Group.List.Basic
import Mathlib.Algebra.Order.BigOperators.Group.List
import Mathlib.Algebra.Order.Ring.Nat

/-!
# The script of the broadcasts

What has been broadcast determines what comes next: the metadata of a rank, or the data of a
batch that was announced.  It also determines how many chunks every rank has counted and what
every rank has yielded.

Main results:

- Theorem {lit}`ScriptInv.add`: what every broadcast of the protocol keeps.
- Theorem {lit}`ScriptInv.count_eq_total`: a round without chunks means that all were sent.
-/

namespace ModelStreamer
namespace Distributed
namespace Broadcast

open Lib

variable {β : Type*}

/-! ## The script -/

/-- The broadcast that comes next. -/
inductive Cursor where
  | metadata (r : Nat)
  | data (r : Nat) (m : Metadata)

/-- What follows from the tensors that were broadcast. -/
structure Script (β : Type*) where
  cursor : Cursor
  /-- The chunks that were announced, and those of the round. -/
  count : Nat
  round : Nat
  /-- The batches, each with the rank that sent it. -/
  batches : List (Nat × List (Yielded β))
  /-- The chunks that were announced by the end of each round. -/
  rounds : List Nat

/-- Nothing was broadcast. -/
def Script.start (β : Type*) : Script β :=
  { cursor := .metadata 0, count := 0, round := 0, batches := [], rounds := [] }

/-- The rank that broadcasts after another one. -/
def nextRank (g : Group) (r : Nat) : Nat :=
  if r + 1 < g.size then r + 1 else 0

/-- The chunks of a batch, as slices of its bytes. -/
def unpackBytes (m : Metadata) (bytes : List β) : List (Yielded β) :=
  (List.range m.count).map fun j =>
    { file := (m.rows j).file
      chunk := (m.rows j).chunk
      bytes := (bytes.drop (m.rows j).offset).take (m.rows j).size }

/-- A rank has broadcast all that it has for this round. -/
def Script.passed (g : Group) (sc : Script β) (r : Nat) : Script β :=
  { sc with
    cursor := .metadata (nextRank g r)
    rounds := if r + 1 < g.size then sc.rounds else sc.rounds ++ [sc.count] }

/-- A batch was announced. -/
def Script.announced (sc : Script β) (r : Nat) (m : Metadata) : Script β :=
  { sc with
    count := sc.count + m.count
    round := (if r = 0 then 0 else sc.round) + m.count }

/-- One more tensor. -/
def Script.add (g : Group) (sc : Script β) (msg : Message β) : Script β :=
  match sc.cursor, msg.tensor with
  | .metadata r, .metadata m =>
      if m.count = 0 then (sc.announced r m).passed g r
      else { sc.announced r m with cursor := .data r m }
  | .data r m, .data bytes =>
      { sc with batches := sc.batches ++ [(r, unpackBytes m bytes)] }.passed g r
  | _, _ => sc

/-- What every rank has yielded by then. -/
def Script.yields (sc : Script β) : List (Yielded β) :=
  sc.batches.flatMap Prod.snd

/-- What one rank has sent. -/
def Script.sent (sc : Script β) (r : Nat) : List (Yielded β) :=
  (sc.batches.filter fun batch => batch.1 = r).flatMap Prod.snd

/-- The chunks that were announced and not sent yet. -/
def Cursor.announced : Cursor → Nat
  | .metadata _ => 0
  | .data _ m => m.count

/-- The tensors that the protocol broadcasts next.  The length of the share of a rank is a
parameter. -/
def Allowed (g : Group) (length : Nat → Nat) (sc : Script β) (msg : Message β) : Prop :=
  match sc.cursor, msg.tensor with
  | .metadata r, .metadata m =>
      msg.source = r ∧ RowsOk g.bufferBytesize m.count (if m.count = 0 then 0 else m.lastEnd)
          m.rows ∧
        (m.count = 0 → (sc.sent r).length = length r) ∧
        (sc.sent r).length + m.count ≤ length r ∧ (r = 0 → sc.count < g.total)
  | .data r m, .data bytes => msg.source = r ∧ bytes.length = m.lastEnd
  | _, _ => False

/-! ## What the script keeps -/

/-- The ranks that have broadcast in the round that is going on or has just ended. -/
def Script.passedRanks (g : Group) (sc : Script β) : Nat :=
  match sc.cursor with
  | .metadata 0 => if sc.rounds = [] then 0 else g.size
  | .metadata r => r
  | .data r _ => r

/-- What holds after every broadcast. -/
structure ScriptInv (g : Group) (length : Nat → Nat) (sc : Script β) : Prop where
  metadata_lt : ∀ r, sc.cursor = .metadata r → r < g.size
  data_ok : ∀ r m, sc.cursor = .data r m → r < g.size ∧ 0 < m.count ∧ 0 < sc.round ∧
    RowsOk g.bufferBytesize m.count m.lastEnd m.rows ∧ (sc.sent r).length + m.count ≤ length r
  count_eq : sc.count = sc.yields.length + sc.cursor.announced
  sources : ∀ batch ∈ sc.batches, batch.1 < g.size
  sent_le : ∀ r, (sc.sent r).length ≤ length r
  /-- A rank that announced nothing has nothing left. -/
  complete : sc.round = 0 → ∀ r < sc.passedRanks g, (sc.sent r).length = length r

@[simp]
theorem length_unpackBytes {m : Metadata} {bytes : List β} :
    (unpackBytes m bytes).length = m.count := by
  simp [unpackBytes]

/-- The sender yields the slices of what it broadcasts. -/
theorem unpackBytes_readAt {m : Metadata} {limit dataSize : Nat} {buffer : Nat → β}
    (hrows : RowsOk limit m.count dataSize m.rows) :
    unpackBytes m (readAt buffer 0 dataSize) = unpack m.count m.rows buffer := by
  apply List.map_congr_left
  intro j hj
  unfold MetaRow.read
  rw [slice_readAt (hrows.inside j (List.mem_range.1 hj))]

/-- Another rank yields the slices of what it received. -/
theorem unpack_writeAt {m : Metadata} {limit : Nat} {buffer : Nat → β} {bytes : List β}
    (hrows : RowsOk limit m.count bytes.length m.rows) :
    unpack m.count m.rows (writeAt buffer 0 bytes) = unpackBytes m bytes := by
  apply List.map_congr_left
  intro j hj
  have hinside := hrows.inside j (List.mem_range.1 hj)
  have hread : readAt (writeAt buffer 0 bytes) (0 + (m.rows j).offset) (m.rows j).size =
      (bytes.drop (m.rows j).offset).take (m.rows j).size :=
    readAt_writeAt_inside hinside
  rw [Nat.zero_add] at hread
  unfold MetaRow.read
  rw [hread]

theorem nextRank_lt {g : Group} (hsize : 0 < g.size) (r : Nat) : nextRank g r < g.size := by
  unfold nextRank
  split
  · assumption
  · exact hsize

/-- Every tensor only adds to what was yielded. -/
theorem yields_prefix_add (g : Group) (sc : Script β) (msg : Message β) :
    sc.yields <+: (sc.add g msg).yields := by
  unfold Script.add
  split
  · split
    · exact List.prefix_refl _
    · exact List.prefix_refl _
  · unfold Script.yields Script.passed
    rw [List.flatMap_append]
    exact List.prefix_append _ _
  · exact List.prefix_refl _

/-- Every tensor only adds to the rounds. -/
theorem rounds_prefix_add (g : Group) (sc : Script β) (msg : Message β) :
    sc.rounds <+: (sc.add g msg).rounds := by
  have hpassed : ∀ (other : Script β) (r : Nat),
      other.rounds <+: (other.passed g r).rounds := by
    intro other r
    unfold Script.passed
    dsimp only
    split
    · exact List.prefix_refl _
    · exact List.prefix_append _ _
  unfold Script.add
  split
  · split
    · exact hpassed (sc.announced _ _) _
    · exact List.prefix_refl _
  · exact hpassed { sc with batches := _ } _
  · exact List.prefix_refl _

section Keeps

variable {g : Group} {length : Nat → Nat} {sc : Script β}

@[simp]
theorem passed_sent (r s : Nat) : (sc.passed g r).sent s = sc.sent s :=
  rfl

@[simp]
theorem announced_sent (r s : Nat) (m : Metadata) : (sc.announced r m).sent s = sc.sent s :=
  rfl

/-- A batch is sent by its rank only. -/
theorem sent_concat (r s : Nat) (batch : List (Yielded β)) :
    ({ sc with batches := sc.batches ++ [(r, batch)] } : Script β).sent s =
      sc.sent s ++ (if r = s then batch else []) := by
  unfold Script.sent
  rw [List.filter_append, List.flatMap_append]
  congr 1
  by_cases hrs : r = s
  · simp [hrs]
  · simp [hrs]

/-- The ranks up to one have passed once it has. -/
theorem passedRanks_passed {r s : Nat} (hs : s < (sc.passed g r).passedRanks g)
    (hr : r < g.size) : s ≤ r := by
  unfold Script.passedRanks Script.passed nextRank at hs
  by_cases hlast : r + 1 < g.size
  · simp only [hlast, if_true] at hs
    omega
  · simp only [hlast, if_false] at hs
    split at hs
    · omega
    · omega

theorem scriptInv_start (hsize : 0 < g.size) : ScriptInv g length (Script.start β) := by
  refine ⟨?_, nofun, rfl, nofun, fun _ => Nat.zero_le _, ?_⟩
  · intro r hr
    cases hr
    exact hsize
  · intro _ r hr
    exact absurd hr (Nat.not_lt_zero r)

/-- Every broadcast of the protocol keeps what holds. -/
theorem ScriptInv.add (h : ScriptInv g length sc) {msg : Message β}
    (hmsg : Allowed g length sc msg) : ScriptInv g length (sc.add g msg) := by
  unfold Allowed at hmsg
  unfold Script.add
  split at hmsg
  · rename_i r m hcursor htensor
    rcases hmsg with ⟨-, hrows, hnone, hle, -⟩
    have hr := h.metadata_lt r hcursor
    have hsize : 0 < g.size := by omega
    have hcount := h.count_eq
    rw [hcursor] at hcount
    dsimp only
    split
    · rename_i hzero
      refine ⟨?_, nofun, ?_, h.sources, h.sent_le, ?_⟩
      · intro s hs
        cases hs
        exact nextRank_lt hsize r
      · change sc.count + m.count = sc.yields.length + 0
        rw [hzero, hcount]
        rfl
      · intro hround s hs
        have hsr := passedRanks_passed hs hr
        change (if r = 0 then 0 else sc.round) + m.count = 0 at hround
        rcases Nat.lt_or_eq_of_le hsr with hlt | rfl
        · rw [if_neg (by omega)] at hround
          apply h.complete (by omega) s
          unfold Script.passedRanks
          rw [hcursor]
          split
          · rename_i heq
            cases heq
            omega
          · rename_i heq
            cases heq
            exact hlt
          · rename_i heq
            cases heq
        · exact hnone hzero
    · rename_i hsome
      rw [if_neg hsome] at hrows
      refine ⟨nofun, ?_, ?_, h.sources, h.sent_le, ?_⟩
      · intro s m' hs
        cases hs
        refine ⟨hr, by omega, ?_, hrows, hle⟩
        change 0 < (if r = 0 then 0 else sc.round) + m.count
        omega
      · change sc.count + m.count = sc.yields.length + m.count
        rw [hcount]
        rfl
      · intro hround
        change (if r = 0 then 0 else sc.round) + m.count = 0 at hround
        omega
  · rename_i r m bytes hcursor htensor
    rcases h.data_ok r m hcursor with ⟨hr, hpos, hround, hrows, hle⟩
    have hsize : 0 < g.size := by omega
    have hcount := h.count_eq
    rw [hcursor] at hcount
    refine ⟨?_, nofun, ?_, ?_, ?_, ?_⟩
    · intro s hs
      cases hs
      exact nextRank_lt hsize r
    · change sc.count = ((sc.batches ++ [(r, unpackBytes m bytes)]).flatMap Prod.snd).length
      rw [List.flatMap_append, List.length_append, hcount]
      simp [Script.yields, Cursor.announced]
    · intro batch hbatch
      rcases List.mem_append.1 hbatch with hbatch | hbatch
      · exact h.sources batch hbatch
      · rw [List.mem_singleton.1 hbatch]
        exact hr
    · intro s
      rw [passed_sent, sent_concat]
      split
      · rename_i hrs
        subst hrs
        rw [List.length_append, length_unpackBytes]
        exact hle
      · rw [List.append_nil]
        exact h.sent_le s
    · intro hzero
      change sc.round = 0 at hzero
      omega
  · exact hmsg.elim

/-- Everything that was yielded was sent by some rank. -/
theorem ScriptInv.yields_perm (h : ScriptInv g length sc) :
    ((List.range g.size).flatMap sc.sent).Perm sc.yields := by
  have hbuckets := flatMap_buckets_perm (fun batch : Nat × List (Yielded β) => batch.1)
    sc.batches g.size
  have hall : (sc.batches.filter fun batch => batch.1 < g.size) = sc.batches :=
    List.filter_eq_self.2 fun batch hbatch => decide_eq_true (h.sources batch hbatch)
  rw [hall] at hbuckets
  have hflat := hbuckets.flatMap_right Prod.snd
  rw [List.flatMap_assoc] at hflat
  exact hflat

/-- What was yielded is what the ranks have sent together. -/
theorem ScriptInv.length_yields (h : ScriptInv g length sc) :
    sc.yields.length = ((List.range g.size).map fun r => (sc.sent r).length).sum := by
  rw [← h.yields_perm.length_eq, List.length_flatMap]

/-- When one summand leaves room, so does the sum. -/
theorem sum_range_add_le {f h : Nat → Nat} {n r extra : Nat} (hr : r < n) (hle : ∀ i, f i ≤ h i)
    (hextra : f r + extra ≤ h r) :
    ((List.range n).map f).sum + extra ≤ ((List.range n).map h).sum := by
  induction n with
  | zero => exact absurd hr (Nat.not_lt_zero r)
  | succ n ih =>
      rw [List.sum_range_succ, List.sum_range_succ]
      rcases Nat.lt_or_eq_of_le (Nat.lt_succ_iff.1 hr) with hlt | rfl
      · have hrest := ih hlt
        have hlast := hle n
        omega
      · have hrest : ((List.range r).map f).sum ≤ ((List.range r).map h).sum :=
          List.sum_le_sum fun i _ => hle i
        omega

/-- No more chunks are announced than there are. -/
theorem ScriptInv.count_le_total (h : ScriptInv g length sc)
    (htotal : g.total = ((List.range g.size).map length).sum) : sc.count ≤ g.total := by
  rw [h.count_eq, h.length_yields, htotal]
  cases hcursor : sc.cursor with
  | metadata r => exact List.sum_le_sum fun r _ => h.sent_le r
  | data r m =>
      rcases h.data_ok r m hcursor with ⟨hr, -, -, -, hle⟩
      exact sum_range_add_le hr h.sent_le hle

/-- When all ranks have sent their shares, all chunks were announced. -/
theorem ScriptInv.count_of_complete (h : ScriptInv g length sc)
    (htotal : g.total = ((List.range g.size).map length).sum) {r : Nat}
    (hcursor : sc.cursor = .metadata r)
    (hcomplete : ∀ r < g.size, (sc.sent r).length = length r) : sc.count = g.total := by
  have hcount := h.count_eq
  rw [hcursor, h.length_yields] at hcount
  rw [hcount, htotal]
  change _ + 0 = _
  rw [Nat.add_zero]
  congr 1
  apply List.map_congr_left
  intro r hr
  exact hcomplete r (List.mem_range.1 hr)

/-- When all chunks were announced and no batch is on its way, all ranks have sent theirs. -/
theorem ScriptInv.complete_of_count (h : ScriptInv g length sc)
    (htotal : g.total = ((List.range g.size).map length).sum) {r : Nat}
    (hcursor : sc.cursor = .metadata r) (hall : sc.count = g.total) {i : Nat} (hi : i < g.size) :
    (sc.sent i).length = length i := by
  have hcount := h.count_eq
  rw [hcursor, h.length_yields] at hcount
  change _ = _ + 0 at hcount
  have hle := h.sent_le i
  by_contra hne
  have hroom : (sc.sent i).length + 1 ≤ length i := by omega
  have hmore : ((List.range g.size).map fun r => (sc.sent r).length).sum + 1 ≤
      ((List.range g.size).map length).sum :=
    sum_range_add_le hi h.sent_le hroom
  omega

/-- A round without chunks means that all were sent. -/
theorem ScriptInv.count_eq_total (h : ScriptInv g length sc)
    (htotal : g.total = ((List.range g.size).map length).sum)
    (hcursor : sc.cursor = .metadata 0) (hrounds : sc.rounds ≠ []) (hround : sc.round = 0) :
    sc.count = g.total := by
  apply h.count_of_complete htotal hcursor
  intro r hr
  apply h.complete hround r
  unfold Script.passedRanks
  rw [hcursor]
  simp only [hrounds, if_false]
  exact hr

end Keeps

end Broadcast
end Distributed
end ModelStreamer
