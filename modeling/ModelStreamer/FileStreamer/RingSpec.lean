import ModelStreamer.FileStreamer.Pipeline
import ModelStreamer.FileStreamer.RequestsSpec

/-!
# What the ring and the yield order do

Main results:

- Theorem {lit}`ordinals_allRanges`: the ordinals number the ranges of the files in list order.
- Theorem {lit}`takeReady_spec`: what is handed over is the run of parked payloads from the next
  ordinal on, in order, and it leaves the first one that is missing.
- Theorem {lit}`sweep_spec`: a sweep frees the oldest pending slots and only those whose event
  has completed.
- Theorem {lit}`destinations_spec`: the ranges of a request that fits the buffer get addresses
  inside their slot.
-/

namespace ModelStreamer
namespace FileStreamer

open Distributed Lib

/-! ## Ordinals -/

/-- The file and the index of a range. -/
def RangeInfo.key (range : RangeInfo) : Int × Nat :=
  (range.fileId, range.index)

/-- The file and the index of a payload. -/
def Payload.key (payload : Payload) : Int × Nat :=
  (payload.fileId, payload.rangeIndex)

/-- The ordinal of a key, by the table of first ordinals. -/
def ordinalOf (firstOrdinal : List (Int × Nat)) (key : Int × Nat) : Option Nat :=
  (firstOrdinal.lookup key.1).map (· + key.2)

/-- A key of the front of a table is found there. -/
theorem lookup_append_of_isSome {xs ys : List (Int × Nat)} {id : Int}
    (h : (xs.lookup id).isSome = true) : (xs ++ ys).lookup id = xs.lookup id := by
  rw [List.lookup_append]
  obtain ⟨v, hv⟩ := Option.isSome_iff_exists.1 h
  rw [hv]
  rfl

/-- A key that is missing from the front of a table is found at its end. -/
theorem lookup_concat_self {xs : List (Int × Nat)} {id : Int} {n : Nat}
    (h : (xs.lookup id).isSome = false) : (xs ++ [(id, n)]).lookup id = some n := by
  rw [List.lookup_append, Option.isSome_eq_false_iff.1 h |> Option.isNone_iff_eq_none.1]
  simp

/-- Ordinals of files that follow others. -/
theorem firstOrdinals_spec {files : List FileChunks} {n : Nat} {ordinals : List (Int × Nat)}
    (hids : (files.map FileChunks.id).Nodup)
    (hnew : ∀ file ∈ files, (ordinals.lookup file.id).isSome = false) :
    ∃ table, firstOrdinals n ordinals files = .ok table ∧
      (∀ id, (ordinals.lookup id).isSome = true → table.lookup id = ordinals.lookup id) ∧
      (allRanges files).map (fun range => ordinalOf table range.key) =
        (List.range' n (allRanges files).length).map some := by
  induction files generalizing n ordinals with
  | nil => exact ⟨ordinals, rfl, fun _ _ => rfl, rfl⟩
  | cons file files ih =>
      rw [List.map_cons, List.nodup_cons] at hids
      have hself := hnew file List.mem_cons_self
      have hnext : ∀ other ∈ files,
          ((ordinals ++ [(file.id, n)]).lookup other.id).isSome = false := by
        intro other hother
        have hne : other.id ≠ file.id := fun heq =>
          hids.1 (heq ▸ List.mem_map.2 ⟨other, hother, rfl⟩)
        have hold := hnew other (List.mem_cons_of_mem _ hother)
        rw [List.lookup_append, Option.isNone_iff_eq_none.1 (Option.isSome_eq_false_iff.1 hold)]
        have hbeq : (other.id == file.id) = false := by simpa using hne
        simp [List.lookup_cons, hbeq]
      obtain ⟨table, htable, hkeep, hmap⟩ := @ih (n + file.sizes.length)
        (ordinals ++ [(file.id, n)]) hids.2 hnext
      refine ⟨table, ?_, ?_, ?_⟩
      · rw [firstOrdinals, if_neg (by simp [hself])]
        exact htable
      · intro id hid
        have hsome := @lookup_append_of_isSome _ [(file.id, n)] _ hid
        rw [hkeep id (by rw [hsome]; exact hid), hsome]
      · have hfile : table.lookup file.id = some n := by
          have hconcat := lookup_concat_self (n := n) hself
          rw [hkeep file.id (by rw [hconcat]; rfl), hconcat]
        have hhead : (locate file.id 0 (file.offsets.zip file.sizes)).map
            (fun range => ordinalOf table range.key) =
              (List.range' n file.sizes.length).map some := by
          rw [locate_eq_range, List.map_map, List.range'_eq_map_range, List.map_map]
          apply List.map_congr_left
          intro r _
          simp [ordinalOf, RangeInfo.key, hfile]
        have hall : allRanges (file :: files) =
            locate file.id 0 (file.offsets.zip file.sizes) ++ allRanges files := rfl
        rw [hall, List.map_append, hhead, hmap, List.length_append, length_locate, length_zip,
          ← List.map_append, List.range'_append_1]

/-- The ordinals number the ranges of the files in list order. -/
theorem ordinals_allRanges {files : List FileChunks} (hids : (files.map FileChunks.id).Nodup) :
    ∃ table, firstOrdinals 0 [] files = .ok table ∧
      (allRanges files).map (fun range => ordinalOf table range.key) =
        (List.range (allRanges files).length).map some := by
  obtain ⟨table, htable, -, hmap⟩ := @firstOrdinals_spec files 0 [] hids (fun _ _ => rfl)
  exact ⟨table, htable, by rw [hmap, List.range_eq_range']⟩

/-! ## Parked payloads -/

/-- The payloads of a table. -/
def parkedPayloads (parked : Table Payload) : List Payload :=
  parked.map Prod.snd

/-- What is left parked was parked, and what is handed over is the run from the next ordinal on. -/
structure TakesReady (next : Nat) (parked : Table Payload)
    (result : List Payload × Nat × Table Payload) : Prop where
  next_eq : result.2.1 = next + result.1.length
  keys_nodup : result.2.2.keys.Nodup
  missing : result.2.1 ∉ result.2.2.keys
  perm : (result.1 ++ parkedPayloads result.2.2).Perm (parkedPayloads parked)
  run : ∀ (i : Nat) (payload : Payload), result.1[i]? = some payload →
    (next + i, payload) ∈ parked
  kept : ∀ entry ∈ result.2.2, entry ∈ parked

/-- The loop of {lit}`arrived` takes the whole run. -/
theorem takeReady_spec {turns next : Nat} {parked : Table Payload} (hnodup : parked.keys.Nodup)
    (hturns : parked.length ≤ turns) :
    TakesReady next parked (takeReady turns next parked) := by
  induction turns generalizing next parked with
  | zero =>
      have hnil : parked = [] := List.eq_nil_of_length_eq_zero (Nat.le_zero.1 hturns)
      subst hnil
      exact ⟨rfl, List.nodup_nil, List.not_mem_nil, List.Perm.refl _,
        fun i payload h => by simp [takeReady] at h, fun entry h => h⟩
  | succ turns ih =>
      unfold takeReady
      cases hlookup : parked.lookup next with
      | none =>
          exact ⟨rfl, hnodup, Table.lookup_eq_none_iff.1 hlookup, List.Perm.refl _,
            fun i payload h => by simp at h, fun entry h => h⟩
      | some payload =>
          have hperm := Table.perm_remove hnodup hlookup
          have hlength : (parked.remove next).length ≤ turns := by
            have heq := hperm.length_eq
            rw [List.length_cons] at heq
            omega
          have hrec := @ih (next + 1) (parked.remove next)
            (Table.nodup_keys_remove hnodup next) hlength
          refine ⟨?_, hrec.keys_nodup, hrec.missing, ?_, ?_, ?_⟩
          · change (takeReady turns (next + 1) (parked.remove next)).2.1 =
              next + ((takeReady turns (next + 1) (parked.remove next)).1.length + 1)
            rw [hrec.next_eq]
            omega
          · exact (hrec.perm.cons payload).trans (hperm.map Prod.snd).symm
          · intro i other hother
            cases i with
            | zero =>
                simp only [List.getElem?_cons_zero, Option.some.injEq] at hother
                rw [← hother]
                exact Table.mem_of_lookup hlookup
            | succ i =>
                have hmem := hrec.run i other hother
                rw [show next + 1 + i = next + (i + 1) by omega] at hmem
                exact hperm.mem_iff.2 (List.mem_cons_of_mem _ hmem)
          · intro entry hentry
            exact hperm.mem_iff.2 (List.mem_cons_of_mem _ (hrec.kept entry hentry))

/-! ## The pool -/

/-- The slots that are not under a live request. -/
def SlotPool.idle (pool : SlotPool) : List Nat :=
  pool.free ++ pool.pending.map Prod.fst

/-- A sweep frees the oldest pending slots, if their events have completed. -/
theorem sweep_spec (completed free : List Nat) (pending : List (Nat × Nat)) :
    (sweep completed free pending).1 ++ (sweep completed free pending).2.map Prod.fst =
        free ++ pending.map Prod.fst ∧
      (∃ freed, pending = freed ++ (sweep completed free pending).2 ∧
        (sweep completed free pending).1 = free ++ freed.map Prod.fst ∧
        ∀ entry ∈ freed, entry.2 ∈ completed) ∧
      ∀ entry ∈ (sweep completed free pending).2.head?, entry.2 ∉ completed := by
  induction pending generalizing free with
  | nil => exact ⟨rfl, ⟨[], rfl, by simp [sweep], by simp⟩, by simp [sweep]⟩
  | cons entry pending ih =>
      obtain ⟨index, event⟩ := entry
      by_cases hevent : event ∈ completed
      · obtain ⟨hidle, ⟨freed, hpending, hfree, hdone⟩, hhead⟩ := ih (free ++ [index])
        simp only [sweep, if_pos hevent]
        refine ⟨by rw [hidle]; simp, ⟨(index, event) :: freed, ?_, ?_, ?_⟩, hhead⟩
        · rw [List.cons_append, ← hpending]
        · rw [hfree]
          simp
        · intro other hother
          cases List.mem_cons.1 hother with
          | inl heq =>
              rw [heq]
              exact hevent
          | inr hmem => exact hdone other hmem
      · simp only [sweep, if_neg hevent]
        refine ⟨trivial, ⟨[], rfl, by simp, by simp⟩, ?_⟩
        intro other hother
        simp only [List.head?_cons, Option.mem_def, Option.some.injEq] at hother
        rw [← hother]
        exact hevent

/-- A sweep changes neither the slots nor who is idle. -/
theorem sweepPending_spec (pool : SlotPool) (completed : List Nat) :
    (pool.sweepPending completed).idle = pool.idle ∧
      (pool.sweepPending completed).slots = pool.slots ∧
      (pool.sweepPending completed).owned = pool.owned ∧
      (∀ entry ∈ (pool.sweepPending completed).pending, entry ∈ pool.pending) ∧
      (∀ entry ∈ pool.pending, entry.2 ∈ completed ∨
        entry ∈ (pool.sweepPending completed).pending) ∧
      (pool.free ≠ [] → (pool.sweepPending completed).free ≠ []) := by
  obtain ⟨hidle, ⟨freed, hpending, hfree, hdone⟩, -⟩ :=
    sweep_spec completed pool.free pool.pending
  refine ⟨hidle, rfl, rfl, ?_, ?_, ?_⟩
  · intro entry hentry
    rw [hpending]
    exact List.mem_append_right _ hentry
  · intro entry hentry
    rw [hpending] at hentry
    cases List.mem_append.1 hentry with
    | inl hfreed => exact .inl (hdone entry hfreed)
    | inr hkept => exact .inr hkept
  · intro hne hnil
    change (sweep completed pool.free pool.pending).1 = [] at hnil
    rw [hfree] at hnil
    exact hne (List.append_eq_nil_iff.1 hnil).1

/-! ## Destinations -/

/-- Every range of a request has an address inside the slot. -/
def Placed (slot : Slot) (request : FilesRequest) : Prop :=
  request.rangeDsts.length = request.numRanges ∧
    ∀ (p : Nat) (dst : Nat) (range : RangeInfo), request.rangeDsts[p]? = some dst →
      request.located[p]? = some range →
      slot.address ≤ dst ∧ dst + range.size ≤ slot.address + slot.length

/-- A request that fits the buffer gets addresses inside its slot. -/
theorem destinations_spec (ring : Ring) {request : FilesRequest} (hrequest : RequestOk request)
    (hfits : totalBytes request.located ≤ ring.bufferSize) (base : Nat) :
    ∃ dsts, ring.destinations request base = some dsts ∧
      Placed ⟨base, ring.slotSize⟩ { request with rangeDsts := dsts } := by
  have hsize : ring.bufferSize ≤ ring.slotSize := Nat.le_add_right _ _
  have hsum : (request.ranges.map Prod.snd).sum = totalBytes request.located := by
    rw [ranges_eq hrequest, List.map_map]
    rfl
  have hplaced : ∀ aligned dsts, ring.place request base aligned = some dsts →
      Placed ⟨base, ring.slotSize⟩ { request with rangeDsts := dsts } := by
    intro aligned dsts hdsts
    obtain ⟨hlength, hplaces⟩ := placeRanges_spec hdsts
    refine ⟨?_, fun p dst range hdst hrange => ?_⟩
    · change dsts.length = request.numRanges
      rw [hlength, ranges_eq hrequest, List.length_map, length_located hrequest]
    · apply hplaces p dst (range.offset, range.size) hdst
      rw [ranges_eq hrequest, List.getElem?_map, show request.located[p]? = some range from hrange]
      rfl
  obtain ⟨tight, htight⟩ := @placeRanges_tight ring.directBlock (base + ring.slotSize) base
    request.ranges (by rw [hsum]; omega)
  unfold Ring.destinations
  cases hplace : ring.place request base ring.kind.directIo with
  | some dsts => exact ⟨dsts, rfl, hplaced _ dsts hplace⟩
  | none =>
      cases hdirect : ring.kind.directIo with
      | true => exact ⟨tight, htight, hplaced false tight htight⟩
      | false =>
          rw [hdirect] at hplace
          rw [show ring.place request base false = some tight from htight] at hplace
          cases hplace

end FileStreamer
end ModelStreamer
