import Mathlib.Data.List.TakeWhile
import ModelStreamer.Distributed.Partition

/-!
# Shares cover the request

Under every policy each chunk of the request is in one entry of one share, and the source map
of that entry leads back to it.  A rank that computes only its own share finds the share that
it has in the partition of all ranks.

Main results:

- Theorem {lit}`partition_exact_cover`: the shares of all ranks, and what each rank computes
  alone.
-/

namespace ModelStreamer
namespace Distributed

open Lib

/-! ## Units of shares -/

/-- The units that an entry reads, according to its source map. -/
def entryUnits (entry : Entry) : List WorkUnit :=
  (entry.1.offsets.zip entry.2).map fun (offset, source) =>
    { path := entry.1.path
      offset
      size := source.2.2
      originalRequestIndex := source.1
      originalChunkIndex := source.2.1 }

/-- The units of a share. -/
def shareUnits (share : Share) : List WorkUnit :=
  share.flatMap entryUnits

/-- The source map of an entry has the sizes of its file. -/
def WellMapped (entry : Entry) : Prop :=
  entry.2.map (fun source => source.2.2) = entry.1.sizes

/-- The entries of a share, without the ids of their files. -/
def withoutIds (share : Share) : List (String × List Nat × List Nat × List Source) :=
  share.map fun entry => (entry.1.path, entry.1.offsets, entry.1.sizes, entry.2)

/-- Every unit of a group has the path of the group. -/
def GroupsByPath (groups : List (String × List WorkUnit)) : Prop :=
  ∀ group ∈ groups, ∀ unit ∈ group.2, unit.path = group.1

/-- A new file reads the units it was made of. -/
theorem entryUnits_makeEntry {id : Int} {path : String} {units : List WorkUnit}
    (h : ∀ unit ∈ units, unit.path = path) : entryUnits (makeEntry id path units) = units := by
  unfold entryUnits makeEntry
  simp only [List.zip_map', List.map_map]
  conv_rhs => rw [← List.map_id units]
  refine List.map_congr_left fun unit hunit => ?_
  simp [WorkUnit.source, ← h unit hunit]

theorem wellMapped_makeEntry (id : Int) (path : String) (units : List WorkUnit) :
    WellMapped (makeEntry id path units) := by
  unfold WellMapped makeEntry
  simp only [List.map_map]
  rfl

section NumberEntries

variable {groups : List (String × List WorkUnit)}

/-- The entries of numbered groups read the units of the groups. -/
theorem shareUnits_numberEntries (h : GroupsByPath groups) (id : Int) :
    shareUnits (numberEntries id groups).1 = groups.flatMap Prod.snd := by
  induction groups generalizing id with
  | nil => rfl
  | cons group groups ih =>
      have hrest : GroupsByPath groups := fun g hg => h g (List.mem_cons_of_mem _ hg)
      have hhead := @entryUnits_makeEntry id _ _ (h group List.mem_cons_self)
      simp only [numberEntries, shareUnits, List.flatMap_cons, hhead]
      exact congrArg (group.2 ++ ·) (ih hrest (id + 1))

theorem wellMapped_numberEntries (id : Int) :
    ∀ entry ∈ (numberEntries id groups).1, WellMapped entry := by
  induction groups generalizing id with
  | nil => simp [numberEntries]
  | cons group groups ih =>
      intro entry hentry
      rcases List.mem_cons.1 hentry with rfl | hrest
      · exact wellMapped_makeEntry _ _ _
      · exact ih (id + 1) entry hrest

/-- The files of numbered groups are numbered upwards. -/
theorem ids_numberEntries (id : Int) :
    (∀ entry ∈ (numberEntries id groups).1, id ≤ entry.1.id) ∧
      ((numberEntries id groups).1.map fun entry => entry.1.id).Nodup := by
  induction groups generalizing id with
  | nil => simp [numberEntries]
  | cons group groups ih =>
      obtain ⟨hlow, hnodup⟩ := ih (id + 1)
      refine ⟨fun entry hentry => ?_, ?_⟩
      · rcases List.mem_cons.1 hentry with rfl | hrest
        · exact le_refl id
        · have hle := hlow entry hrest
          omega
      · refine List.nodup_cons.2 ⟨fun hmem => ?_, hnodup⟩
        obtain ⟨entry, hentry, heq⟩ := List.mem_map.1 hmem
        have hle := hlow entry hentry
        simp only [makeEntry] at heq
        omega

/-- The numbering only decides the ids. -/
theorem withoutIds_numberEntries (id id' : Int) :
    withoutIds (numberEntries id groups).1 = withoutIds (numberEntries id' groups).1 := by
  induction groups generalizing id id' with
  | nil => rfl
  | cons group groups ih =>
      simp only [numberEntries, withoutIds, List.map_cons]
      exact congrArg₂ List.cons rfl (ih (id + 1) (id' + 1))

/-- The files of numbered groups have the offsets of their groups. -/
theorem offsets_numberEntries (id : Int) {entry : Entry}
    (hentry : entry ∈ (numberEntries id groups).1) :
    ∃ group ∈ groups, entry.1.offsets = group.2.map WorkUnit.offset := by
  induction groups generalizing id with
  | nil => simp [numberEntries] at hentry
  | cons group groups ih =>
      rcases List.mem_cons.1 hentry with rfl | hrest
      · exact ⟨group, List.mem_cons_self, rfl⟩
      · obtain ⟨g, hg, heq⟩ := ih (id + 1) hrest
        exact ⟨g, List.mem_cons_of_mem _ hg, heq⟩

end NumberEntries

/-! ## Distributing -/

section Distribute

variable {α : Type*}

/-- There is an emptiest partition. -/
theorem emptiest_lt {partitionSizes : List Nat} (h : partitionSizes ≠ []) :
    emptiest partitionSizes < partitionSizes.length := by
  unfold emptiest
  obtain ⟨least, hleast⟩ := Option.isSome_iff_exists.1 (List.isSome_min?_of_ne_nil h)
  obtain ⟨hmem, hle⟩ := List.min?_eq_some_iff.1 hleast
  exact List.findIdx_lt_length_of_exists ⟨least, hmem, by simpa using hle⟩

/-- An item that was given to a partition is one item more. -/
theorem flatten_modify_perm {lists : List (List α)} {index : Nat} (item : α)
    (h : index < lists.length) :
    (lists.modify index (· ++ [item])).flatten.Perm (item :: lists.flatten) := by
  induction lists generalizing index with
  | nil => simp at h
  | cons list lists ih =>
      cases index with
      | zero =>
          simp only [List.modify_zero_cons, List.flatten_cons, List.append_assoc,
            List.singleton_append]
          exact List.perm_middle
      | succ index =>
          simp only [List.modify_succ_cons, List.flatten_cons]
          have hrest := @ih index (by simpa using h)
          exact (hrest.append_left list).trans List.perm_middle

/-- The items are distributed, each once. -/
theorem foldl_distributeOne {size : α → Nat} (items : List α) (lists : List (List α))
    (sizes : List Nat) (hsame : lists.length = sizes.length) (hpos : 0 < lists.length) :
    (items.foldl (distributeOne size) (lists, sizes)).1.length = lists.length ∧
      (items.foldl (distributeOne size) (lists, sizes)).1.flatten.Perm
        (lists.flatten ++ items) := by
  induction items generalizing lists sizes with
  | nil => simp
  | cons item items ih =>
      have hlt : emptiest sizes < lists.length := by
        rw [hsame]
        exact emptiest_lt (List.length_pos_iff.1 (hsame ▸ hpos))
      obtain ⟨hlength, hperm⟩ := ih (lists.modify (emptiest sizes) (· ++ [item]))
        (sizes.modify (emptiest sizes) (· + size item)) (by simpa using hsame)
        (by simpa using hpos)
      rw [List.foldl_cons]
      refine ⟨hlength.trans (List.length_modify _ _ _), hperm.trans ?_⟩
      refine ((flatten_modify_perm item hlt).append_right items).trans ?_
      exact (List.perm_middle).symm

/-- The partitions hold every item once. -/
theorem distribute_spec {size : α → Nat} {n : Nat} (hn : 0 < n) (items : List α) :
    (distribute size n items).length = n ∧ (distribute size n items).flatten.Perm items := by
  have hfold := @foldl_distributeOne _ size items (List.replicate n [])
    (List.replicate n 0) (by simp) (by simpa using hn)
  unfold distribute
  refine ⟨hfold.1.trans (List.length_replicate), ?_⟩
  have hempty : (List.replicate n ([] : List α)).flatten = [] := by simp
  rw [hempty, List.nil_append] at hfold
  exact hfold.2

end Distribute

/-! ## Units of the request -/

/-- The units of all files. -/
def allUnits (requests : List FileChunks) : List WorkUnit :=
  requests.flatMap FileChunks.units

/-- The units of a file, by their index. -/
theorem units_eq_map_unitAt (file : FileChunks) :
    file.units = (List.range file.sizes.length).map file.unitAt := by
  have hparallel := file.parallel
  apply List.ext_getElem?
  intro i
  rcases Nat.lt_or_ge i file.sizes.length with hlt | hge
  · have hlt' : i < file.offsets.length := by omega
    simp [FileChunks.units, FileChunks.unitAt, hlt, hlt', List.getD_eq_getElem?_getD]
  · simp [FileChunks.units, hge]

/-- A unit of a file is one of its ranges. -/
theorem mem_units_iff {file : FileChunks} {unit : WorkUnit} :
    unit ∈ file.units ↔ ∃ i < file.sizes.length, unit = file.unitAt i := by
  rw [units_eq_map_unitAt]
  simp [eq_comm]

/-- The stream of the spans policy has the units of the request. -/
theorem flatten_perm_allUnits (requests : List FileChunks) :
    (flatten requests).Perm (allUnits requests) := by
  unfold flatten allUnits
  induction requests with
  | nil => exact List.Perm.refl []
  | cons file requests ih =>
      simp only [List.flatMap_cons]
      refine List.Perm.append ?_ ih
      rw [units_eq_map_unitAt]
      exact (List.mergeSort_perm _ _).map _

/-! ## Exact covers -/

/-- Where the chunks of the shares come from. -/
def sourceKeys (shares : List Share) : List (Int × Nat) :=
  shares.flatten.flatMap fun entry => entry.2.map fun source => (source.1, source.2.1)

/-- Every chunk of the request is in one entry of one share, as the source maps say. -/
structure ExactCover (requests : List FileChunks) (shares : List Share) : Prop where
  once : ∀ request ∈ requests, ∀ i < request.sizes.length,
    (sourceKeys shares).count (request.id, i) = 1
  only : ∀ key ∈ sourceKeys shares,
    ∃ request ∈ requests, request.id = key.1 ∧ key.2 < request.sizes.length
  mapped : ∀ share ∈ shares, ∀ entry ∈ share, entry.2.length = entry.1.sizes.length ∧
    ∀ (j : Nat) (id : Int) (i size : Nat), entry.2[j]? = some (id, i, size) →
      entry.1.sizes[j]? = some size ∧
      ∃ request ∈ requests, request.id = id ∧ request.path = entry.1.path ∧
        request.sizes[i]? = some size ∧
        ∃ offset, request.offsets[i]? = some offset ∧ entry.1.offsets[j]? = some offset

section Cover

variable {requests : List FileChunks} {shares : List Share}

/-- The key of a unit. -/
def WorkUnit.key (unit : WorkUnit) : Int × Nat :=
  (unit.originalRequestIndex, unit.originalChunkIndex)

/-- The keys of the units of an entry are those of its source map. -/
theorem map_key_entryUnits {entry : Entry} (h : WellMapped entry) :
    (entryUnits entry).map WorkUnit.key =
      entry.2.map fun source => (source.1, source.2.1) := by
  have hlength : entry.2.length = entry.1.offsets.length := by
    have hmapped := congrArg List.length h
    rw [List.length_map] at hmapped
    rw [hmapped, entry.1.parallel]
  unfold entryUnits
  rw [List.map_map]
  have hsnd : (entry.1.offsets.zip entry.2).map Prod.snd = entry.2 :=
    List.map_snd_zip (by omega)
  conv_rhs => rw [← hsnd, List.map_map]
  rfl

/-- The keys of the request are distinct when its ids are. -/
theorem nodup_keys (hids : (requests.map FileChunks.id).Nodup) :
    ((allUnits requests).map WorkUnit.key).Nodup := by
  unfold allUnits
  rw [List.map_flatMap, List.nodup_flatMap]
  constructor
  · intro file _
    rw [units_eq_map_unitAt, List.map_map]
    refine List.nodup_range.map fun i j hij => ?_
    simpa [WorkUnit.key, FileChunks.unitAt] using hij
  · refine (List.pairwise_map.1 hids).imp fun {file other} hne => ?_
    intro key hkey hother
    simp only [units_eq_map_unitAt, List.map_map, List.mem_map, Function.comp_apply] at hkey hother
    obtain ⟨i, -, rfl⟩ := hkey
    obtain ⟨j, -, hj⟩ := hother
    exact hne (congrArg Prod.fst hj).symm

/-- Shares with the units of the request cover it exactly. -/
theorem exactCover_of_perm (hids : (requests.map FileChunks.id).Nodup)
    (hmapped : ∀ share ∈ shares, ∀ entry ∈ share, WellMapped entry)
    (hperm : (shares.flatMap shareUnits).Perm (allUnits requests)) :
    ExactCover requests shares := by
  have hmapped' : ∀ entry ∈ shares.flatten, WellMapped entry := by
    intro entry hentry
    obtain ⟨share, hshare, hmem⟩ := List.mem_flatten.1 hentry
    exact hmapped share hshare entry hmem
  have hkeys : sourceKeys shares = (shares.flatMap shareUnits).map WorkUnit.key := by
    have hunits : shares.flatMap shareUnits = shares.flatten.flatMap entryUnits := by
      rw [List.flatten_eq_flatMap, List.flatMap_assoc]
      rfl
    rw [hunits, List.map_flatMap]
    unfold sourceKeys
    refine List.flatMap_congr fun entry hentry => ?_
    exact (map_key_entryUnits (hmapped' entry hentry)).symm
  have hkeysPerm : (sourceKeys shares).Perm ((allUnits requests).map WorkUnit.key) := by
    rw [hkeys]
    exact hperm.map _
  have hmemKeys : ∀ {key}, key ∈ (allUnits requests).map WorkUnit.key ↔
      ∃ request ∈ requests, request.id = key.1 ∧ key.2 < request.sizes.length := by
    intro key
    simp only [allUnits, List.mem_map, List.mem_flatMap]
    constructor
    · rintro ⟨unit, ⟨request, hrequest, hunit⟩, rfl⟩
      obtain ⟨i, hi, rfl⟩ := mem_units_iff.1 hunit
      exact ⟨request, hrequest, rfl, hi⟩
    · rintro ⟨request, hrequest, hid, hi⟩
      refine ⟨request.unitAt key.2, ⟨request, hrequest, mem_units_iff.2 ⟨_, hi, rfl⟩⟩, ?_⟩
      exact Prod.ext hid rfl
  refine ⟨?_, ?_, ?_⟩
  · intro request hrequest i hi
    rw [hkeysPerm.count_eq]
    exact List.count_eq_one_of_mem (nodup_keys hids) (hmemKeys.2 ⟨request, hrequest, rfl, hi⟩)
  · intro key hkey
    exact hmemKeys.1 (hkeysPerm.mem_iff.1 hkey)
  · intro share hshare entry hentry
    have hwell := hmapped share hshare entry hentry
    have hlength : entry.2.length = entry.1.sizes.length := by
      have heq := congrArg List.length hwell
      rwa [List.length_map] at heq
    refine ⟨hlength, fun j id i size hj => ?_⟩
    have hsize : entry.1.sizes[j]? = some size := by
      rw [← hwell, List.getElem?_map, hj]
      rfl
    have hoffset : ∃ offset, entry.1.offsets[j]? = some offset := by
      have hlt := (List.getElem?_eq_some_iff.1 hj).1
      have hparallel := entry.1.parallel
      exact ⟨_, List.getElem?_eq_getElem (by omega)⟩
    obtain ⟨offset, hoffset⟩ := hoffset
    refine ⟨hsize, ?_⟩
    -- the unit at this position is a unit of the request
    have hunit : WorkUnit.mk entry.1.path offset size id i ∈ entryUnits entry := by
      refine List.mem_map.2 ⟨(offset, (id, i, size)), ?_, rfl⟩
      refine List.mem_of_getElem? (i := j) ?_
      rw [List.getElem?_zip_eq_some]
      exact ⟨hoffset, hj⟩
    have hall : WorkUnit.mk entry.1.path offset size id i ∈ allUnits requests := by
      refine hperm.mem_iff.1 (List.mem_flatMap.2 ⟨share, hshare, ?_⟩)
      exact List.mem_flatMap.2 ⟨entry, hentry, hunit⟩
    obtain ⟨request, hrequest, hmem⟩ := List.mem_flatMap.1 hall
    obtain ⟨k, hk, heq⟩ := mem_units_iff.1 hmem
    simp only [FileChunks.unitAt, WorkUnit.mk.injEq] at heq
    obtain ⟨hpath, hoff, hsz, hid, rfl⟩ := heq
    have hparallel := request.parallel
    refine ⟨request, hrequest, hid.symm, hpath.symm, ?_, offset, ?_, hoffset⟩
    · rw [hsz, List.getD_eq_getElem?_getD, List.getElem?_eq_getElem hk, Option.getD_some]
    · rw [hoff, List.getD_eq_getElem?_getD, List.getElem?_eq_getElem (by omega),
        Option.getD_some]

end Cover

/-- What each policy makes of a request for {lit}`n` ranks. -/
structure SharesOk (requests : List FileChunks) (n : Nat) (shares : List Share) : Prop where
  length_eq : shares.length = n
  mapped : ∀ share ∈ shares, ∀ entry ∈ share, WellMapped entry
  perm : (shares.flatMap shareUnits).Perm (allUnits requests)
  ids : ∀ share ∈ shares, (share.map fun entry => entry.1.id).Nodup

/-- Shares for a request without chunks. -/
theorem sharesOk_replicate {requests : List FileChunks} (n : Nat) (h : allUnits requests = []) :
    SharesOk requests n (List.replicate n []) := by
  have hnil : ∀ share ∈ List.replicate n ([] : Share), share = [] :=
    fun share hshare => List.eq_of_mem_replicate hshare
  refine ⟨List.length_replicate, fun share hshare entry hentry => ?_, ?_, fun share hshare => ?_⟩
  · rw [hnil share hshare] at hentry
    cases hentry
  · have hempty : (List.replicate n ([] : Share)).flatMap shareUnits = [] := by
      rw [List.flatMap_eq_nil_iff]
      intro share hshare
      rw [hnil share hshare]
      rfl
    rw [hempty, h]
  · rw [hnil share hshare]
    exact List.nodup_nil

/-! ## The chunks policy -/

/-- A unit is added to the group of its path. -/
theorem addToPath_spec {groups : List (String × List WorkUnit)} (unit : WorkUnit)
    (h : GroupsByPath groups) :
    GroupsByPath (addToPath groups unit) ∧
      ((addToPath groups unit).flatMap Prod.snd).Perm (unit :: groups.flatMap Prod.snd) := by
  induction groups with
  | nil => simp [addToPath, GroupsByPath]
  | cons group groups ih =>
      have hhead := h group List.mem_cons_self
      have hrest : GroupsByPath groups := fun g hg => h g (List.mem_cons_of_mem _ hg)
      unfold addToPath
      split
      · rename_i hpath
        constructor
        · intro g hg u hu
          rcases List.mem_cons.1 hg with rfl | hmem
          · rcases List.mem_append.1 hu with hold | hnew
            · exact hhead u hold
            · rw [List.mem_singleton.1 hnew, hpath]
          · exact hrest g hmem u hu
        · simp only [List.flatMap_cons, List.append_assoc, List.singleton_append]
          exact List.perm_middle
      · obtain ⟨hgroups, hperm⟩ := ih hrest
        constructor
        · intro g hg u hu
          rcases List.mem_cons.1 hg with rfl | hmem
          · exact hhead u hu
          · exact hgroups g hmem u hu
        · simp only [List.flatMap_cons]
          exact (hperm.append_left group.2).trans List.perm_middle

/-- The groups hold every unit once, under its path. -/
theorem unitsByPath_spec (units : List WorkUnit) :
    GroupsByPath (unitsByPath units) ∧
      ((unitsByPath units).flatMap Prod.snd).Perm units := by
  have hfold : ∀ (units : List WorkUnit) (groups : List (String × List WorkUnit)),
      GroupsByPath groups → GroupsByPath (units.foldl addToPath groups) ∧
        ((units.foldl addToPath groups).flatMap Prod.snd).Perm
          (groups.flatMap Prod.snd ++ units) := by
    intro units
    induction units with
    | nil => exact fun groups h => ⟨h, by simp⟩
    | cons unit units ih =>
        intro groups h
        obtain ⟨hgroups, hperm⟩ := addToPath_spec unit h
        obtain ⟨hfinal, hrest⟩ := ih (addToPath groups unit) hgroups
        refine ⟨hfinal, hrest.trans ?_⟩
        exact (hperm.append_right units).trans List.perm_middle.symm
  exact hfold units [] fun group hgroup => absurd hgroup (by simp)

/-- Offsets in file order do not go back. -/
theorem offset_le_of_byOffset {a b : Nat × Nat} (h : byOffset a b = true) : a.1 ≤ b.1 := by
  simp only [byOffset, Bool.or_eq_true, decide_eq_true_eq, Bool.and_eq_true] at h
  omega

theorem byOffset_trans (a b c : Nat × Nat) (hab : byOffset a b = true)
    (hbc : byOffset b c = true) : byOffset a c = true := by
  simp only [byOffset, Bool.or_eq_true, decide_eq_true_eq, Bool.and_eq_true] at *
  omega

theorem byOffset_total (a b : Nat × Nat) : (byOffset a b || byOffset b a) = true := by
  simp only [byOffset, Bool.or_eq_true, decide_eq_true_eq, Bool.and_eq_true]
  omega

/-- The groups of a partition hold its units in file order. -/
theorem sortedGroups_spec (units : List WorkUnit) :
    GroupsByPath (sortedGroups units) ∧
      ((sortedGroups units).flatMap Prod.snd).Perm units ∧
      ∀ group ∈ sortedGroups units, (group.2.map WorkUnit.offset).Pairwise (· ≤ ·) := by
  obtain ⟨hgroups, hperm⟩ := unitsByPath_spec units
  refine ⟨?_, ?_, ?_⟩
  · intro group hgroup unit hunit
    obtain ⟨g, hg, rfl⟩ := List.mem_map.1 hgroup
    exact hgroups g hg unit (List.mem_mergeSort.1 hunit)
  · refine List.Perm.trans ?_ hperm
    unfold sortedGroups
    rw [List.flatMap_map]
    exact List.Perm.flatMap_left _ fun group _ => List.mergeSort_perm _ _
  · intro group hgroup
    obtain ⟨g, hg, rfl⟩ := List.mem_map.1 hgroup
    have hsorted := @List.pairwise_mergeSort _
      (fun a b : WorkUnit => byOffset (a.offset, a.size) (b.offset, b.size))
      (fun a b c => byOffset_trans _ _ _) (fun a b => byOffset_total _ _) g.2
    exact List.pairwise_map.2 (hsorted.imp fun h => offset_le_of_byOffset h)

/-- The files of the partitions. -/
theorem reconstruct_spec (id : Int) (partitions : List (List WorkUnit)) :
    (reconstruct id partitions).length = partitions.length ∧
      ((reconstruct id partitions).flatMap shareUnits).Perm partitions.flatten ∧
      ∀ share ∈ reconstruct id partitions,
        (∀ entry ∈ share, WellMapped entry ∧ entry.1.offsets.Pairwise (· ≤ ·)) ∧
          (share.map fun entry => entry.1.id).Nodup := by
  induction partitions generalizing id with
  | nil => simp [reconstruct]
  | cons units partitions ih =>
      obtain ⟨hgroups, hperm, hsorted⟩ := sortedGroups_spec units
      obtain ⟨hlength, hrest, hshares⟩ := ih (numberEntries id (sortedGroups units)).2
      refine ⟨?_, ?_, ?_⟩
      · simp [reconstruct, hlength]
      · simp only [reconstruct, List.flatMap_cons, List.flatten_cons]
        rw [shareUnits_numberEntries hgroups]
        exact hperm.append hrest
      · intro share hshare
        rcases List.mem_cons.1 hshare with rfl | hmem
        · refine ⟨fun entry hentry => ⟨wellMapped_numberEntries id entry hentry, ?_⟩,
            (ids_numberEntries id).2⟩
          obtain ⟨group, hgroup, heq⟩ := offsets_numberEntries id hentry
          rw [heq]
          exact hsorted group hgroup
        · exact hshares share hmem

/-- The chunks policy. -/
theorem partitionByChunks_spec {requests : List FileChunks} {n : Nat} (hn : 0 < n) :
    ∃ shares, partitionByChunks requests n = .ok shares ∧ SharesOk requests n shares ∧
      ∀ share ∈ shares, ∀ entry ∈ share, entry.1.offsets.Pairwise (· ≤ ·) := by
  unfold partitionByChunks
  rw [if_neg (by omega)]
  by_cases hempty : requests = []
  · rw [if_pos hempty]
    refine ⟨_, rfl, sharesOk_replicate n (by rw [hempty]; rfl), fun share hshare entry hentry => ?_⟩
    rw [List.eq_of_mem_replicate hshare] at hentry
    cases hentry
  · rw [if_neg hempty]
    obtain ⟨hlength, hperm⟩ := @distribute_spec _ WorkUnit.size _ hn
      ((requests.flatMap FileChunks.units).mergeSort largerFirst)
    obtain ⟨hsame, hunits, hshares⟩ := reconstruct_spec 0
      (distribute WorkUnit.size n ((requests.flatMap FileChunks.units).mergeSort largerFirst))
    refine ⟨_, rfl, ?_, fun share hshare entry hentry => ((hshares share hshare).1 entry hentry).2⟩
    exact
      { length_eq := hsame.trans hlength
        mapped := fun share hshare entry hentry => ((hshares share hshare).1 entry hentry).1
        perm := hunits.trans (hperm.trans (List.mergeSort_perm _ _))
        ids := fun share hshare => (hshares share hshare).2 }

/-! ## The files policy -/

/-- A file that is taken whole reads its own units. -/
theorem entryUnits_sourceMap (file : FileChunks) :
    entryUnits (file, file.sourceMap) = file.units := by
  have hparallel := file.parallel
  rw [units_eq_map_unitAt]
  apply List.ext_getElem?
  intro i
  rcases Nat.lt_or_ge i file.sizes.length with hlt | hge
  · have hlt' : i < file.offsets.length := by omega
    simp [entryUnits, FileChunks.sourceMap, FileChunks.unitAt, hlt, hlt', List.zip_map_right,
      List.getD_eq_getElem?_getD]
  · simp [entryUnits, FileChunks.sourceMap, hge]

theorem wellMapped_sourceMap (file : FileChunks) : WellMapped (file, file.sourceMap) := by
  unfold WellMapped FileChunks.sourceMap
  rw [List.map_map]
  exact List.zipIdx_map_fst _ _

/-- The files policy. -/
theorem partitionByFiles_spec {requests : List FileChunks} {n : Nat} (hn : 0 < n)
    (hids : (requests.map FileChunks.id).Nodup) :
    ∃ shares, partitionByFiles requests n = .ok shares ∧ SharesOk requests n shares := by
  unfold partitionByFiles
  rw [if_neg (by omega)]
  by_cases hempty : requests = []
  · rw [if_pos hempty]
    exact ⟨_, rfl, sharesOk_replicate n (by rw [hempty]; rfl)⟩
  · rw [if_neg hempty]
    simp only
    generalize hsorted : requests.mergeSort (fun a b => b.totalSize ≤ a.totalSize) = sorted
    have hsortedPerm : sorted.Perm requests := hsorted ▸ List.mergeSort_perm _ _
    obtain ⟨hlength, hperm⟩ := @distribute_spec _ FileChunks.totalSize _ hn sorted
    generalize distribute FileChunks.totalSize n sorted = parts at hlength hperm
    refine ⟨_, rfl, ?_⟩
    exact
      { length_eq := by simpa using hlength
        mapped := fun share hshare entry hentry => by
          obtain ⟨files, -, rfl⟩ := List.mem_map.1 hshare
          obtain ⟨file, -, rfl⟩ := List.mem_map.1 hentry
          exact wellMapped_sourceMap file
        perm := by
          have hunits : (parts.map fun files => files.map fun file => (file, file.sourceMap)).flatMap
              shareUnits = parts.flatten.flatMap FileChunks.units := by
            rw [List.flatMap_map, List.flatten_eq_flatMap, List.flatMap_assoc]
            refine List.flatMap_congr fun files _ => ?_
            simp only [shareUnits, List.flatMap_map, entryUnits_sourceMap, id]
          rw [hunits]
          exact (hperm.trans hsortedPerm).flatMap_right _
        ids := fun share hshare => by
          obtain ⟨files, hfiles, rfl⟩ := List.mem_map.1 hshare
          -- the files of one rank are some of the files of the request
          have hall : (parts.flatten.map FileChunks.id).Nodup :=
            ((hperm.trans hsortedPerm).map _).nodup_iff.2 hids
          have hsub : (files.map FileChunks.id).Sublist (parts.flatten.map FileChunks.id) :=
            (List.sublist_flatten_of_mem hfiles).map _
          rw [List.map_map]
          exact hall.sublist hsub }

/-! ## The spans policy -/

/-- The runs of a span, one path each. -/
theorem pathRuns_spec (units : List WorkUnit) :
    GroupsByPath (pathRuns units) ∧ (pathRuns units).flatMap Prod.snd = units ∧
      ∀ group ∈ pathRuns units, group.2.Sublist units := by
  induction units using pathRuns.induct with
  | case1 => simp [pathRuns, GroupsByPath]
  | case2 unit units ih =>
      obtain ⟨hgroups, hflat, hsub⟩ := ih
      rw [pathRuns]
      refine ⟨?_, ?_, ?_⟩
      · intro group hgroup u hu
        rcases List.mem_cons.1 hgroup with rfl | hmem
        · rcases List.mem_cons.1 hu with rfl | hrun
          · rfl
          · simpa using List.mem_takeWhile_imp hrun
        · exact hgroups group hmem u hu
      · rw [List.flatMap_cons, hflat, List.cons_append, List.takeWhile_append_dropWhile]
      · intro group hgroup
        rcases List.mem_cons.1 hgroup with rfl | hmem
        · exact (List.takeWhile_sublist _).cons_cons unit
        · exact ((hsub group hmem).trans (List.dropWhile_sublist _)).cons unit

/-- The bytes of a share are those of its units. -/
theorem getTotalSizeOfPartition_eq {share : Share} (h : ∀ entry ∈ share, WellMapped entry) :
    getTotalSizeOfPartition share = ((shareUnits share).map WorkUnit.size).sum := by
  unfold getTotalSizeOfPartition shareUnits
  induction share with
  | nil => rfl
  | cons entry share ih =>
      have hentry := h entry List.mem_cons_self
      have hsizes : (entryUnits entry).map WorkUnit.size = entry.1.sizes := by
        have hlength : entry.2.length = entry.1.offsets.length := by
          have hmapped := congrArg List.length hentry
          rw [List.length_map] at hmapped
          rw [hmapped, entry.1.parallel]
        have hsnd : (entry.1.offsets.zip entry.2).map Prod.snd = entry.2 :=
          List.map_snd_zip (by omega)
        rw [← hentry]
        conv_rhs => rw [← hsnd, List.map_map]
        unfold entryUnits
        rw [List.map_map]
        rfl
      rw [List.map_cons, List.sum_cons, List.flatMap_cons, List.map_append, List.sum_append,
        hsizes, ih fun e he => h e (List.mem_cons_of_mem _ he)]
      rfl

/-- The chunks of all shares. -/
theorem getTotalNumberOfChunks_eq {shares : List Share}
    (h : ∀ share ∈ shares, ∀ entry ∈ share, WellMapped entry) :
    getTotalNumberOfChunks shares = (shares.flatMap shareUnits).length := by
  have hentry : ∀ entry : Entry, WellMapped entry →
      entry.1.sizes.length = (entryUnits entry).length := by
    intro entry hwell
    have hmapped := congrArg List.length hwell
    have hparallel := entry.1.parallel
    rw [List.length_map] at hmapped
    simp only [entryUnits, List.length_map, List.length_zip]
    omega
  unfold getTotalNumberOfChunks
  rw [List.length_flatMap]
  refine congrArg List.sum (List.map_congr_left fun share hshare => ?_)
  rw [shareUnits, List.length_flatMap]
  refine congrArg List.sum (List.map_congr_left fun entry hmem => ?_)
  exact hentry entry (h share hshare entry hmem)

/-- The units of the request, counted by file. -/
theorem length_allUnits (requests : List FileChunks) :
    (allUnits requests).length = (requests.map fun file => file.sizes.length).sum := by
  unfold allUnits
  rw [List.length_flatMap]
  refine congrArg List.sum (List.map_congr_left fun file _ => ?_)
  rw [units_eq_map_unitAt, List.length_map, List.length_range]

/-- The files of one span read its units. -/
theorem shareUnits_buildSpan (units : List WorkUnit) (start stop : Nat) (id : Int) :
    shareUnits (buildSpan units start stop id).1 = (units.drop start).take (stop - start) := by
  obtain ⟨hgroups, hflat, -⟩ := pathRuns_spec ((units.drop start).take (stop - start))
  rw [buildSpan, shareUnits_numberEntries hgroups, hflat]

/-- The shares of the spans are the slices of the stream. -/
theorem buildSpans_spec (units : List WorkUnit) (start : Nat) (ends : List Nat) (id : Int) :
    (buildSpans units start ends id).map shareUnits = slices units start ends ∧
      ∀ share ∈ buildSpans units start ends id, ∃ (low high : Nat) (first : Int),
        share = (buildSpan units low high first).1 := by
  induction ends generalizing start id with
  | nil => simp [buildSpans, slices]
  | cons stop stops ih =>
      obtain ⟨hunits, hshares⟩ := ih stop (buildSpan units start stop id).2
      refine ⟨?_, ?_⟩
      · simp only [buildSpans, List.map_cons, slices, shareUnits_buildSpan]
        rw [hunits]
      · intro share hshare
        rcases List.mem_cons.1 hshare with rfl | hmem
        · exact ⟨start, stop, id, rfl⟩
        · exact hshares share hmem

/-- What a rank builds for itself is its share of the whole, up to the ids. -/
theorem withoutIds_buildSpans {units : List WorkUnit} {start : Nat} {ends : List Nat} {id : Int}
    {rank : Nat} {share : Share} (h : (buildSpans units start ends id)[rank]? = some share) :
    withoutIds (buildSpan units (if 0 < rank then ends.getD (rank - 1) 0 else start)
      (ends.getD rank 0) 0).1 = withoutIds share := by
  induction ends generalizing start id rank with
  | nil => simp [buildSpans] at h
  | cons stop stops ih =>
      cases rank with
      | zero =>
          simp only [buildSpans, List.getElem?_cons_zero, Option.some.injEq] at h
          subst h
          simp only [Nat.lt_irrefl, if_false, List.getD_cons_zero]
          exact withoutIds_numberEntries 0 id
      | succ rank =>
          simp only [buildSpans, List.getElem?_cons_succ] at h
          have hrest := ih h
          simp only [Nat.succ_pos, if_true, Nat.add_sub_cancel, List.getD_cons_succ]
          cases rank with
          | zero => simpa using hrest
          | succ rank => simpa using hrest

/-- Positions that do not go back stay before the last one. -/
theorem le_of_isChain {start last : Nat} {ends : List Nat}
    (hchain : (start :: ends).IsChain (· ≤ ·)) (hlast : (start :: ends).getLast? = some last) :
    start ≤ last := by
  induction ends generalizing start with
  | nil =>
      simp only [List.getLast?_singleton, Option.some.injEq] at hlast
      exact hlast.le
  | cons stop stops ih =>
      obtain ⟨hle, hrest⟩ := List.isChain_cons_cons.1 hchain
      rw [List.getLast?_cons_cons] at hlast
      exact hle.trans (ih hrest hlast)

/-- The bytes between consecutive ends. -/
theorem sizesBetween_eq {units : List WorkUnit} {start : Nat} {ends : List Nat}
    (hchain : (start :: ends).IsChain (· ≤ ·))
    (hlast : (start :: ends).getLast? = some units.length) :
    sizesBetween (prefixSums (units.map WorkUnit.size)) start ends =
      (slices units start ends).map fun span => (span.map WorkUnit.size).sum := by
  induction ends generalizing start with
  | nil => rfl
  | cons stop stops ih =>
      obtain ⟨hle, hrest⟩ := List.isChain_cons_cons.1 hchain
      rw [List.getLast?_cons_cons] at hlast
      have hstop : stop ≤ units.length := le_of_isChain hrest hlast
      have hbytes : (prefixSums (units.map WorkUnit.size)).getD stop 0 -
          (prefixSums (units.map WorkUnit.size)).getD start 0 =
          (((units.drop start).take (stop - start)).map WorkUnit.size).sum := by
        rw [getD_prefixSums (by simpa using hstop), getD_prefixSums (by simpa using hle.trans hstop)]
        have hsplit := sum_take_add (units.map WorkUnit.size) start (stop - start)
        rw [Nat.add_sub_cancel' hle] at hsplit
        rw [hsplit, Nat.add_sub_cancel_left, List.map_take, List.map_drop]
      simp only [sizesBetween, slices, List.map_cons, hbytes]
      rw [ih hrest hlast]

/-- Units of one path come in the order of their offsets when each file has its own path. -/
theorem pairwise_flatten {requests : List FileChunks} (h : (requests.map FileChunks.path).Nodup) :
    (flatten requests).Pairwise fun a b => a.path = b.path → a.offset ≤ b.offset := by
  unfold flatten
  rw [List.pairwise_flatMap]
  constructor
  · intro file _
    have hsorted := @List.pairwise_mergeSort _
      (fun i j => byOffset (file.offsets.getD i 0, file.sizes.getD i 0)
        (file.offsets.getD j 0, file.sizes.getD j 0))
      (fun i j k => byOffset_trans _ _ _) (fun i j => byOffset_total _ _)
      (List.range file.sizes.length)
    refine List.pairwise_map.2 (hsorted.imp fun {i j} hle _ => ?_)
    exact offset_le_of_byOffset hle
  · refine (List.pairwise_map.1 h).imp fun {file other} hne => ?_
    intro a ha b hb hpath
    obtain ⟨i, -, rfl⟩ := List.mem_map.1 ha
    obtain ⟨j, -, rfl⟩ := List.mem_map.1 hb
    exact absurd hpath hne

/-- The files of a span are in order when each file has its own path. -/
theorem offsets_buildSpan {requests : List FileChunks}
    (h : (requests.map FileChunks.path).Nodup) (start stop : Nat) (id : Int) {entry : Entry}
    (hentry : entry ∈ (buildSpan (flatten requests) start stop id).1) :
    entry.1.offsets.Pairwise (· ≤ ·) := by
  obtain ⟨group, hgroup, heq⟩ := offsets_numberEntries id hentry
  obtain ⟨hgroups, -, hsub⟩ := pathRuns_spec (((flatten requests).drop start).take (stop - start))
  have hrun : group.2.Sublist (flatten requests) :=
    (hsub group hgroup).trans ((List.take_sublist _ _).trans (List.drop_sublist _ _))
  rw [heq, List.pairwise_map]
  refine ((pairwise_flatten h).sublist hrun).imp_of_mem fun {a b} ha hb hle => ?_
  exact hle ((hgroups group hgroup a ha).trans (hgroups group hgroup b hb).symm)

/-- The ends of the spans of a stream that is not empty. -/
theorem spanEnds_endsOk {units : List WorkUnit} {n : Nat} (hne : units ≠ []) (hn : 0 < n) :
    ∃ ends, spanEnds (units.map WorkUnit.size) n =
        (some ends, prefixSums (units.map WorkUnit.size)) ∧
      ends.length = n ∧ (0 :: ends).IsChain (· ≤ ·) ∧
      (0 :: ends).getLast? = some units.length := by
  have hsizes : units.map WorkUnit.size ≠ [] := by simpa using hne
  obtain ⟨ends, hends⟩ := Option.isSome_iff_exists.1 (spanCeiling_spec hsizes hn).1
  have hok := cutsFrom_endsOk (Nat.zero_le _) hends
  refine ⟨ends, by rw [spanEnds, hends], hok.length_eq, hok.chain, ?_⟩
  simpa using hok.last

/-- What every rank has to say about the share it computes alone. -/
def RankAgrees (requests : List FileChunks) (n : Nat) (shares : List Share) (rank : Nat)
    (result : Except PartitionError RankSpan) : Prop :=
  ∃ r share, result = .ok r ∧ shares[rank]? = some share ∧
    withoutIds r.partition = withoutIds share ∧
    (r.partition.map fun entry => entry.1.id).Nodup ∧
    r.sizesByRank = shares.map getTotalSizeOfPartition ∧ r.sizesByRank.length = n ∧
    r.totalChunks = (requests.map fun file => file.sizes.length).sum

/-- The spans policy, and the share of each rank. -/
theorem partitionBySpans_spec {requests : List FileChunks} {n : Nat} (hn : 0 < n) :
    ∃ shares, partitionBySpans requests n = .ok shares ∧ SharesOk requests n shares ∧
      ((requests.map FileChunks.path).Nodup →
        ∀ share ∈ shares, ∀ entry ∈ share, entry.1.offsets.Pairwise (· ≤ ·)) ∧
      ∀ rank < n, RankAgrees requests n shares rank (partitionSpanForRank requests n rank) := by
  unfold partitionBySpans partitionSpanForRank
  rw [if_neg (by omega)]
  -- a request without chunks
  have hreplicate : allUnits requests = [] →
      SharesOk requests n (List.replicate n []) ∧
      ((requests.map FileChunks.path).Nodup → ∀ share ∈ List.replicate n ([] : Share),
        ∀ entry ∈ share, entry.1.offsets.Pairwise (· ≤ ·)) ∧
      ∀ rank < n, RankAgrees requests n (List.replicate n []) rank
        (.ok { partition := [], sizesByRank := List.replicate n 0, totalChunks := 0 }) := by
    intro hnone
    refine ⟨sharesOk_replicate n hnone, fun _ share hshare entry hentry => ?_, fun rank hrank => ?_⟩
    · rw [List.eq_of_mem_replicate hshare] at hentry
      cases hentry
    · refine ⟨_, [], rfl, ?_, rfl, List.nodup_nil, ?_, List.length_replicate, ?_⟩
      · rw [List.getElem?_replicate, if_pos hrank]
      · rw [List.map_replicate]
        rfl
      · rw [← length_allUnits, hnone]
        rfl
  by_cases hempty : requests = []
  · rw [if_pos hempty]
    obtain ⟨hok, hsorted, hranks⟩ := hreplicate (by rw [hempty]; rfl)
    refine ⟨_, rfl, hok, hsorted, fun rank hrank => ?_⟩
    rw [if_neg (by omega), if_neg (by omega), if_pos hempty]
    exact hranks rank hrank
  · rw [if_neg hempty]
    have hperm := flatten_perm_allUnits requests
    by_cases hnone : flatten requests = []
    · simp only [hnone, if_true]
      obtain ⟨hok, hsorted, hranks⟩ := hreplicate (by
        rw [hnone] at hperm
        exact hperm.symm.eq_nil)
      refine ⟨_, rfl, hok, hsorted, fun rank hrank => ?_⟩
      rw [if_neg (by omega), if_neg (by omega), if_neg hempty]
      exact hranks rank hrank
    · simp only [hnone, if_false]
      obtain ⟨ends, hends, hlength, hchain, hlast⟩ := spanEnds_endsOk hnone hn
      simp only [hends]
      obtain ⟨hslices, hshares⟩ := buildSpans_spec (flatten requests) 0 ends 0
      have hmapped : ∀ share ∈ buildSpans (flatten requests) 0 ends 0, ∀ entry ∈ share,
          WellMapped entry := by
        intro share hshare
        obtain ⟨low, high, first, rfl⟩ := hshares share hshare
        exact wellMapped_numberEntries first
      have hlen : (buildSpans (flatten requests) 0 ends 0).length = n := by
        have heq := congrArg List.length hslices
        rwa [List.length_map, length_slices, hlength] at heq
      have hflat : (buildSpans (flatten requests) 0 ends 0).flatMap shareUnits =
          flatten requests := by
        rw [List.flatMap_def, hslices, flatten_slices hchain hlast, List.drop_zero]
      have hbytes : sizesBetween (prefixSums ((flatten requests).map WorkUnit.size)) 0 ends =
          (buildSpans (flatten requests) 0 ends 0).map getTotalSizeOfPartition := by
        rw [sizesBetween_eq hchain hlast, ← hslices, List.map_map]
        refine List.map_congr_left fun share hshare => ?_
        exact (getTotalSizeOfPartition_eq (hmapped share hshare)).symm
      refine ⟨_, rfl, ?_, ?_, ?_⟩
      · exact
          { length_eq := hlen
            mapped := hmapped
            perm := by
              rw [hflat]
              exact hperm
            ids := fun share hshare => by
              obtain ⟨low, high, first, rfl⟩ := hshares share hshare
              exact (ids_numberEntries first).2 }
      · intro hpaths share hshare entry hentry
        obtain ⟨low, high, first, rfl⟩ := hshares share hshare
        exact offsets_buildSpan hpaths low high first hentry
      · intro rank hrank
        rw [if_neg (by omega), if_neg (by omega), if_neg hempty]
        have hshare : ∃ share, (buildSpans (flatten requests) 0 ends 0)[rank]? = some share :=
          ⟨_, List.getElem?_eq_getElem (by omega)⟩
        obtain ⟨share, hshare⟩ := hshare
        refine ⟨_, share, rfl, hshare, withoutIds_buildSpans hshare, (ids_numberEntries 0).2,
          hbytes, ?_, ?_⟩
        · rw [hbytes, List.length_map, hlen]
        · rw [← length_allUnits, hperm.length_eq]

/-! ## All policies -/

/-- A rank that slices the partition of all ranks. -/
theorem rankAgrees_of_partition {policy : Policy} {requests : List FileChunks} {n rank : Nat}
    {shares : List Share} (hpolicy : policy ≠ .spans)
    (hshares : partition policy requests n = .ok shares) (hok : SharesOk requests n shares)
    (hrank : rank < n) :
    RankAgrees requests n shares rank (partitionForRank policy requests n rank) := by
  have hlt : rank < shares.length := by
    rw [hok.length_eq]
    exact hrank
  have hshare : shares[rank]? = some shares[rank] := List.getElem?_eq_getElem hlt
  have hmem : shares[rank] ∈ shares := List.getElem_mem hlt
  unfold partitionForRank
  rw [if_neg hpolicy, hshares]
  simp only [hshare]
  refine ⟨_, shares[rank], rfl, hshare, rfl, hok.ids _ hmem, rfl, ?_, ?_⟩
  · rw [List.length_map, hok.length_eq]
  · rw [getTotalNumberOfChunks_eq hok.mapped, hok.perm.length_eq, length_allUnits]

/--
Every policy covers a request with distinct ids exactly, the files of a share have distinct
ids, and the ranges of a file are in ascending order under the chunks policy, and under the
spans policy when the paths are distinct.  Each rank alone computes its share, up to the ids,
with the same bytes for every rank and the number of chunks of the request.
-/
theorem partition_exact_cover {policy : Policy} {requests : List FileChunks} {n : Nat}
    (hpolicy : policy ∈ [Policy.chunks, Policy.files, Policy.spans]) (hn : 1 ≤ n)
    (hids : (requests.map FileChunks.id).Nodup) :
    ∃ shares, partition policy requests n = .ok shares ∧ shares.length = n ∧
      ExactCover requests shares ∧
      (∀ share ∈ shares, (share.map fun entry => entry.1.id).Nodup) ∧
      (policy = .chunks ∨ policy = .spans ∧ (requests.map FileChunks.path).Nodup →
        ∀ share ∈ shares, ∀ entry ∈ share, entry.1.offsets.Pairwise (· ≤ ·)) ∧
      ∀ rank < n,
        RankAgrees requests n shares rank (partitionForRank policy requests n rank) := by
  simp only [List.mem_cons, List.not_mem_nil, or_false] at hpolicy
  rcases hpolicy with rfl | rfl | rfl
  · obtain ⟨shares, hshares, hok, hsorted⟩ := @partitionByChunks_spec requests _ hn
    refine ⟨shares, hshares, hok.length_eq, exactCover_of_perm hids hok.mapped hok.perm, hok.ids,
      fun _ => hsorted, fun rank hrank => ?_⟩
    exact rankAgrees_of_partition (by simp) hshares hok hrank
  · obtain ⟨shares, hshares, hok⟩ := partitionByFiles_spec hn hids
    refine ⟨shares, hshares, hok.length_eq, exactCover_of_perm hids hok.mapped hok.perm, hok.ids,
      fun h => by simp at h, fun rank hrank => ?_⟩
    exact rankAgrees_of_partition (by simp) hshares hok hrank
  · obtain ⟨shares, hshares, hok, hsorted, hranks⟩ :=
      @partitionBySpans_spec requests _ hn
    refine ⟨shares, hshares, hok.length_eq, exactCover_of_perm hids hok.mapped hok.perm, hok.ids,
      fun h => ?_, fun rank hrank => ?_⟩
    · refine hsorted ?_
      simpa using h
    · unfold partitionForRank
      rw [if_pos rfl]
      exact hranks rank hrank

/-- Two files, one of them with a chunk of no bytes. -/
def twoFiles : List FileChunks :=
  [{ id := 7, path := "a", offsets := [4, 0, 4], sizes := [3, 4, 0], parallel := rfl },
    { id := 2, path := "b", offsets := [8], sizes := [5], parallel := rfl }]

theorem partition_exact_cover_twoFiles :
    ∃ shares, partition .spans twoFiles 2 = .ok shares ∧ ExactCover twoFiles shares ∧
      (sourceKeys shares).count (7, 2) = 1 := by
  obtain ⟨shares, hshares, -, hcover, -⟩ :=
    @partition_exact_cover .spans twoFiles 2 (by decide)
      (by decide) (by decide)
  have hmem : ∀ request ∈ twoFiles.head?, (sourceKeys shares).count (request.id, 2) = 1 := by
    intro request hrequest
    cases hrequest
    exact hcover.once _ List.mem_cons_self 2 (by decide)
  exact ⟨shares, hshares, hcover, hmem _ rfl⟩

end Distributed
end ModelStreamer
