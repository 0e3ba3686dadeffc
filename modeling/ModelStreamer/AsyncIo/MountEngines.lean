import ModelStreamer.AsyncIo.BackendPools

/-!
# Files, mounts and engines

{lit}`groups` numbers the mounts of a submission in the order in which they are first seen, and
{lit}`push_async` binds a mount to an engine at its first workload.

Main results:

- Theorem {lit}`groups_contract`: which files are in which group, whatever the probes answer.
- Theorem {lit}`engines_contract`: which engine a mount gets, whatever was pushed before.
- Theorem {lit}`files_to_engines`: both together.
-/

namespace ModelStreamer
namespace AsyncIo

open Common Lib PosixIo Streamer

/-! ## Groups -/

section Groups

variable {env : RouterEnv} {strategy : Strategy} {destination : Device} {dead : List Nat}
  {st : GroupsState}

/-- The vectors of the groups have an entry for every mount, and no mount has two. -/
structure GroupsShape (env : RouterEnv) (dead : List Nat) (out : Groups) : Prop where
  blocks_length : out.blocks.length = out.devices.length
  depths_length : out.depths.length = out.devices.length
  registers_length : out.registers.length = out.devices.length
  nodup : out.devices.Nodup
  /-- What the mount answered when it got its group. -/
  answered : ∀ (group dev : Nat), out.devices[group]? = some dev →
    ∃ directory capability, env.mount directory = some capability ∧ capability.dev = dev ∧
      dev ∉ dead ∧ capability.memoryBacked = false ∧
      out.depths[group]? = some (env.depthFor capability.fsType) ∧
      out.registers[group]? = some (env.registers capability.fsType)

/-- A mount that has no group yet gets one. -/
theorem GroupsShape.addGroup (h : GroupsShape env dead st.out) {directory : Path}
    {capability : MountCapability} (hmount : env.mount directory = some capability)
    (hlive : capability.dev ∉ dead) (hmemory : capability.memoryBacked = false)
    (hnew : capability.dev ∉ st.out.devices) :
    GroupsShape env dead (st.addGroup env capability).out := by
  refine ⟨?_, ?_, ?_, ?_, fun group dev hdev => ?_⟩
  · simp [GroupsState.addGroup, h.blocks_length]
  · simp [GroupsState.addGroup, h.depths_length]
  · simp [GroupsState.addGroup, h.registers_length]
  · apply h.nodup.append (List.nodup_singleton _)
    rw [List.disjoint_singleton]
    exact hnew
  · rcases getElem?_concat_cases hdev with hold | ⟨rfl, rfl⟩
    · obtain ⟨dir, cap, hcap, hcapDev, hcapLive, hcapMemory, hdepth, hregisters⟩ :=
        h.answered group dev hold
      exact ⟨dir, cap, hcap, hcapDev, hcapLive, hcapMemory,
        getElem?_concat_of_some hdepth _, getElem?_concat_of_some hregisters _⟩
    · refine ⟨directory, capability, hmount, rfl, hlive, hmemory, ?_, ?_⟩
      · simp [GroupsState.addGroup, ← h.depths_length]
      · simp [GroupsState.addGroup, ← h.registers_length]

/-- Asking about a directory. -/
theorem GroupsShape.groupOfDirectory (h : GroupsShape env dead st.out) (directory : Path) :
    GroupsShape env dead (AsyncIo.groupOfDirectory env dead st directory).2.out := by
  unfold AsyncIo.groupOfDirectory
  cases st.byDirectory.lookup directory with
  | some group => exact h
  | none =>
      cases hmount : env.mount directory with
      | none => exact h
      | some capability =>
          simp only
          split
          · exact h
          · rename_i hkeep
            cases hidx : st.out.devices.idxOf? capability.dev with
            | some group => exact h
            | none =>
                have hnew : capability.dev ∉ st.out.devices := by
                  intro hmem
                  have hnone := List.findIdx?_eq_none_iff.1 hidx capability.dev hmem
                  simp at hnone
                exact h.addGroup hmount (fun hmem => hkeep (.inl hmem))
                  (Bool.eq_false_iff.2 fun hmemory => hkeep (.inr hmemory)) hnew

/-- Measuring a block. -/
theorem GroupsShape.measure (h : GroupsShape env dead st.out) (group : Nat) (path : Path) :
    GroupsShape env dead (st.measure env strategy group path).out := by
  unfold GroupsState.measure
  split
  · exact ⟨by simp [h.blocks_length], h.depths_length, h.registers_length, h.nodup, h.answered⟩
  · exact h

/-- One more file. -/
theorem GroupsShape.groupFile (h : GroupsShape env dead st.out) (file : FileRanges) :
    GroupsShape env dead (AsyncIo.groupFile env strategy destination dead st file).out := by
  have hadd : ∀ {st : GroupsState}, GroupsShape env dead st.out → ∀ group,
      GroupsShape env dead (st.addFile group).out := fun h _ =>
    ⟨h.blocks_length, h.depths_length, h.registers_length, h.nodup, h.answered⟩
  unfold AsyncIo.groupFile
  split
  · exact hadd h none
  · have hasked := h.groupOfDirectory (directoryOf file.path)
    cases hgroup : AsyncIo.groupOfDirectory env dead st (directoryOf file.path) with
    | mk group st' =>
        rw [hgroup] at hasked
        cases group with
        | none => exact hadd hasked none
        | some group =>
            have hmeasured := @GroupsShape.measure env strategy dead st' hasked group file.path
            simp only
            split
            · exact hadd hmeasured none
            · exact hadd hmeasured (some group)

/-- The groups of all files. -/
theorem groupsShape_groups (env : RouterEnv) (strategy : Strategy) (destination : Device)
    (dead : List Nat) (request : List FileRanges) :
    GroupsShape env dead (groups env strategy destination dead request) := by
  have hempty : GroupsShape env dead ⟨[], [], [], [], []⟩ :=
    ⟨rfl, rfl, rfl, List.nodup_nil, fun _ _ hdev => by cases hdev⟩
  have hfold : ∀ (files : List FileRanges) (st : GroupsState), GroupsShape env dead st.out →
      GroupsShape env dead (files.foldl (groupFile env strategy destination dead) st).out := by
    intro files
    induction files with
    | nil => exact fun _ h => h
    | cons file files ih => exact fun st h => ih _ (h.groupFile file)
  unfold groups
  split
  · exact hfold request _ hempty
  · exact ⟨rfl, rfl, rfl, List.nodup_nil, fun _ _ hdev => by cases hdev⟩

/-- The file can be read directly from the mount. -/
def DirectlyReadable (env : RouterEnv) (destination : Device) (dev : Nat) (file : FileRanges) :
    Prop :=
  env.direct dev file.path ≠ .no ∧ (readsThroughStaging destination = true ∨
    ∀ range ∈ file.ranges, range.size ≠ 0 →
      isCongruent range.offset range.dst
        (if env.directBlock dev file.path ≠ 0 then env.directBlock dev file.path
          else env.defaultBlock) = true)

theorem readsDirectly_iff {file : FileRanges} {dev : Nat} :
    readsDirectly env file dev destination = true ↔ DirectlyReadable env destination dev file := by
  unfold readsDirectly DirectlyReadable
  simp only [Bool.and_eq_true, Bool.or_eq_true, List.all_eq_true, decide_eq_true_eq]
  rw [and_comm]
  apply and_congr Iff.rfl
  apply or_congr Iff.rfl
  refine forall₂_congr fun range _ => ?_
  rw [imp_iff_not_or, not_not]

/-- The mount of a file whose directory could be probed, if it is neither dead nor memory. -/
def LiveMount (env : RouterEnv) (dead : List Nat) (file : FileRanges) (dev : Nat) : Prop :=
  ∃ capability, env.mount (directoryOf file.path) = some capability ∧ capability.dev = dev ∧
    capability.memoryBacked = false ∧ dev ∉ dead

theorem asyncMount_iff {file : FileRanges} {dev : Nat} :
    asyncMount env dead (directoryOf file.path) = some dev ↔ LiveMount env dead file dev := by
  unfold asyncMount LiveMount
  cases env.mount (directoryOf file.path) with
  | none => simp
  | some capability =>
      constructor
      · intro h
        simp only at h
        split at h
        · cases h
        · rename_i hkeep
          cases h
          exact ⟨capability, rfl, rfl, Bool.eq_false_iff.2 fun hmemory => hkeep (.inr hmemory),
            fun hmem => hkeep (.inl hmem)⟩
      · rintro ⟨found, hfound, rfl, hmemory, hlive⟩
        cases hfound
        simp [hmemory, hlive]

/-- Which files an engine reads. -/
theorem asyncDevice_iff {file : FileRanges} {dev : Nat} :
    asyncDevice env strategy destination dead file = some dev ↔
      file.ranges ≠ [] ∧ LiveMount env dead file dev ∧
        (strategy = .libaioDirect → DirectlyReadable env destination dev file) := by
  rw [← asyncMount_iff]
  unfold asyncDevice
  by_cases hranges : file.ranges = []
  · simp [hranges]
  · rw [if_neg hranges]
    cases asyncMount env dead (directoryOf file.path) with
    | none => simp
    | some found =>
        simp only [← readsDirectly_iff]
        by_cases hskip : strategy = .libaioDirect ∧
            ¬ readsDirectly env file found destination = true
        · rw [if_pos hskip]
          constructor
          · exact nofun
          · rintro ⟨-, heq, hdirect⟩
            cases heq
            exact absurd (hdirect hskip.1) hskip.2
        · rw [if_neg hskip]
          constructor
          · intro heq
            cases heq
            refine ⟨hranges, rfl, fun hlibaio => ?_⟩
            by_contra hdirect
            exact hskip ⟨hlibaio, hdirect⟩
          · exact fun h => h.2.1

/-- What {lit}`groups` answers. -/
structure GroupsContract (env : RouterEnv) (strategy : Strategy) (destination : Device)
    (dead : List Nat) (request : List FileRanges) (out : Groups) : Prop where
  shape : GroupsShape env dead out
  byFile_length : out.byFile.length = request.length
  group_lt : ∀ group, some group ∈ out.byFile → group < out.devices.length
  /-- A file is in a group only if its mount is that of the group, and can be read there. -/
  only_if : ∀ (i group : Nat) (file : FileRanges), request[i]? = some file →
    out.byFile[i]? = some (some group) → file.ranges ≠ [] ∧
      ∃ dev, out.devices[group]? = some dev ∧ LiveMount env dead file dev ∧
        (strategy = .libaioDirect → DirectlyReadable env destination dev file)
  /-- Every other asynchronous strategy reads all files of a mount. -/
  all_files : strategy.isAsync = true → strategy ≠ .libaioDirect →
    ∀ (i dev : Nat) (file : FileRanges), request[i]? = some file → file.ranges ≠ [] →
      LiveMount env dead file dev → ∃ group, out.byFile[i]? = some (some group) ∧
        out.devices[group]? = some dev

/-- The groups of a submission, whatever the probes answer. -/
theorem groups_contract (env : RouterEnv) (strategy : Strategy) (destination : Device)
    (dead : List Nat) (request : List FileRanges) :
    GroupsContract env strategy destination dead request
      (groups env strategy destination dead request) := by
  have hinv := @groups_inv env strategy destination dead request
  have hlength : (groups env strategy destination dead request).byFile.length =
      request.length := by
    by_cases hasync : strategy.isAsync = true
    · have hfiles := congrArg List.length (groups_spec env hasync destination dead request)
      simpa using hfiles
    · rw [groups, if_neg hasync]
      simp
  have hlt : ∀ group, some group ∈ (groups env strategy destination dead request).byFile →
      group < (groups env strategy destination dead request).devices.length := by
    by_cases hasync : strategy.isAsync = true
    · rw [groups, if_pos hasync]
      exact hinv.valid_file
    · rw [groups, if_neg hasync]
      simp
  refine ⟨groupsShape_groups env strategy destination dead request, hlength, hlt, ?_, ?_⟩
  · intro i group file hfile hgroup
    have hdev := List.getElem?_eq_getElem (hlt group (List.mem_of_getElem? hgroup))
    obtain ⟨-, found, hfound, hdevice⟩ := groups_routesTo.1 ⟨group, hgroup, hdev⟩
    cases hfile.symm.trans hfound
    obtain ⟨hranges, hlive, hdirect⟩ := asyncDevice_iff.1 hdevice
    exact ⟨hranges, _, hdev, hlive, hdirect⟩
  · intro hasync hother i dev file hfile hranges hlive
    apply groups_routesTo.2
    refine ⟨hasync, file, hfile, asyncDevice_iff.2 ⟨hranges, hlive, fun hlibaio => ?_⟩⟩
    exact absurd hlibaio hother

end Groups

/-! ## Engines -/

/-- A workload that is pushed, and how much work the engines have waiting then. -/
structure Push where
  device : Nat
  block : Nat
  depth : Nat
  registerBuffers : Bool
  pending : Nat → Nat

/-- No engine was made yet. -/
def AsyncPools.start (maxAsyncEngines : Nat) : AsyncPools :=
  { engines := [], byDevice := ∅, sharedMounts := 0, maxAsyncEngines }

/-- The transition function; it stops at a failed assertion. -/
def pushStep (pools : AsyncPools) (push : Push) : Option AsyncPools :=
  (pools.pushAsync push.device push.block push.depth push.registerBuffers push.pending).toOption

section Engines

variable {pools : AsyncPools}

/-- The engines are in their places, and no more of a kind than the cap. -/
structure PoolsInv (cap : Nat) (pools : AsyncPools) : Prop where
  cap_eq : pools.maxAsyncEngines = cap
  bound : ∀ dev e, pools.byDevice.lookup dev = some e → e < pools.engines.length
  kind_le : ∀ depth registerBuffers, (pools.ofKind depth registerBuffers).length ≤ cap

/-- An engine of a kind. -/
theorem mem_ofKind {depth e : Nat} {registerBuffers : Bool} :
    e ∈ pools.ofKind depth registerBuffers ↔ ∃ engine, pools.engines[e]? = some engine ∧
      engine.depth = depth ∧ engine.registerBuffers = registerBuffers := by
  unfold AsyncPools.ofKind
  rw [List.mem_filter, List.mem_range]
  constructor
  · rintro ⟨hlt, hkind⟩
    rw [List.getElem?_eq_getElem hlt] at hkind
    exact ⟨_, List.getElem?_eq_getElem hlt, by simpa using hkind⟩
  · rintro ⟨engine, hengine, hdepth, hregister⟩
    refine ⟨(List.getElem?_eq_some_iff.1 hengine).1, ?_⟩
    rw [hengine]
    simp [hdepth, hregister]

/-- A new engine counts for its own kind only. -/
theorem ofKind_concat (engine : AsyncEngine) (byDevice : AList fun _ : Nat => Nat)
    (depth : Nat) (registerBuffers : Bool) :
    ({ pools with engines := pools.engines ++ [engine], byDevice } : AsyncPools).ofKind depth
        registerBuffers =
      pools.ofKind depth registerBuffers ++
        if engine.depth = depth ∧ engine.registerBuffers = registerBuffers then
          [pools.engines.length] else [] := by
  unfold AsyncPools.ofKind
  simp only [List.length_append, List.length_singleton, List.range_succ, List.filter_append]
  congr 1
  · apply List.filter_congr
    intro e he
    rw [List.getElem?_append_left (List.mem_range.1 he)]
  · simp only [List.filter_cons, List.filter_nil, List.getElem?_concat_length]
    by_cases hkind : engine.depth = depth ∧ engine.registerBuffers = registerBuffers
    · rw [if_pos hkind]
      simp [hkind.1, hkind.2]
    · rw [if_neg hkind]
      simpa using hkind

/-- Among some engines one has the least work. -/
theorem leastLoaded_isSome {pending : Nat → Nat} {es : List Nat} {best : Option Nat}
    (h : es ≠ [] ∨ best.isSome = true) : (leastLoaded pending es best).isSome = true := by
  induction es generalizing best with
  | nil =>
      cases h with
      | inl hne => exact absurd rfl hne
      | inr hsome => exact hsome
  | cons e es ih =>
      cases best with
      | none => exact ih (.inr rfl)
      | some best => exact ih (.inr rfl)

/-- What pushing a workload does. -/
inductive Pushes (pools : AsyncPools) (push : Push) : AsyncPools → Prop
  /-- The mount has an engine. -/
  | bound {e : Nat} (hbound : pools.byDevice.lookup push.device = some e) :
      Pushes pools push pools
  /-- A new engine for the mount. -/
  | created (hnew : pools.byDevice.lookup push.device = none)
      (hroom : (pools.ofKind push.depth push.registerBuffers).length < pools.maxAsyncEngines) :
      Pushes pools push
        { pools with
          engines := pools.engines ++
            [⟨push.device, push.block, push.depth, push.registerBuffers, false⟩]
          byDevice := pools.byDevice.insert push.device pools.engines.length }
  /-- At the cap the mount shares an engine of its kind. -/
  | shared {e : Nat} (hnew : pools.byDevice.lookup push.device = none)
      (hfull : pools.maxAsyncEngines ≤ (pools.ofKind push.depth push.registerBuffers).length)
      (hkind : e ∈ pools.ofKind push.depth push.registerBuffers) :
      Pushes pools push
        { pools with
          byDevice := pools.byDevice.insert push.device e
          sharedMounts := pools.sharedMounts + 1 }

/-- With a cap of at least one a workload always finds an engine. -/
theorem pushStep_cases (hcap : 1 ≤ pools.maxAsyncEngines) (push : Push) :
    ∃ pools', pushStep pools push = some pools' ∧ Pushes pools push pools' := by
  unfold pushStep AsyncPools.pushAsync
  cases hlookup : pools.byDevice.lookup push.device with
  | some e => exact ⟨pools, rfl, .bound hlookup⟩
  | none =>
      simp only
      by_cases hroom : (pools.ofKind push.depth push.registerBuffers).length <
          pools.maxAsyncEngines
      · rw [if_pos hroom]
        exact ⟨_, rfl, .created hlookup hroom⟩
      · rw [if_neg hroom]
        have hne : pools.ofKind push.depth push.registerBuffers ≠ [] := by
          intro hnil
          rw [hnil] at hroom
          exact hroom hcap
        obtain ⟨e, hleast⟩ := Option.isSome_iff_exists.1
          (@leastLoaded_isSome push.pending _ none (.inl hne))
        have hkind : e ∈ pools.ofKind push.depth push.registerBuffers := by
          rcases leastLoaded_mem hleast with hmem | hnone
          · exact hmem
          · cases hnone
        rw [hleast]
        exact ⟨_, rfl, .shared hlookup (Nat.not_lt.1 hroom) hkind⟩

/-- No push binds a mount again, or changes an engine. -/
theorem Pushes.keeps {push : Push} {pools' : AsyncPools} (h : Pushes pools push pools') :
    (∀ dev e, pools.byDevice.lookup dev = some e → pools'.byDevice.lookup dev = some e) ∧
      ∀ (e : Nat) (engine : AsyncEngine), pools.engines[e]? = some engine →
        pools'.engines[e]? = some engine := by
  have hother : ∀ (hnew : pools.byDevice.lookup push.device = none) (e' : Nat) (dev e : Nat),
      pools.byDevice.lookup dev = some e →
      (pools.byDevice.insert push.device e').lookup dev = some e := by
    intro hnew e' dev e hbound
    have hne : dev ≠ push.device := by
      rintro rfl
      rw [hnew] at hbound
      cases hbound
    rwa [AList.lookup_insert_ne hne]
  cases h with
  | bound hbound => exact ⟨fun _ _ h => h, fun _ _ h => h⟩
  | created hnew hroom =>
      exact ⟨hother hnew _, fun e engine h => getElem?_concat_of_some h _⟩
  | shared hnew hfull hkind => exact ⟨hother hnew _, fun _ _ h => h⟩

/-- A push keeps the invariant. -/
theorem PoolsInv.push {cap : Nat} (h : PoolsInv cap pools) {push : Push} {pools' : AsyncPools}
    (hpush : Pushes pools push pools') : PoolsInv cap pools' := by
  cases hpush with
  | bound _ => exact h
  | created hnew hroom =>
      refine ⟨h.cap_eq, fun dev e hbound => ?_, fun depth registerBuffers => ?_⟩
      · rw [List.length_append, List.length_singleton]
        by_cases hdev : dev = push.device
        · rw [hdev, AList.lookup_insert] at hbound
          cases hbound
          exact Nat.lt_succ_self _
        · rw [AList.lookup_insert_ne hdev] at hbound
          exact Nat.lt_succ_of_lt (h.bound dev e hbound)
      · rw [ofKind_concat]
        split
        · rename_i hkind
          rw [← hkind.1, ← hkind.2, List.length_append, List.length_singleton, ← h.cap_eq]
          exact hroom
        · rw [List.append_nil]
          exact h.kind_le depth registerBuffers
  | @shared e hnew hfull hkind =>
      refine ⟨h.cap_eq, fun dev other hbound => ?_, h.kind_le⟩
      by_cases hdev : dev = push.device
      · rw [hdev, AList.lookup_insert] at hbound
        cases hbound
        exact mem_ofKind_lt hkind
      · rw [AList.lookup_insert_ne hdev] at hbound
        exact h.bound dev other hbound

/-- The engine that a mount gets at its first push. -/
theorem PoolsInv.first_push {cap : Nat} (h : PoolsInv cap pools) {push : Push}
    {pools' : AsyncPools} (hpush : Pushes pools push pools')
    (hnew : pools.byDevice.lookup push.device = none) :
    ∃ e engine, pools'.byDevice.lookup push.device = some e ∧
      pools'.engines[e]? = some engine ∧ engine.depth = push.depth ∧
      engine.registerBuffers = push.registerBuffers ∧
      ∀ dev, pools.byDevice.lookup dev = some e →
        (pools.ofKind push.depth push.registerBuffers).length = cap := by
  cases hpush with
  | bound hbound => cases hnew.symm.trans hbound
  | created _ _ =>
      refine ⟨pools.engines.length, _, AList.lookup_insert _, List.getElem?_concat_length, rfl,
        rfl, fun dev hdev => ?_⟩
      exact absurd (h.bound dev _ hdev) (Nat.lt_irrefl _)
  | @shared e _ hfull hkind =>
      obtain ⟨engine, hengine, hdepth, hregister⟩ := mem_ofKind.1 hkind
      refine ⟨e, engine, AList.lookup_insert _, hengine, hdepth, hregister, fun _ _ => ?_⟩
      apply le_antisymm (h.kind_le _ _)
      rw [← h.cap_eq]
      exact hfull

end Engines

/-- What {lit}`push_async` keeps along every sequence of pushes. -/
structure EnginesContract (cap : Nat) : Prop where
  /-- No push fails, and there are no more engines of a kind than the cap. -/
  within_cap : ∀ pushes pools, run pushStep (.start cap) pushes = some pools →
    (∀ push, (pushStep pools push).isSome = true) ∧
      ∀ depth registerBuffers, (pools.ofKind depth registerBuffers).length ≤ cap
  /--
  From its first push on a mount has one engine, made for what the mount answered then.  The
  engine had another mount before only if its kind was at the cap.
  -/
  for_life : ∀ pushes pools push, run pushStep (.start cap) pushes = some pools →
    pools.byDevice.lookup push.device = none →
    ∃ e engine, engine.depth = push.depth ∧ engine.registerBuffers = push.registerBuffers ∧
      (∀ later pools', run pushStep pools (push :: later) = some pools' →
        pools'.byDevice.lookup push.device = some e ∧ pools'.engines[e]? = some engine) ∧
      ∀ dev, pools.byDevice.lookup dev = some e →
        (pools.ofKind push.depth push.registerBuffers).length = cap

/-- Every sequence of pushes keeps the contract. -/
theorem engines_contract {cap : Nat} (hcap : 1 ≤ cap) : EnginesContract cap := by
  have hstep : ∀ pools push pools', PoolsInv cap pools → pushStep pools push = some pools' →
      Pushes pools push pools' := by
    intro pools push pools' h hpush
    obtain ⟨found, hfound, hpushes⟩ := pushStep_cases (h.cap_eq.symm ▸ hcap) push
    cases hfound.symm.trans hpush
    exact hpushes
  have hinv : ∀ pushes pools, run pushStep (.start cap) pushes = some pools →
      PoolsInv cap pools := by
    intro pushes pools hrun
    refine run_invariant (fun s push s' h hpush => h.push (hstep s push s' h hpush)) ?_ hrun
    refine ⟨rfl, fun dev e hbound => ?_, fun _ _ => Nat.zero_le _⟩
    cases hbound
  constructor
  · intro pushes pools hrun
    refine ⟨fun push => ?_, (hinv pushes pools hrun).kind_le⟩
    obtain ⟨found, hfound, -⟩ := pushStep_cases ((hinv pushes pools hrun).cap_eq.symm ▸ hcap) push
    rw [hfound]
    rfl
  · intro pushes pools push hrun hnew
    have h := hinv pushes pools hrun
    obtain ⟨first, hfirst, hpushes⟩ := pushStep_cases (h.cap_eq.symm ▸ hcap) push
    obtain ⟨e, engine, hbound, hengine, hdepth, hregister, hshared⟩ := h.first_push hpushes hnew
    refine ⟨e, engine, hdepth, hregister, fun later pools' hlater => ?_, hshared⟩
    obtain ⟨second, hsecond, hrest⟩ := run_cons.1 hlater
    cases hfirst.symm.trans hsecond
    -- what the first push did stays
    have hkept := run_invariant (P := fun s => PoolsInv cap s ∧
      s.byDevice.lookup push.device = some e ∧ s.engines[e]? = some engine)
      (fun s next s' hs hpush => by
        have hpush' := hstep s next s' hs.1 hpush
        exact ⟨hs.1.push hpush', hpush'.keeps.1 _ _ hs.2.1, hpush'.keeps.2 _ _ hs.2.2⟩)
      ⟨h.push hpushes, hbound, hengine⟩ hrest
    exact hkept.2

/--
Whatever the probes answer and whichever mounts are dead, a file is only in the group of its own
mount; whatever was pushed before, a mount keeps the engine that was made for its answers.
-/
theorem files_to_engines (env : RouterEnv) (strategy : Strategy) (destination : Device)
    (dead : List Nat) (request : List FileRanges) {cap : Nat} (hcap : 1 ≤ cap) :
    GroupsContract env strategy destination dead request
        (groups env strategy destination dead request) ∧ EnginesContract cap :=
  ⟨groups_contract env strategy destination dead request, engines_contract hcap⟩

/-- Two mounts of one kind, of which the second shares the only engine. -/
theorem files_to_engines_twoMounts :
    (groups twoMounts .ioUringBuffered ⟨.cpu, 0⟩ [] (oneFile 'a' ++ oneFile 'b')).byFile =
        [some 0, some 1] ∧
      GroupsContract twoMounts .ioUringBuffered ⟨.cpu, 0⟩ [] (oneFile 'a' ++ oneFile 'b')
        (groups twoMounts .ioUringBuffered ⟨.cpu, 0⟩ [] (oneFile 'a' ++ oneFile 'b')) ∧
      EnginesContract 1 :=
  ⟨rfl, files_to_engines twoMounts .ioUringBuffered ⟨.cpu, 0⟩ [] (oneFile 'a' ++ oneFile 'b')
    (le_refl 1)⟩

end AsyncIo
end ModelStreamer
