import ModelStreamer.Common.Device
import ModelStreamer.PosixIo.Alignment

/-!
# Routing files to engines

{lit}`FsAsyncRouter::groups` decides for every file of a filesystem submission whether the
synchronous reader serves it or an asynchronous engine, and on which mount.  Files of one
mount form one group.  A mount whose engine died is not read asynchronously any more.

What the machine answers about a mount is a parameter of the model.  A group number of
minus one is {lit}`none` here.

Main results:

- Theorem {lit}`groups_spec`: the files that an engine is asked to read, mount by mount.
-/

namespace ModelStreamer
namespace AsyncIo

open Common PosixIo Streamer

/-! ## What the machine answers -/

/-- {lit}`MountCapability`. -/
structure MountCapability where
  dev : Nat
  memoryBacked : Bool
  fsType : List Char
deriving DecidableEq, Repr

/-- {lit}`DirectSupport`. -/
inductive DirectSupport where
  | unknown
  | yes
  | no
deriving DecidableEq, Repr

/-- The probes that the router asks, and the configuration of the mounts. -/
structure RouterEnv where
  /-- The mount of a directory; {lit}`none` when probing it throws. -/
  mount : Path → Option MountCapability
  direct : Nat → Path → DirectSupport
  /-- Zero when no file of the mount could be measured. -/
  directBlock : Nat → Path → Nat
  /-- {lit}`direct_block_size()`. -/
  defaultBlock : Nat
  depthFor : List Char → Nat
  registers : List Char → Bool

/-- {lit}`directory_of`: everything before the last slash. -/
def directoryOf (path : Path) : Path :=
  if '/' ∈ path then
    let directory := (path.reverse.dropWhile fun c => c ≠ '/').tail.reverse
    if directory = [] then ['/'] else directory
  else ['.']

/-- {lit}`reads_through_staging`. -/
def readsThroughStaging (destination : Device) : Bool :=
  destination.type = .cuda

/-- {lit}`FsAsyncRouter::reads_directly`. -/
def readsDirectly (env : RouterEnv) (file : FileRanges) (device : Nat)
    (destination : Device) : Bool :=
  let measured := env.directBlock device file.path
  let block := if measured ≠ 0 then measured else env.defaultBlock
  (readsThroughStaging destination ||
    file.ranges.all fun range => range.size = 0 || isCongruent range.offset range.dst block) &&
  env.direct device file.path ≠ .no

/-! ## Groups -/

/-- {lit}`FsAsyncRouter::Groups`. -/
structure Groups where
  byFile : List (Option Nat)
  devices : List Nat
  blocks : List Nat
  depths : List Nat
  registers : List Bool
deriving DecidableEq, Repr

/-- What {lit}`groups` carries along: the directories it has asked about, and its result. -/
structure GroupsState where
  byDirectory : List (Path × Option Nat)
  out : Groups
deriving DecidableEq, Repr

/-- Remember the answer for a directory. -/
def GroupsState.remember (st : GroupsState) (directory : Path) (group : Option Nat) :
    GroupsState :=
  { st with byDirectory := st.byDirectory ++ [(directory, group)] }

/-- The next file is served by this group. -/
def GroupsState.addFile (st : GroupsState) (group : Option Nat) : GroupsState :=
  { st with out := { st.out with byFile := st.out.byFile ++ [group] } }

/-- A mount that was not seen before gets the next group. -/
def GroupsState.addGroup (st : GroupsState) (env : RouterEnv) (capability : MountCapability) :
    GroupsState :=
  { st with
    out := { st.out with
      devices := st.out.devices ++ [capability.dev]
      blocks := st.out.blocks ++ [0]
      depths := st.out.depths ++ [env.depthFor capability.fsType]
      registers := st.out.registers ++ [env.registers capability.fsType] } }

/-- The block of a group is measured on the first file that answers. -/
def GroupsState.measure (st : GroupsState) (env : RouterEnv) (strategy : Strategy)
    (group : Nat) (path : Path) : GroupsState :=
  if st.out.blocks[group]? = some 0 ∧ strategy.isDirect then
    { st with
      out := { st.out with
        blocks := st.out.blocks.set group
          (env.directBlock (st.out.devices.getD group 0) path) } }
  else st

/-- The lambda {lit}`group_of_directory`. -/
def groupOfDirectory (env : RouterEnv) (dead : List Nat) (st : GroupsState)
    (directory : Path) : Option Nat × GroupsState :=
  match st.byDirectory.lookup directory with
  | some group => (group, st)
  | none =>
      match env.mount directory with
      | none => (none, st.remember directory none)
      | some capability =>
          if capability.dev ∈ dead ∨ capability.memoryBacked then
            (none, st.remember directory none)
          else
            match st.out.devices.idxOf? capability.dev with
            | some group => (some group, st.remember directory (some group))
            | none =>
                let group := st.out.devices.length
                (some group, (st.addGroup env capability).remember directory (some group))

/-- One turn of the loop of {lit}`groups` over the files. -/
def groupFile (env : RouterEnv) (strategy : Strategy) (destination : Device) (dead : List Nat)
    (st : GroupsState) (file : FileRanges) : GroupsState :=
  if file.ranges = [] then st.addFile none
  else
    match groupOfDirectory env dead st (directoryOf file.path) with
    | (none, st) => st.addFile none
    | (some group, st) =>
        let st := st.measure env strategy group file.path
        if strategy = .libaioDirect ∧
            ¬ readsDirectly env file (st.out.devices.getD group 0) destination then
          st.addFile none
        else
          st.addFile (some group)

/-- Nothing was asked yet. -/
def GroupsState.empty : GroupsState :=
  { byDirectory := [], out := ⟨[], [], [], [], []⟩ }

/-- {lit}`FsAsyncRouter::groups`. -/
def groups (env : RouterEnv) (strategy : Strategy) (destination : Device) (dead : List Nat)
    (request : List FileRanges) : Groups :=
  if strategy.isAsync then
    (request.foldl (groupFile env strategy destination dead) GroupsState.empty).out
  else
    { byFile := request.map fun _ => none, devices := [], blocks := [], depths := [],
      registers := [] }

/-! ## Which files are read asynchronously -/

/-- The mount of a directory, if it may be read asynchronously. -/
def asyncMount (env : RouterEnv) (dead : List Nat) (directory : Path) : Option Nat :=
  match env.mount directory with
  | none => none
  | some capability =>
      if capability.dev ∈ dead ∨ capability.memoryBacked then none else some capability.dev

/-- The mount whose engine reads the file, if an engine does. -/
def asyncDevice (env : RouterEnv) (strategy : Strategy) (destination : Device)
    (dead : List Nat) (file : FileRanges) : Option Nat :=
  if file.ranges = [] then none
  else
    match asyncMount env dead (directoryOf file.path) with
    | none => none
    | some dev =>
        if strategy = .libaioDirect ∧ ¬ readsDirectly env file dev destination then none
        else some dev

/-- The mount of a group, for a group number that may be minus one. -/
def deviceOf (devices : List Nat) : Option Nat → Option Nat
  | none => none
  | some group => devices[group]?

/-- The answers so far: every directory and every file has the group of its mount. -/
structure GroupsInv (env : RouterEnv) (strategy : Strategy) (destination : Device)
    (dead : List Nat) (seen : List FileRanges) (st : GroupsState) : Prop where
  valid : ∀ entry ∈ st.byDirectory, ∀ group, entry.2 = some group →
    group < st.out.devices.length
  directories : ∀ entry ∈ st.byDirectory,
    deviceOf st.out.devices entry.2 = asyncMount env dead entry.1
  valid_file : ∀ group, some group ∈ st.out.byFile → group < st.out.devices.length
  files : st.out.byFile.map (deviceOf st.out.devices) =
    seen.map (asyncDevice env strategy destination dead)

/-- Later groups do not change the mount of an earlier one. -/
theorem deviceOf_append {devices more : List Nat} {group : Option Nat}
    (h : ∀ g, group = some g → g < devices.length) :
    deviceOf (devices ++ more) group = deviceOf devices group := by
  cases group with
  | none => rfl
  | some g => exact List.getElem?_append_left (h g rfl)

theorem map_deviceOf_append {devices more : List Nat} {byFile : List (Option Nat)}
    (h : ∀ g, some g ∈ byFile → g < devices.length) :
    byFile.map (deviceOf (devices ++ more)) = byFile.map (deviceOf devices) := by
  apply List.map_congr_left
  intro group hgroup
  apply deviceOf_append
  rintro g rfl
  exact h g hgroup

/-- Remembering an answer that is right. -/
theorem GroupsInv.remember {env : RouterEnv} {strategy : Strategy} {destination : Device}
    {dead : List Nat} {seen : List FileRanges} {st : GroupsState}
    (h : GroupsInv env strategy destination dead seen st) {directory : Path}
    {group : Option Nat} (hvalid : ∀ g, group = some g → g < st.out.devices.length)
    (hright : deviceOf st.out.devices group = asyncMount env dead directory) :
    GroupsInv env strategy destination dead seen (st.remember directory group) := by
  refine ⟨?_, ?_, h.valid_file, h.files⟩
  · intro entry hentry g hg
    rcases List.mem_append.1 hentry with hmem | hmem
    · exact h.valid entry hmem g hg
    · rw [List.mem_singleton.1 hmem] at hg
      exact hvalid g hg
  · intro entry hentry
    rcases List.mem_append.1 hentry with hmem | hmem
    · exact h.directories entry hmem
    · rw [List.mem_singleton.1 hmem]
      exact hright

/-- A new group changes no earlier answer. -/
theorem GroupsInv.addGroup {env : RouterEnv} {strategy : Strategy} {destination : Device}
    {dead : List Nat} {seen : List FileRanges} {st : GroupsState}
    (h : GroupsInv env strategy destination dead seen st) (capability : MountCapability) :
    GroupsInv env strategy destination dead seen (st.addGroup env capability) := by
  have hlt : ∀ g, g < st.out.devices.length → g < (st.out.devices ++ [capability.dev]).length := by
    intro g hg
    rw [List.length_append]
    omega
  refine ⟨?_, ?_, ?_, ?_⟩
  · intro entry hentry g hg
    exact hlt g (h.valid entry hentry g hg)
  · intro entry hentry
    apply (deviceOf_append (h.valid entry hentry)).trans
    exact h.directories entry hentry
  · intro g hg
    exact hlt g (h.valid_file g hg)
  · apply (map_deviceOf_append h.valid_file).trans
    exact h.files

/-- Asking about a directory gives the group of its mount. -/
theorem groupOfDirectory_spec {env : RouterEnv} {strategy : Strategy} {destination : Device}
    {dead : List Nat} {seen : List FileRanges} {st : GroupsState}
    (h : GroupsInv env strategy destination dead seen st) (directory : Path) :
    ∃ group st', groupOfDirectory env dead st directory = (group, st') ∧
      GroupsInv env strategy destination dead seen st' ∧
      (∀ g, group = some g → g < st'.out.devices.length) ∧
      deviceOf st'.out.devices group = asyncMount env dead directory := by
  unfold groupOfDirectory
  cases hlookup : st.byDirectory.lookup directory with
  | some group =>
      have hmem : (directory, group) ∈ st.byDirectory := by
        obtain ⟨l₁, l₂, heq, -⟩ := List.lookup_eq_some_iff.1 hlookup
        simp [heq]
      exact ⟨group, st, rfl, h, h.valid _ hmem, h.directories _ hmem⟩
  | none =>
      cases hmount : env.mount directory with
      | none =>
          have hnone : asyncMount env dead directory = none := by simp [asyncMount, hmount]
          refine ⟨none, _, rfl, h.remember (by simp) ?_, by simp, ?_⟩
          · rw [hnone]
            rfl
          · rw [hnone]
            rfl
      | some capability =>
          by_cases hskip : capability.dev ∈ dead ∨ capability.memoryBacked = true
          · have hnone : asyncMount env dead directory = none := by
              simp [asyncMount, hmount, hskip]
            simp only [hskip, if_true]
            refine ⟨none, _, rfl, h.remember (by simp) ?_, by simp, ?_⟩
            · rw [hnone]
              rfl
            · rw [hnone]
              rfl
          · have hsome : asyncMount env dead directory = some capability.dev := by
              simp [asyncMount, hmount, hskip]
            simp only [hskip, if_false]
            cases hidx : st.out.devices.idxOf? capability.dev with
            | some group =>
                have hget : st.out.devices[group]? = some capability.dev := by
                  obtain ⟨hlt, heq, -⟩ := List.findIdx?_eq_some_iff_getElem.1 hidx
                  rw [List.getElem?_eq_getElem hlt]
                  simpa using heq
                have hvalid : ∀ g, some group = some g → g < st.out.devices.length := by
                  intro g hg
                  cases hg
                  exact (List.getElem?_eq_some_iff.1 hget).1
                refine ⟨some group, _, rfl, h.remember hvalid ?_, hvalid, ?_⟩
                · exact hget.trans hsome.symm
                · exact hget.trans hsome.symm
            | none =>
                have hvalid : ∀ g, some st.out.devices.length = some g →
                    g < (st.addGroup env capability).out.devices.length := by
                  intro g hg
                  cases hg
                  simp [GroupsState.addGroup]
                have hget : deviceOf (st.addGroup env capability).out.devices
                    (some st.out.devices.length) = asyncMount env dead directory := by
                  rw [hsome]
                  simp [deviceOf, GroupsState.addGroup]
                exact ⟨_, _, rfl, (h.addGroup capability).remember hvalid hget, hvalid, hget⟩

/-- Measuring a block changes no answer. -/
theorem GroupsInv.measure {env : RouterEnv} {strategy : Strategy} {destination : Device}
    {dead : List Nat} {seen : List FileRanges} {st : GroupsState}
    (h : GroupsInv env strategy destination dead seen st) (group : Nat) (path : Path) :
    GroupsInv env strategy destination dead seen (st.measure env strategy group path) ∧
      (st.measure env strategy group path).out.devices = st.out.devices := by
  unfold GroupsState.measure
  split
  · exact ⟨⟨h.valid, h.directories, h.valid_file, h.files⟩, rfl⟩
  · exact ⟨h, rfl⟩

/-- The next file is answered. -/
theorem GroupsInv.addFile {env : RouterEnv} {strategy : Strategy} {destination : Device}
    {dead : List Nat} {seen : List FileRanges} {st : GroupsState}
    (h : GroupsInv env strategy destination dead seen st) {file : FileRanges}
    {group : Option Nat} (hvalid : ∀ g, group = some g → g < st.out.devices.length)
    (hright : deviceOf st.out.devices group =
      asyncDevice env strategy destination dead file) :
    GroupsInv env strategy destination dead (seen ++ [file]) (st.addFile group) := by
  refine ⟨h.valid, h.directories, ?_, ?_⟩
  · intro g hg
    rcases List.mem_append.1 hg with hmem | hmem
    · exact h.valid_file g hmem
    · exact hvalid g (List.mem_singleton.1 hmem).symm
  · simp only [GroupsState.addFile, List.map_append, List.map_cons, List.map_nil, hright]
    rw [h.files]

theorem groupFile_inv {env : RouterEnv} {strategy : Strategy} {destination : Device}
    {dead : List Nat} {seen : List FileRanges} {st : GroupsState}
    (h : GroupsInv env strategy destination dead seen st) (file : FileRanges) :
    GroupsInv env strategy destination dead (seen ++ [file])
      (groupFile env strategy destination dead st file) := by
  unfold groupFile
  by_cases hranges : file.ranges = []
  · rw [if_pos hranges]
    apply h.addFile (by simp)
    simp [asyncDevice, hranges, deviceOf]
  · rw [if_neg hranges]
    obtain ⟨group, st', heq, h', hvalid, hright⟩ :=
      groupOfDirectory_spec h (directoryOf file.path)
    rw [heq]
    cases group with
    | none =>
        apply h'.addFile (by simp)
        have hnone : asyncMount env dead (directoryOf file.path) = none := hright.symm
        simp [asyncDevice, hranges, hnone, deviceOf]
    | some g =>
        obtain ⟨hmeasured, hdevices⟩ := h'.measure g file.path
        have hlt := hvalid g rfl
        have hget : st'.out.devices.getD g 0 = st'.out.devices[g] := by
          simp [List.getD_eq_getElem?_getD, List.getElem?_eq_getElem hlt]
        have hmount : asyncMount env dead (directoryOf file.path) = some st'.out.devices[g] := by
          rw [← hright]
          exact List.getElem?_eq_getElem hlt
        simp only [hdevices, hget]
        split
        · rename_i hskip
          apply hmeasured.addFile (by simp)
          simp [asyncDevice, hranges, hmount, hskip, deviceOf]
        · rename_i hkeep
          apply hmeasured.addFile
          · intro g' hg'
            cases hg'
            rw [hdevices]
            exact hlt
          · rw [hdevices]
            simp only [asyncDevice, hranges, hmount, hkeep, if_false]
            exact List.getElem?_eq_getElem hlt

/-- The groups of all files of a request. -/
theorem groups_inv (env : RouterEnv) {strategy : Strategy} (destination : Device)
    (dead : List Nat) (request : List FileRanges) :
    GroupsInv env strategy destination dead request
      (request.foldl (groupFile env strategy destination dead) GroupsState.empty) := by
  have hfold : ∀ (files seen : List FileRanges) (st : GroupsState),
      GroupsInv env strategy destination dead seen st →
      GroupsInv env strategy destination dead (seen ++ files)
        (files.foldl (groupFile env strategy destination dead) st) := by
    intro files
    induction files with
    | nil =>
        intro seen st h
        simpa using h
    | cons file files ih =>
        intro seen st h
        have hnext := ih (seen ++ [file]) _ (groupFile_inv h file)
        simpa using hnext
  have hempty : GroupsInv env strategy destination dead [] GroupsState.empty := by
    refine ⟨?_, ?_, ?_, rfl⟩ <;> simp [GroupsState.empty]
  simpa using hfold request [] GroupsState.empty hempty

/-- Every file of an asynchronous strategy is routed to the engine of its mount, if any. -/
theorem groups_spec (env : RouterEnv) {strategy : Strategy} (hasync : strategy.isAsync = true)
    (destination : Device) (dead : List Nat) (request : List FileRanges) :
    (groups env strategy destination dead request).byFile.map
        (deviceOf (groups env strategy destination dead request).devices) =
      request.map (asyncDevice env strategy destination dead) := by
  rw [groups, if_pos hasync]
  exact (groups_inv env destination dead request).files

end AsyncIo
end ModelStreamer
