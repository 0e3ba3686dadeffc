import Mathlib.Data.List.AList
import ModelStreamer.AsyncIo.FsAsyncRouter
import ModelStreamer.Lib.Counting
import ModelStreamer.Lib.Run

/-!
# Engines and their mounts

{lit}`BackendPools::push_async` binds every mount to an engine for good: a new engine while
the cap allows it, else an existing one of the same queue depth that the mount then shares.
The worker of an engine is told at its creation which mount to report when the engine dies,
and {lit}`FsAsyncRouter::groups` stops routing the mounts that were reported.

A submission is routed first and its workloads are pushed afterwards, while workers run, so
the model takes these as separate steps.

Main results:

- Theorem {lit}`RoutingInv.step`: what is bound and what is reported, along every run.
- Theorem {lit}`dead_engine_routing`: which mounts of a dead engine are read synchronously.
- Theorem {lit}`shared_engine_keeps_mount`: a mount that shares a dead engine is not.
-/

namespace ModelStreamer
namespace AsyncIo

open Common Lib PosixIo Streamer

/-! ## Pools -/

/-- An engine, with the mount its worker was created for and the worker's dead flag. -/
structure AsyncEngine where
  device : Nat
  block : Nat
  depth : Nat
  registerBuffers : Bool
  dead : Bool
deriving DecidableEq, Repr

/-- The asynchronous part of {lit}`BackendPools`; engines in the order of their creation. -/
structure AsyncPools where
  engines : List AsyncEngine
  byDevice : AList fun _ : Nat => Nat
  sharedMounts : Nat
  maxAsyncEngines : Nat
deriving DecidableEq

/-- {lit}`_async_pools[{ depth, register_buffers }]`: the numbers of its engines. -/
def AsyncPools.ofKind (pools : AsyncPools) (depth : Nat) (registerBuffers : Bool) : List Nat :=
  (List.range pools.engines.length).filter fun e =>
    match pools.engines[e]? with
    | some engine => engine.depth = depth && engine.registerBuffers = registerBuffers
    | none => false

/-- The loop of {lit}`least_loaded_async`: the first engine with the fewest workloads. -/
def leastLoaded (pending : Nat → Nat) : List Nat → Option Nat → Option Nat
  | [], best => best
  | e :: es, none => leastLoaded pending es (some e)
  | e :: es, some best =>
      leastLoaded pending es (some (if pending e < pending best then e else best))

/-- {lit}`BackendPools::push_async`, up to handing the workload to the pool. -/
def AsyncPools.pushAsync (pools : AsyncPools) (device block depth : Nat)
    (registerBuffers : Bool) (pending : Nat → Nat) : Except Failure AsyncPools :=
  match pools.byDevice.lookup device with
  | some _ => .ok pools
  | none =>
      let engines := pools.ofKind depth registerBuffers
      if engines.length < pools.maxAsyncEngines then
        .ok { pools with
          engines := pools.engines ++ [⟨device, block, depth, registerBuffers, false⟩]
          byDevice := pools.byDevice.insert device pools.engines.length }
      else
        match leastLoaded pending engines none with
        | none => .error .assertion
        | some e => .ok { pools with
            byDevice := pools.byDevice.insert device e
            sharedMounts := pools.sharedMounts + 1 }

/-! ## The system -/

/-- A workload that was routed to the engine of its mount and not pushed yet. -/
structure RoutedWorkload where
  device : Nat
  block : Nat
  depth : Nat
  registerBuffers : Bool
deriving DecidableEq, Repr

/-- The engines of a streamer, the reported mounts, and the workloads on their way. -/
structure Routing where
  pools : AsyncPools
  /-- {lit}`DeadMounts`. -/
  dead : List Nat
  routed : List RoutedWorkload
deriving DecidableEq

/-- What can happen next. -/
inductive RoutingAction where
  /-- A submission is routed. -/
  | submit (env : RouterEnv) (strategy : Strategy) (destination : Device)
      (request : List FileRanges)
  /-- One of the routed workloads is pushed; the engines have that much work waiting. -/
  | push (i : Nat) (pending : Nat → Nat)
  /-- An engine fails permanently. -/
  | fail (e : Nat)

/-- No engine was made yet. -/
def Routing.start (maxAsyncEngines : Nat) : Routing :=
  { pools := { engines := [], byDevice := ∅, sharedMounts := 0, maxAsyncEngines }
    dead := []
    routed := [] }

/-- The workload of a group. -/
def routedWorkload (out : Groups) (group : Nat) : RoutedWorkload :=
  { device := out.devices.getD group 0
    block := out.blocks.getD group 0
    depth := out.depths.getD group 0
    registerBuffers := out.registers.getD group false }

/-- Routing a submission: the files of a group go to the engine of its mount. -/
def Routing.submit (s : Routing) (env : RouterEnv) (strategy : Strategy)
    (destination : Device) (request : List FileRanges) : Routing :=
  let out := groups env strategy destination s.dead request
  { s with routed := s.routed ++ (out.byFile.reduceOption).map (routedWorkload out) }

/-- {lit}`AsyncIoWorker::engine_is_dead`, with the listener that the factory bound. -/
def Routing.engineIsDead (s : Routing) (e : Nat) : Option Routing :=
  match s.pools.engines[e]? with
  | none => none
  | some engine =>
      if engine.dead then some s
      else some
        { s with
          pools := { s.pools with engines := s.pools.engines.set e { engine with dead := true } }
          dead := s.dead ++ [engine.device] }

/-- The transition function. -/
def Routing.step (s : Routing) : RoutingAction → Option Routing
  | .submit env strategy destination request =>
      some (s.submit env strategy destination request)
  | .push i pending =>
      match s.routed[i]? with
      | none => none
      | some w =>
          match s.pools.pushAsync w.device w.block w.depth w.registerBuffers pending with
          | .error _ => none
          | .ok pools => some { s with pools, routed := s.routed.eraseIdx i }
  | .fail e => s.engineIsDead e

/-! ## What is bound and what is reported -/

/-- The mount is bound to the engine with this number. -/
def Routing.boundTo (s : Routing) (dev e : Nat) (engine : AsyncEngine) : Prop :=
  s.pools.byDevice.lookup dev = some e ∧ s.pools.engines[e]? = some engine

/-- Engines serve the mount they were made for, and dead ones report exactly that mount. -/
structure RoutingInv (s : Routing) : Prop where
  bound : ∀ dev e, s.pools.byDevice.lookup dev = some e → e < s.pools.engines.length
  creator : ∀ (e : Nat) (engine : AsyncEngine), s.pools.engines[e]? = some engine →
    s.pools.byDevice.lookup engine.device = some e
  reported : ∀ dev, dev ∈ s.dead ↔
    ∃ (e : Nat) (engine : AsyncEngine), s.pools.engines[e]? = some engine ∧
      engine.device = dev ∧ engine.dead = true

theorem leastLoaded_mem {pending : Nat → Nat} {es : List Nat} {best : Option Nat} {e : Nat}
    (h : leastLoaded pending es best = some e) : e ∈ es ∨ best = some e := by
  induction es generalizing best with
  | nil => exact Or.inr h
  | cons x xs ih =>
      cases best with
      | none =>
          rcases ih h with hmem | heq
          · exact Or.inl (List.mem_cons_of_mem _ hmem)
          · cases heq
            exact Or.inl List.mem_cons_self
      | some b =>
          rcases ih h with hmem | heq
          · exact Or.inl (List.mem_cons_of_mem _ hmem)
          · split at heq
            · cases heq
              exact Or.inl List.mem_cons_self
            · exact Or.inr heq

theorem mem_ofKind_lt {pools : AsyncPools} {depth e : Nat} {registerBuffers : Bool}
    (h : e ∈ pools.ofKind depth registerBuffers) : e < pools.engines.length :=
  List.mem_range.1 (List.mem_filter.1 h).1

/-- Binding a mount keeps what is bound and what is reported. -/
theorem RoutingInv.pushAsync {s : Routing} (h : RoutingInv s) {device block depth : Nat}
    {registerBuffers : Bool} {pending : Nat → Nat} {pools : AsyncPools}
    (hpush : s.pools.pushAsync device block depth registerBuffers pending = .ok pools)
    (routed : List RoutedWorkload) : RoutingInv { s with pools, routed } := by
  unfold AsyncPools.pushAsync at hpush
  cases hlookup : s.pools.byDevice.lookup device with
  | some e =>
      simp only [hlookup, Except.ok.injEq] at hpush
      subst hpush
      exact ⟨h.bound, h.creator, h.reported⟩
  | none =>
      simp only [hlookup] at hpush
      have hother : ∀ (e : Nat) (engine : AsyncEngine), s.pools.engines[e]? = some engine →
          engine.device ≠ device := by
        intro e engine hengine heq
        have hbound := h.creator e engine hengine
        rw [heq, hlookup] at hbound
        cases hbound
      split at hpush
      · -- a new engine, whose worker reports this mount
        simp only [Except.ok.injEq] at hpush
        subst hpush
        refine ⟨?_, ?_, ?_⟩
        · intro dev e hbound
          simp only [List.length_append, List.length_singleton]
          by_cases hdev : dev = device
          · subst hdev
            rw [AList.lookup_insert] at hbound
            cases hbound
            omega
          · rw [AList.lookup_insert_ne hdev] at hbound
            have hlt := h.bound dev e hbound
            omega
        · intro e engine hengine
          rcases getElem?_concat_cases hengine with hold | ⟨rfl, rfl⟩
          · exact (AList.lookup_insert_ne (hother e engine hold)).trans (h.creator e engine hold)
          · exact AList.lookup_insert _
        · intro dev
          rw [h.reported dev]
          constructor
          · rintro ⟨e, engine, hengine, hdev, hdead⟩
            exact ⟨e, engine, getElem?_concat_of_some hengine _, hdev, hdead⟩
          · rintro ⟨e, engine, hengine, hdev, hdead⟩
            rcases getElem?_concat_cases hengine with hold | ⟨-, rfl⟩
            · exact ⟨e, engine, hold, hdev, hdead⟩
            · cases hdead
      · -- at the cap: the mount shares an engine that reports another mount
        cases hleast : leastLoaded pending (s.pools.ofKind depth registerBuffers) none with
        | none => simp [hleast] at hpush
        | some shared =>
            simp only [hleast, Except.ok.injEq] at hpush
            subst hpush
            have hlt : shared < s.pools.engines.length := by
              rcases leastLoaded_mem hleast with hmem | hnone
              · exact mem_ofKind_lt hmem
              · cases hnone
            refine ⟨?_, ?_, h.reported⟩
            · intro dev e hbound
              by_cases hdev : dev = device
              · subst hdev
                rw [AList.lookup_insert] at hbound
                cases hbound
                exact hlt
              · rw [AList.lookup_insert_ne hdev] at hbound
                exact h.bound dev e hbound
            · intro e engine hengine
              exact (AList.lookup_insert_ne (hother e engine hengine)).trans
                (h.creator e engine hengine)

/-- An engine that dies reports the mount it was made for. -/
theorem RoutingInv.engineIsDead {s s' : Routing} (h : RoutingInv s) {e : Nat}
    (hstep : s.engineIsDead e = some s') : RoutingInv s' := by
  unfold Routing.engineIsDead at hstep
  cases hengine : s.pools.engines[e]? with
  | none => simp [hengine] at hstep
  | some engine =>
      simp only [hengine] at hstep
      split at hstep
      · cases hstep
        exact h
      · cases hstep
        have hget := getElem?_set_of_some hengine { engine with dead := true }
        refine ⟨?_, ?_, ?_⟩
        · intro dev k hbound
          rw [List.length_set]
          exact h.bound dev k hbound
        · intro k x hx
          rw [hget] at hx
          split at hx
          · rename_i hk
            cases hx
            subst hk
            exact h.creator k engine hengine
          · exact h.creator k x hx
        · intro dev
          rw [List.mem_append, List.mem_singleton, h.reported dev]
          constructor
          · rintro (⟨k, x, hx, hdev, hdead⟩ | rfl)
            · by_cases hk : k = e
              · subst hk
                obtain rfl := Option.some.inj (hengine.symm.trans hx)
                exact ⟨k, { engine with dead := true }, by rw [hget, if_pos rfl], hdev, rfl⟩
              · exact ⟨k, x, by rw [hget, if_neg hk]; exact hx, hdev, hdead⟩
            · exact ⟨e, { engine with dead := true }, by rw [hget, if_pos rfl], rfl, rfl⟩
          · rintro ⟨k, x, hx, hdev, hdead⟩
            rw [hget] at hx
            split at hx
            · cases hx
              exact Or.inr hdev.symm
            · exact Or.inl ⟨k, x, hx, hdev, hdead⟩

/-- Every step keeps what is bound and what is reported. -/
theorem RoutingInv.step {s s' : Routing} {action : RoutingAction} (h : RoutingInv s)
    (hstep : s.step action = some s') : RoutingInv s' := by
  cases action with
  | submit env strategy destination request =>
      cases hstep
      exact ⟨h.bound, h.creator, h.reported⟩
  | push i pending =>
      simp only [Routing.step] at hstep
      split at hstep
      · cases hstep
      · split at hstep
        · cases hstep
        · rename_i hpush
          cases hstep
          exact h.pushAsync hpush _
  | fail e => exact h.engineIsDead hstep

/-- A mount that is bound is reported exactly when it made its engine and that one is dead. -/
theorem RoutingInv.mem_dead_iff {s : Routing} (h : RoutingInv s) {dev e : Nat}
    {engine : AsyncEngine} (hbound : s.boundTo dev e engine) :
    dev ∈ s.dead ↔ engine.device = dev ∧ engine.dead = true := by
  rw [h.reported dev]
  constructor
  · rintro ⟨k, x, hx, hdev, hdead⟩
    have hk := h.creator k x hx
    rw [hdev, hbound.1] at hk
    obtain rfl := Option.some.inj hk
    obtain rfl := Option.some.inj (hbound.2.symm.trans hx)
    exact ⟨hdev, hdead⟩
  · rintro ⟨hdev, hdead⟩
    exact ⟨e, engine, hbound.2, hdev, hdead⟩

/-! ## Where files are routed -/

/-- The groups send the file at this position to the engine of the mount. -/
def Groups.RoutesTo (out : Groups) (i dev : Nat) : Prop :=
  ∃ group, out.byFile[i]? = some (some group) ∧ out.devices[group]? = some dev

theorem deviceOf_eq_some {devices : List Nat} {group : Option Nat} {dev : Nat} :
    deviceOf devices group = some dev ↔ ∃ g, group = some g ∧ devices[g]? = some dev := by
  cases group with
  | none => simp [deviceOf]
  | some g => simp [deviceOf]

/-- A file is sent to the engine of a mount exactly when it is on that mount and may be. -/
theorem groups_routesTo {env : RouterEnv} {strategy : Strategy} {destination : Device}
    {dead : List Nat} {request : List FileRanges} {i dev : Nat} :
    (groups env strategy destination dead request).RoutesTo i dev ↔
      strategy.isAsync = true ∧ ∃ file, request[i]? = some file ∧
        asyncDevice env strategy destination dead file = some dev := by
  by_cases hasync : strategy.isAsync = true
  · have hfiles := congrArg (fun xs => xs[i]?)
      (groups_spec env hasync destination dead request)
    simp only [List.getElem?_map] at hfiles
    have hroutes : (groups env strategy destination dead request).RoutesTo i dev ↔
        (request[i]?.map (asyncDevice env strategy destination dead)) = some (some dev) := by
      rw [← hfiles, Option.map_eq_some_iff]
      constructor
      · rintro ⟨g, hg, hdev⟩
        exact ⟨some g, hg, deviceOf_eq_some.2 ⟨g, rfl, hdev⟩⟩
      · rintro ⟨group, hgroup, hdev⟩
        obtain ⟨g, rfl, hget⟩ := deviceOf_eq_some.1 hdev
        exact ⟨g, hgroup, hget⟩
    rw [hroutes, Option.map_eq_some_iff]
    simp [hasync]
  · constructor
    · rintro ⟨g, hg, -⟩
      rw [groups, if_neg hasync] at hg
      simp only [List.getElem?_map, Option.map_eq_some_iff] at hg
      obtain ⟨_, _, hnone⟩ := hg
      cases hnone
    · rintro ⟨htrue, -⟩
      exact absurd htrue hasync

/-- A reported mount is not read asynchronously. -/
theorem asyncDevice_ne_of_mem {env : RouterEnv} {strategy : Strategy} {destination : Device}
    {dead : List Nat} {file : FileRanges} {dev : Nat} (hdev : dev ∈ dead) :
    asyncDevice env strategy destination dead file ≠ some dev := by
  intro heq
  simp only [asyncDevice, asyncMount] at heq
  split at heq
  · cases heq
  · split at heq
    · cases heq
    · rename_i d hmount
      split at heq
      · cases heq
      · cases heq
        split at hmount
        · cases hmount
        · split at hmount
          · cases hmount
          · rename_i hkeep
            cases hmount
            exact hkeep (Or.inl hdev)

/-- The reports about other mounts do not matter to a mount. -/
theorem asyncDevice_congr {env : RouterEnv} {strategy : Strategy} {destination : Device}
    {dead : List Nat} {file : FileRanges} {dev : Nat} (hdev : dev ∉ dead) :
    asyncDevice env strategy destination dead file = some dev ↔
      asyncDevice env strategy destination [] file = some dev := by
  simp only [asyncDevice, asyncMount]
  cases env.mount (directoryOf file.path) with
  | none => rfl
  | some capability =>
      by_cases heq : capability.dev = dev
      · subst heq
        simp [hdev]
      · by_cases hmemory : capability.memoryBacked = true
        · simp [hmemory]
        · by_cases hskip : capability.dev ∈ dead <;> simp [hskip, hmemory, heq]

/-- No submission whatever is routed to the engine of the mount. -/
def NeverRouted (dead : List Nat) (dev : Nat) : Prop :=
  ∀ env strategy destination request i,
    ¬ (groups env strategy destination dead request).RoutesTo i dev

/-- A machine with one mount. -/
def oneMount (dev : Nat) : RouterEnv where
  mount := fun _ => some ⟨dev, false, []⟩
  direct := fun _ _ => .unknown
  directBlock := fun _ _ => 0
  defaultBlock := 4096
  depthFor := fun _ => 8
  registers := fun _ => false

/-- Exactly the reported mounts are never read asynchronously. -/
theorem neverRouted_iff {dead : List Nat} {dev : Nat} : NeverRouted dead dev ↔ dev ∈ dead := by
  constructor
  · intro hnever
    by_contra hdev
    apply hnever (oneMount dev) .ioUringBuffered ⟨.cpu, 0⟩ [⟨['x'], [⟨0, 1, 0⟩]⟩] 0
    apply groups_routesTo.2
    refine ⟨rfl, _, rfl, ?_⟩
    simp [asyncDevice, asyncMount, oneMount, hdev]
  · intro hdev env strategy destination request i hroutes
    obtain ⟨-, file, -, hdevice⟩ := groups_routesTo.1 hroutes
    exact asyncDevice_ne_of_mem hdev hdevice

theorem routingInv_start (maxAsyncEngines : Nat) :
    RoutingInv (Routing.start maxAsyncEngines) := by
  refine ⟨?_, ?_, ?_⟩ <;> simp [Routing.start]

/--
In every state that a streamer can reach, whatever the cap: a mount of a dead engine is
never routed to it again exactly when the engine was made for that mount, and a mount of an
engine that is not dead is routed as if no engine had died.
-/
theorem dead_engine_routing {maxAsyncEngines : Nat} {actions : List RoutingAction}
    {s : Routing} (hrun : run Routing.step (Routing.start maxAsyncEngines) actions = some s)
    {dev e : Nat} {engine : AsyncEngine} (hbound : s.boundTo dev e engine) :
    (engine.dead = true → (NeverRouted s.dead dev ↔ engine.device = dev)) ∧
      (engine.dead = false → ∀ env strategy destination request i,
        (groups env strategy destination s.dead request).RoutesTo i dev ↔
          (groups env strategy destination [] request).RoutesTo i dev) := by
  have hinv : RoutingInv s :=
    run_invariant (fun _ _ _ h hstep => h.step hstep) (routingInv_start maxAsyncEngines) hrun
  constructor
  · intro hdead
    rw [neverRouted_iff, hinv.mem_dead_iff hbound]
    simp [hdead]
  · intro halive env strategy destination request i
    have hdev : dev ∉ s.dead := by
      rw [hinv.mem_dead_iff hbound]
      simp [halive]
    rw [groups_routesTo, groups_routesTo]
    simp only [asyncDevice_congr hdev]

/-- A machine with two mounts of the same kind. -/
def twoMounts : RouterEnv :=
  { oneMount 1 with
    mount := fun directory => some ⟨if directory = ['b'] then 2 else 1, false, []⟩ }

/-- A file of eight bytes in the directory. -/
def oneFile (directory : Char) : List FileRanges :=
  [⟨[directory, '/', 'x'], [⟨0, 8, 4096⟩]⟩]

/-- Read a file of each mount, and let the engine fail. -/
def failingActions : List RoutingAction :=
  [.submit twoMounts .ioUringBuffered ⟨.cpu, 0⟩ (oneFile 'a'), .push 0 fun _ => 0,
    .submit twoMounts .ioUringBuffered ⟨.cpu, 0⟩ (oneFile 'b'), .push 0 fun _ => 0,
    .fail 0]

theorem dead_engine_routing_creator :
    ∃ s, run Routing.step (Routing.start 1) failingActions = some s ∧ NeverRouted s.dead 1 := by
  have hrun : ∃ s, run Routing.step (Routing.start 1) failingActions = some s ∧
      s.boundTo 1 0 ⟨1, 0, 8, false, true⟩ := ⟨_, rfl, rfl, rfl⟩
  obtain ⟨s, hs, hbound⟩ := hrun
  exact ⟨s, hs, ((dead_engine_routing hs hbound).1 rfl).2 rfl⟩

/--
Two mounts share the only engine, which was made for the first one.  After it failed, the
files of the second mount are still routed to it.
-/
theorem shared_engine_keeps_mount :
    ∃ s, run Routing.step (Routing.start 1) failingActions = some s ∧
      s.boundTo 2 0 ⟨1, 0, 8, false, true⟩ ∧
      (groups twoMounts .ioUringBuffered ⟨.cpu, 0⟩ s.dead (oneFile 'b')).RoutesTo 0 2 := by
  have hrun : run Routing.step (Routing.start 1) failingActions = some _ := rfl
  exact ⟨_, hrun, ⟨rfl, rfl⟩, 0, rfl, rfl⟩

end AsyncIo
end ModelStreamer
