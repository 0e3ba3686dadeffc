import ModelStreamer.Lib.Word
import ModelStreamer.PosixIo.IoUringQueue

/-!
# Registered memory of the io_uring engine

The engine registers a region when a read is first offered with it, and names the region in the
reads that land in it.  An owner that always means the same memory by a number gets no read that
names a region it does not land in; and registration, granted or refused, changes nothing that
the owner sees.

Main results:

- Theorem {lit}`fixed_reads_land`: a read that names a region lands inside it, and the kernel is
  asked once for the table and once for a region.
- Theorem {lit}`registration_costs_no_read`: for such an owner an engine that may register does
  what one does that may not.
-/

namespace ModelStreamer
namespace PosixIo

open Common Lib

/-! ## Fixed reads -/

/-- The region that a call offers. -/
def IoUringCall.offers : IoUringCall → List Registration
  | .stage _ _ _ _ _ registration _ => if registration.valid then [registration] else []
  | _ => []

/-- The buffer and the region of a call end inside the address space. -/
def IoUringCall.Addressable : IoUringCall → Prop
  | .stage _ _ _ bytesize buffer registration _ =>
      buffer.toNat + bytesize < 2 ^ 64 ∧ registration.base.toNat + registration.bytesize < 2 ^ 64
  | _ => True

instance decidableAddressable : DecidablePred IoUringCall.Addressable
  | .stage _ _ _ _ _ _ _ => inferInstanceAs (Decidable (_ ∧ _))
  | .flush _ => .isTrue trivial
  | .lands _ _ => .isTrue trivial
  | .wait _ _ _ _ => .isTrue trivial

/-- The owner means this memory by the numbers of its regions. -/
def Names (memory : Nat → Registration) (call : IoUringCall) : Prop :=
  ∀ registration ∈ call.offers, registration = memory registration.id

instance decidableNames (memory : Nat → Registration) : DecidablePred (Names memory) :=
  fun _ => inferInstanceAs (Decidable (∀ registration ∈ _, _))

/-- The kernel's table holds the regions that the engine counts on. -/
structure BuffersHold (memory : Nat → Registration) (e : IoUringEngine) (k : RingKernel) :
    Prop where
  /-- What is registered under a number is what the owner means by it. -/
  table : ∀ id region, k.buffers.lookup id = some region →
    region = ((memory id).base, (memory id).bytesize)
  registered : ∀ id, e.regions[id]? = some .registered → ∃ region, k.buffers.lookup id = some region
  /-- The kernel was asked for the regions that the engine knows about. -/
  asked : ∀ id, id ∈ k.regionsAsked ↔
    e.regions[id]? = some .registered ∨ e.regions[id]? = some .refused
  asked_nodup : k.regionsAsked.Nodup
  tables : k.tablesAsked ≤ 1
  /-- A table that was asked for was granted, or there is none. -/
  untabled : e.table = false → e.fixedBuffers = true → k.tablesAsked = 0

/-- A read that names a region lands in what the kernel holds under that number. -/
def FixedReadsLand (k : RingKernel) (sqes : List Sqe) : Prop :=
  ∀ sqe ∈ sqes, ∀ index, sqe.bufIndex = some index →
    ∃ region, k.buffers.lookup index = some region ∧ sqe.Lands region

section Buffers

variable {memory : Nat → Registration} {e : IoUringEngine} {k : RingKernel} {s : IoUringRun}
  {call : IoUringCall}

/-- Room for a region that is not known adds nothing that is. -/
theorem IoUringEngine.grow_known (id other : Nat) {state : RegionState} (hknown : state ≠ .unknown) :
    (e.grow id).regions[other]? = some state ↔ e.regions[other]? = some state := by
  unfold IoUringEngine.grow
  dsimp only
  by_cases hlt : other < e.regions.length
  · rw [List.getElem?_append_left hlt]
  · rw [List.getElem?_append_right (by omega),
      List.getElem?_eq_none (by omega : e.regions.length ≤ other)]
    constructor
    · intro h
      exact absurd (List.eq_of_mem_replicate (List.mem_of_getElem? h)) hknown
    · intro h
      cases h

/-- The vector has a place for the region. -/
theorem IoUringEngine.lt_grow (id : Nat) : id < (e.grow id).regions.length := by
  unfold IoUringEngine.grow
  dsimp only
  rw [List.length_append, List.length_replicate]
  omega

theorem BuffersHold.grow (h : BuffersHold memory e k) (id : Nat) :
    BuffersHold memory (e.grow id) k where
  table := h.table
  registered other hother := h.registered other ((e.grow_known id other (by decide)).1 hother)
  asked other := by
    rw [h.asked other, e.grow_known id other (by decide), e.grow_known id other (by decide)]
  asked_nodup := h.asked_nodup
  tables := h.tables
  untabled := h.untabled

/-- The kernel was asked for the regions that the engine knows about, and for one more. -/
theorem IoUringEngine.setRegion_known {id : Nat} {state : RegionState}
    (hlt : id < e.regions.length) (hstate : state = .registered ∨ state = .refused) (other : Nat) :
    ((e.setRegion id state).regions[other]? = some .registered ∨
        (e.setRegion id state).regions[other]? = some .refused) ↔
      (e.regions[other]? = some .registered ∨ e.regions[other]? = some .refused) ∨ other = id := by
  unfold IoUringEngine.setRegion
  dsimp only
  by_cases hsame : other = id
  · rw [hsame, List.getElem?_set_self hlt]
    simpa using hstate
  · rw [List.getElem?_set_ne (Ne.symm hsame)]
    simp [hsame]

/-- What the owner sees of a registration that went through: the index, which the kernel holds,
and every region that was registered before. -/
structure Indexed (memory : Nat → Registration) (registration : Registration) (k : RingKernel)
    (r : Option Nat × IoUringEngine × RingKernel) : Prop where
  holds : BuffersHold memory r.2.1 r.2.2
  kept : ∀ id region, k.buffers.lookup id = some region → r.2.2.buffers.lookup id = some region
  index : ∀ id, r.1 = some id →
    r.2.2.buffers.lookup id = some (registration.base, registration.bytesize)

/-- A region that the kernel is asked for is registered or refused from then on. -/
theorem BuffersHold.register (h : BuffersHold memory e k) {registration : Registration}
    (hnames : registration = memory registration.id) (hlt : registration.id < e.regions.length)
    (hregistered : e.regions[registration.id]? ≠ some .registered)
    (hrefused : e.regions[registration.id]? ≠ some .refused) (hfixed : e.fixedBuffers = true)
    (answer : RegisterAnswer) :
    Indexed memory registration k (e.register k registration answer) := by
  have hnew : registration.id ∉ k.regionsAsked := by
    rw [h.asked]
    exact fun hor => hor.elim hregistered hrefused
  have hasked : (k.regionsAsked ++ [registration.id]).Nodup :=
    List.nodup_append.2 ⟨h.asked_nodup, List.nodup_singleton _, by
      intro id hid other hother hsame
      rw [List.mem_singleton.1 hother] at hsame
      exact hnew (hsame ▸ hid)⟩
  have hk : (if e.table then k else { k with tablesAsked := k.tablesAsked + 1 }) =
      { k with tablesAsked := if e.table then k.tablesAsked else k.tablesAsked + 1 } := by
    split <;> rfl
  have htables : (if e.table then k.tablesAsked else k.tablesAsked + 1) ≤ 1 := by
    cases htable : e.table with
    | true => exact h.tables
    | false =>
        rw [h.untabled htable hfixed]
        exact Nat.le_refl 1
  have hadded : ∀ {state : RegionState}, state = .registered ∨ state = .refused → ∀ id,
      id ∈ k.regionsAsked ++ [registration.id] ↔
        (e.setRegion registration.id state).regions[id]? = some .registered ∨
          (e.setRegion registration.id state).regions[id]? = some .refused := by
    intro state hstate id
    rw [e.setRegion_known hlt hstate, List.mem_append, List.mem_singleton, h.asked]
  unfold IoUringEngine.register
  rw [hk]
  dsimp only
  split
  case isTrue =>
    exact ⟨⟨h.table, h.registered, h.asked, h.asked_nodup, htables, fun _ hoff => nomatch hoff⟩,
      fun _ _ hregion => hregion, fun _ hindex => nomatch hindex⟩
  case isFalse =>
    split
    case isTrue =>
      refine ⟨⟨h.table, fun id hid => ?_, hadded (Or.inr rfl), hasked, htables,
        fun htable => nomatch htable⟩, fun _ _ hregion => hregion, fun _ hindex => nomatch hindex⟩
      by_cases hsame : id = registration.id
      · unfold IoUringEngine.setRegion at hid
        dsimp only at hid
        rw [hsame, List.getElem?_set_self hlt] at hid
        cases hid
      · unfold IoUringEngine.setRegion at hid
        dsimp only at hid
        rw [List.getElem?_set_ne (Ne.symm hsame)] at hid
        exact h.registered id hid
    case isFalse =>
      have hlookup : ∀ id, Table.lookup
          ((registration.id, registration.base, registration.bytesize) :: k.buffers) id =
          if registration.id = id then some (registration.base, registration.bytesize)
          else k.buffers.lookup id :=
        fun id => Table.lookup_cons _ _ id
      refine ⟨⟨fun id region hregion => ?_, fun id hid => ?_, hadded (Or.inl rfl), hasked, htables,
        fun htable => nomatch htable⟩, fun id region hregion => ?_, fun id hindex => ?_⟩
      · rw [hlookup] at hregion
        split at hregion
        case isTrue hsame =>
          cases hregion
          rw [← hsame, ← hnames]
        case isFalse => exact h.table id region hregion
      · rw [hlookup]
        by_cases hsame : registration.id = id
        · exact ⟨_, if_pos hsame⟩
        · unfold IoUringEngine.setRegion at hid
          dsimp only at hid
          rw [List.getElem?_set_ne hsame] at hid
          rw [if_neg hsame]
          exact h.registered id hid
      · rw [hlookup]
        split
        case isTrue hsame =>
          rw [h.table id region hregion, ← hsame, ← hnames]
        case isFalse => exact hregion
      · cases hindex
        rw [hlookup, if_pos rfl]

/-- The index that a read is given is that of a region which the kernel holds. -/
theorem BuffersHold.registeredIndex (h : BuffersHold memory e k) {registration : Registration}
    (hnames : registration = memory registration.id) (answer : RegisterAnswer) :
    Indexed memory registration k (e.registeredIndex k registration answer) := by
  unfold IoUringEngine.registeredIndex
  split
  case isTrue => exact ⟨h, fun _ _ hregion => hregion, fun _ hindex => nomatch hindex⟩
  case isFalse hcan =>
    split
    case isTrue =>
      exact ⟨⟨h.table, h.registered, h.asked, h.asked_nodup, h.tables, h.untabled⟩,
        fun _ _ hregion => hregion, fun _ hindex => nomatch hindex⟩
    case isFalse =>
      have hgrown := h.grow registration.id
      have hfixed : e.fixedBuffers = true := by
        cases hfixed : e.fixedBuffers with
        | true => rfl
        | false => simp [hfixed] at hcan
      dsimp only
      split
      case h_1 hstate =>
        refine ⟨hgrown, fun _ _ hregion => hregion, fun id hindex => ?_⟩
        cases hindex
        rcases hgrown.registered _ hstate with ⟨region, hregion⟩
        have hmemory := h.table _ _ hregion
        rw [← hnames] at hmemory
        rw [← hmemory]
        exact hregion
      case h_2 => exact ⟨hgrown, fun _ _ hregion => hregion, fun _ hindex => nomatch hindex⟩
      case h_3 hregistered hrefused =>
        exact hgrown.register hnames (e.lt_grow _) hregistered hrefused hfixed answer

/-- A read that is offered with a region of its own lands in it. -/
theorem offersThisBuffer_inside {registration : Registration} {buffer : BitVec 64} {bytesize : Nat}
    (hoffers : offersThisBuffer registration buffer bytesize = true)
    (hbuffer : buffer.toNat + bytesize < 2 ^ 64)
    (hregion : registration.base.toNat + registration.bytesize < 2 ^ 64) :
    registration.valid = true ∧ registration.base.toNat ≤ buffer.toNat ∧
      buffer.toNat + bytesize ≤ registration.base.toNat + registration.bytesize := by
  unfold offersThisBuffer at hoffers
  split at hoffers
  case isTrue => cases hoffers
  case isFalse hvalid =>
    rcases of_decide_eq_true hoffers with ⟨hbase, hend⟩
    rw [BitVec.le_def] at hbase hend
    rw [BitVec.toNat_add, BitVec.toNat_add, BitVec.toNat_ofNat, BitVec.toNat_ofNat] at hend
    refine ⟨by simpa using hvalid, hbase, ?_⟩
    omega

/-- The length of an entry is no more than what was asked for. -/
theorem prepReadLength_le (bytesize : Nat) : prepReadLength bytesize ≤ bytesize :=
  Nat.mod_le _ _

/-- Reads that land in a region still do when more regions are registered. -/
theorem FixedReadsLand.mono {k' : RingKernel} {sqes : List Sqe} (h : FixedReadsLand k sqes)
    (hkept : ∀ id region, k.buffers.lookup id = some region → k'.buffers.lookup id = some region) :
    FixedReadsLand k' sqes := by
  intro sqe hsqe index hindex
  rcases h sqe hsqe index hindex with ⟨region, hregion, hlands⟩
  exact ⟨region, hkept _ _ hregion, hlands⟩

/-- What holds of an engine whose owner names its memory consistently. -/
structure BufferedHold (memory : Nat → Registration) (s : IoUringRun) : Prop where
  holds : BuffersHold memory s.engine s.kernel
  prepared : FixedReadsLand s.kernel s.engine.prepared
  reads : FixedReadsLand s.kernel s.kernel.reads

/-- A stage keeps what holds: its read names no region or lands in the one that it names. -/
theorem BufferedHold.stage (h : BufferedHold memory s) {id : Nat} {file : FileRef}
    {offset bytesize : Nat} {buffer : BitVec 64} {registration : Registration}
    {answer : RegisterAnswer}
    (hnames : Names memory (.stage id file offset bytesize buffer registration answer))
    (hinside : buffer.toNat + bytesize < 2 ^ 64 ∧
      registration.base.toNat + registration.bytesize < 2 ^ 64) :
    BufferedHold memory
      (ioUringNext s (.stage id file offset bytesize buffer registration answer)) := by
  have hkept := IoUringEngine.indexFor_registers (e := s.engine) (k := s.kernel) bytesize buffer
    registration answer
  rcases hindex : s.engine.indexFor s.kernel bytesize buffer registration answer with
    ⟨index, e, k⟩
  rw [hindex] at hkept
  have hindexed : BuffersHold memory e k ∧
      (∀ id region, s.kernel.buffers.lookup id = some region →
        k.buffers.lookup id = some region) ∧
      ∀ id, index = some id → ∃ region, k.buffers.lookup id = some region ∧
        region.1.toNat ≤ buffer.toNat ∧
          buffer.toNat + bytesize ≤ region.1.toNat + region.2 := by
    unfold IoUringEngine.indexFor at hindex
    split at hindex
    case isFalse =>
      cases hindex
      exact ⟨h.holds, fun _ _ hregion => hregion, fun _ hnone => nomatch hnone⟩
    case isTrue hoffers =>
      rcases offersThisBuffer_inside hoffers hinside.1 hinside.2 with ⟨hvalid, hlands⟩
      have hmemory : registration = memory registration.id := by
        refine hnames registration ?_
        unfold IoUringCall.offers
        dsimp only
        rw [if_pos hvalid]
        exact List.mem_singleton_self _
      have hdone := h.holds.registeredIndex hmemory answer
      rw [hindex] at hdone
      exact ⟨hdone.holds, hdone.kept, fun id hid => ⟨_, hdone.index id hid, hlands⟩⟩
  rcases hindexed with ⟨hholds, htable, hfixed⟩
  have hreads : FixedReadsLand k k.reads := by
    have hsame : k.reads = s.kernel.reads := hkept.reads
    rw [hsame]
    exact h.reads.mono htable
  have hprepared : FixedReadsLand k e.prepared := by
    have hsame : e.prepared = s.engine.prepared := hkept.prepared
    rw [hsame]
    exact h.prepared.mono htable
  unfold ioUringNext IoUringEngine.stage
  unfold IoUringEngine.indexFor at hindex
  dsimp only
  rw [hindex]
  dsimp only
  split
  case isTrue => exact ⟨hholds, hprepared, hreads⟩
  case isFalse =>
    refine ⟨⟨hholds.table, hholds.registered, hholds.asked, hholds.asked_nodup, hholds.tables,
      hholds.untabled⟩, ?_, hreads⟩
    intro sqe hsqe index' hindex'
    rcases List.mem_append.1 hsqe with hold | hnew
    · exact hprepared sqe hold index' hindex'
    · rw [List.mem_singleton.1 hnew] at hindex' ⊢
      rcases hfixed index' hindex' with ⟨region, hregion, hbase, hend⟩
      refine ⟨region, hregion, hbase, ?_⟩
      have hlen := prepReadLength_le bytesize
      change buffer.toNat + prepReadLength bytesize ≤ _
      omega

/-- A flush only moves reads. -/
theorem BufferedHold.flush (h : BufferedHold memory s) (ret : Int) :
    BufferedHold memory (ioUringNext s (.flush ret)) := by
  have hmoved : ∀ count : Nat, FixedReadsLand s.kernel
      (s.kernel.reads ++ s.engine.prepared.take count) := by
    intro count sqe hsqe
    rcases List.mem_append.1 hsqe with hold | hnew
    · exact h.reads sqe hold
    · exact h.prepared sqe (List.mem_of_mem_take hnew)
  have hleft : ∀ count : Nat, FixedReadsLand s.kernel (s.engine.prepared.drop count) :=
    fun count sqe hsqe => h.prepared sqe (List.mem_of_mem_drop hsqe)
  have hholds := h.holds
  unfold ioUringNext IoUringEngine.flush
  dsimp only
  split_ifs
  case pos => exact ⟨hholds, h.prepared, h.reads⟩
  case pos => exact ⟨hholds, h.prepared, h.reads⟩
  case neg => exact ⟨hholds, h.prepared, h.reads⟩
  all_goals
    exact ⟨⟨hholds.table, hholds.registered, hholds.asked, hholds.asked_nodup, hholds.tables,
      hholds.untabled⟩, hleft _, hmoved _⟩

/-- A read that ends leaves the table as it is. -/
theorem BufferedHold.lands (h : BufferedHold memory s) (index : Nat) (res : Int) :
    BufferedHold memory (ioUringNext s (.lands index res)) := by
  have hholds := h.holds
  have hleft : FixedReadsLand s.kernel (s.kernel.reads.eraseIdx index) :=
    fun sqe hsqe => h.reads sqe (List.mem_of_mem_eraseIdx hsqe)
  unfold ioUringNext RingKernel.lands
  dsimp only
  split
  · exact h
  · split_ifs
    all_goals
      exact ⟨⟨hholds.table, hholds.registered, hholds.asked, hholds.asked_nodup, hholds.tables,
        hholds.untabled⟩, h.prepared, hleft⟩

/-- A wait leaves the table as it is. -/
theorem BufferedHold.wait (h : BufferedHold memory s) (max : Nat) (block : Bool)
    (timeoutMs : Nat) (answer : Option (Nat × Nat) → Int) :
    BufferedHold memory (ioUringNext s (.wait max block timeoutMs answer)) := by
  have hholds := h.holds
  unfold ioUringNext IoUringEngine.waitForCompletions
  dsimp only
  split_ifs
  all_goals
    exact ⟨⟨hholds.table, hholds.registered, hholds.asked, hholds.asked_nodup, hholds.tables,
      hholds.untabled⟩, h.prepared, h.reads⟩

/-- One call of an owner that names its memory consistently. -/
theorem BufferedHold.step (h : BufferedHold memory s) (hnames : Names memory call)
    (hinside : call.Addressable) : BufferedHold memory (ioUringNext s call) := by
  cases call with
  | stage id file offset bytesize buffer registration answer => exact h.stage hnames hinside
  | flush ret => exact h.flush ret
  | lands index res => exact h.lands index res
  | wait max block timeoutMs answer => exact h.wait max block timeoutMs answer

/-- A new engine has registered nothing. -/
theorem BufferedHold.start (memory : Nat → Registration) (ringEntries : UInt32)
    (registerBuffers fixedBuffers : Bool) :
    BufferedHold memory (.start ringEntries registerBuffers fixedBuffers) where
  holds :=
    { table := fun _ _ hregion => nomatch hregion
      registered := fun _ hregion => nomatch hregion
      asked := by
        intro id
        simp [IoUringRun.start, IoUringEngine.make]
      asked_nodup := List.nodup_nil
      tables := Nat.zero_le _
      untabled := fun _ _ => rfl }
  prepared := fun _ hsqe => nomatch hsqe
  reads := fun _ hsqe => nomatch hsqe

/-- After every run of an owner that means the same memory by a number each time: a read that
names a region, prepared or with the kernel, lands inside what the kernel holds under that
number, and the kernel was asked at most once for a table and at most once for a region. -/
theorem fixed_reads_land {ringEntries : UInt32} {registerBuffers fixedBuffers : Bool}
    {calls : List IoUringCall} (memory : Nat → Registration)
    (hnames : ∀ call ∈ calls, Names memory call) (hinside : ∀ call ∈ calls, call.Addressable)
    (hrun : run ioUringStep (IoUringRun.start ringEntries registerBuffers fixedBuffers) calls =
      some s) :
    FixedReadsLand s.kernel (s.engine.prepared ++ s.kernel.reads) ∧
      s.kernel.tablesAsked ≤ 1 ∧ s.kernel.regionsAsked.Nodup := by
  have hstart := BufferedHold.start memory ringEntries registerBuffers fixedBuffers
  have hend : BufferedHold memory s := by
    refine run_invariant_of ?_ hstart
      (eachStep_of_forall fun call hcall => And.intro (hnames call hcall) (hinside call hcall)) hrun
    intro s call s' hs hcall hstep
    cases hstep
    exact hs.step hcall.1 hcall.2
  refine ⟨fun sqe hsqe => ?_, hend.holds.tables, hend.holds.asked_nodup⟩
  rcases List.mem_append.1 hsqe with hprepared | hread
  · exact hend.prepared sqe hprepared
  · exact hend.reads sqe hread

/-- The memory of the owner of these calls. -/
def ringMemory (_ : Nat) : Registration :=
  { base := 64, bytesize := 16, id := 0 }

theorem fixed_reads_land_ring : ∃ s, run ioUringStep (.start 2 true true) ringCalls = some s ∧
    s.kernel.reads.map Sqe.bufIndex = [some 0] ∧
    FixedReadsLand s.kernel (s.engine.prepared ++ s.kernel.reads) := by
  have hends : ((run ioUringStep (.start 2 true true) ringCalls).map fun s =>
      s.kernel.reads.map Sqe.bufIndex) = some [some 0] := by
    decide +kernel
  rcases Option.map_eq_some_iff.1 hends with ⟨s, hrun, hfixed⟩
  have hlands := fixed_reads_land ringMemory (by decide) (by decide) hrun
  exact ⟨s, hrun, hfixed, hlands.1⟩

end Buffers

/-! ## Registration costs nothing -/

/-- The read without its region. -/
def Sqe.plain (sqe : Sqe) : Sqe :=
  { sqe with bufIndex := none }

/-- The engine without its regions. -/
def IoUringEngine.plain (e : IoUringEngine) : IoUringEngine :=
  { depth := e.depth, fixedBuffers := false, staged := e.staged
    overflowReported := e.overflowReported, prepared := e.prepared.map Sqe.plain }

/-- The kernel's side without the table. -/
def RingKernel.plain (k : RingKernel) : RingKernel :=
  { reads := k.reads.map Sqe.plain, completions := k.completions, cqEntries := k.cqEntries
    overflow := k.overflow }

/-- The engine and its ring without registration; what the owner was told stays. -/
def IoUringRun.plain (s : IoUringRun) : IoUringRun :=
  { engine := s.engine.plain, kernel := s.kernel.plain, replies := s.replies }

/-- An engine that may not register gives no index. -/
theorem IoUringEngine.plain_indexFor (e : IoUringEngine) (k : RingKernel) (bytesize : Nat)
    (buffer : BitVec 64) (registration : Registration) (answer : RegisterAnswer) :
    e.plain.indexFor k bytesize buffer registration answer = (none, e.plain, k) := by
  unfold IoUringEngine.indexFor IoUringEngine.registeredIndex
  have hoff : (!registration.valid || !e.plain.fixedBuffers) = true := by
    rw [show e.plain.fixedBuffers = false from rfl]
    simp
  rw [if_pos hoff]
  split <;> rfl

/-- Registering is not seen in the plain engine. -/
theorem Registers.plain {e e' : IoUringEngine} {k k' : RingKernel} (h : Registers e e' k k') :
    e'.plain = e.plain ∧ k'.plain = k.plain := by
  unfold IoUringEngine.plain RingKernel.plain
  rw [h.depth_eq, h.staged, h.prepared, h.reported, h.reads, h.completions, h.room, h.overflow]
  exact ⟨rfl, rfl⟩

/-- A read is staged alike. -/
theorem IoUringRun.plain_stage (s : IoUringRun) (id : Nat) (file : FileRef)
    (offset bytesize : Nat) (buffer : BitVec 64) (registration : Registration)
    (answer : RegisterAnswer) :
    (ioUringNext s (.stage id file offset bytesize buffer registration answer)).plain =
      ioUringNext s.plain (.stage id file offset bytesize buffer registration answer) := by
  have hkept := IoUringEngine.indexFor_registers (e := s.engine) (k := s.kernel) bytesize buffer
    registration answer
  have hplain := s.engine.plain_indexFor s.kernel.plain bytesize buffer registration answer
  rcases hindex : s.engine.indexFor s.kernel bytesize buffer registration answer with
    ⟨index, e, k⟩
  rw [hindex] at hkept
  rcases hkept.plain with ⟨hengine, hkernel⟩
  unfold IoUringEngine.indexFor at hindex hplain
  unfold ioUringNext IoUringEngine.stage
  dsimp only
  rw [hindex, show s.plain.engine = s.engine.plain from rfl,
    show s.plain.kernel = s.kernel.plain from rfl, hplain]
  dsimp only
  rw [show e.depth = s.engine.depth from hkept.depth_eq,
    show e.prepared = s.engine.prepared from hkept.prepared,
    show e.staged = s.engine.staged from hkept.staged,
    show s.engine.plain.depth = s.engine.depth from rfl,
    show s.engine.plain.prepared.length = s.engine.prepared.length from List.length_map ..]
  by_cases hfull : s.engine.depth ≤ s.engine.prepared.length
  · rw [if_pos hfull, if_pos hfull]
    unfold IoUringRun.plain
    dsimp only
    rw [hengine, hkernel]
  · rw [if_neg hfull, if_neg hfull]
    unfold IoUringRun.plain
    dsimp only
    rw [hkernel]
    unfold IoUringEngine.plain
    dsimp only
    rw [show e.overflowReported = s.engine.overflowReported from hkept.reported, List.map_append]
    rfl

/-- Reads are issued alike. -/
theorem IoUringRun.plain_flush (s : IoUringRun) (ret : Int) :
    (ioUringNext s (.flush ret)).plain = ioUringNext s.plain (.flush ret) := by
  unfold ioUringNext IoUringEngine.flush
  dsimp only
  rw [show s.plain.engine.staged = s.engine.staged from rfl]
  split_ifs
  case pos => rfl
  case pos => rfl
  case neg => rfl
  all_goals
    unfold IoUringRun.plain IoUringEngine.plain RingKernel.plain
    dsimp only
    rw [List.map_append, List.map_take, List.map_drop]

/-- A read that lands in the region it names ends like one that names none. -/
theorem FixedReadsLand.result {s : IoUringRun} (h : FixedReadsLand s.kernel s.kernel.reads) {read : Sqe}
    (hread : read ∈ s.kernel.reads) (res : Int) :
    s.kernel.result read res = s.kernel.plain.result read.plain res := by
  change s.kernel.result read res = res
  unfold RingKernel.result
  cases hindex : read.bufIndex with
  | none => rfl
  | some index =>
      obtain ⟨region, hregion, hlands⟩ := h read hread index hindex
      simp only [hregion, if_pos hlands]

/-- A read ends alike. -/
theorem IoUringRun.plain_lands {s : IoUringRun} (h : FixedReadsLand s.kernel s.kernel.reads) (index : Nat)
    (res : Int) :
    (ioUringNext s (.lands index res)).plain = ioUringNext s.plain (.lands index res) := by
  unfold ioUringNext RingKernel.lands
  dsimp only
  rw [show s.plain.kernel.reads[index]? = (s.kernel.reads[index]?).map Sqe.plain from
    List.getElem?_map ..]
  cases hread : s.kernel.reads[index]? with
  | none => rfl
  | some read =>
      dsimp only [Option.map_some]
      rw [h.result (List.mem_of_getElem? hread), show s.plain.kernel = s.kernel.plain from rfl,
        show s.kernel.plain.completions = s.kernel.completions from rfl,
        show s.kernel.plain.cqEntries = s.kernel.cqEntries from rfl]
      unfold IoUringRun.plain RingKernel.plain
      dsimp only
      rw [List.eraseIdx_map]
      split_ifs <;> rfl

/-- Completions are handed out alike. -/
theorem IoUringRun.plain_wait (s : IoUringRun) (max : Nat) (block : Bool) (timeoutMs : Nat)
    (answer : Option (Nat × Nat) → Int) :
    (ioUringNext s (.wait max block timeoutMs answer)).plain =
      ioUringNext s.plain (.wait max block timeoutMs answer) := by
  unfold ioUringNext IoUringEngine.waitForCompletions
  dsimp only
  rw [show s.plain.kernel.overflow = s.kernel.overflow from rfl,
    show s.plain.engine.overflowReported = s.engine.overflowReported from rfl]
  split_ifs <;> rfl

/-- One call does the same without registration. -/
theorem ioUringStep_plain {memory : Nat → Registration} {s : IoUringRun} (call : IoUringCall)
    (h : BufferedHold memory s) :
    (ioUringStep s call).map IoUringRun.plain = ioUringStep s.plain call := by
  refine congrArg some ?_
  cases call with
  | stage id file offset bytesize buffer registration answer =>
      exact s.plain_stage id file offset bytesize buffer registration answer
  | flush ret => exact s.plain_flush ret
  | lands index res => exact IoUringRun.plain_lands h.reads index res
  | wait max block timeoutMs answer => exact s.plain_wait max block timeoutMs answer

/-- For an owner that means the same memory by a number each time, registration, granted or
refused, costs no read and changes nothing that the owner sees: after every run the engine holds
the same reads, in the same places and with the same completions, as one that made the same calls
and may not register, and its owner was told the same. -/
theorem registration_costs_no_read (ringEntries : UInt32) (registerBuffers fixedBuffers : Bool)
    {calls : List IoUringCall} (memory : Nat → Registration)
    (hnames : ∀ call ∈ calls, Names memory call)
    (hinside : ∀ call ∈ calls, call.Addressable) :
    (run ioUringStep (IoUringRun.start ringEntries registerBuffers fixedBuffers) calls).map
        IoUringRun.plain =
      run ioUringStep (IoUringRun.start ringEntries false false) calls := by
  refine run_map (P := BufferedHold memory)
    (C := fun call => Names memory call ∧ call.Addressable) ?_
    (fun s call h => ioUringStep_plain call h)
    (BufferedHold.start memory ringEntries registerBuffers fixedBuffers)
    fun call hcall => ⟨hnames call hcall, hinside call hcall⟩
  intro s call s' h hcall hstep
  cases hstep
  exact h.step hcall.1 hcall.2

/-- The fixed read of these calls ends with its bytes. -/
theorem registration_costs_no_read_ring :
    (∀ call ∈ ringCalls, Names ringMemory call) ∧ (∀ call ∈ ringCalls, call.Addressable) ∧
      (run ioUringStep (.start 2 true true) ringCalls).map IoUringRun.plain =
        run ioUringStep (.start 2 false false) ringCalls ∧
      (run ioUringStep (.start 2 true true) ringCalls).map (fun s => s.answered) = some [8] :=
  ⟨by decide, by decide,
    registration_costs_no_read 2 true true ringMemory (by decide) (by decide), by decide +kernel⟩

/-- An owner that means another region by the same number has its second read refused. -/
example : (run ioUringStep (.start 2 true true)
    [.stage 7 ⟨3, false⟩ 0 4 64 { base := 64, bytesize := 16, id := 0 } ⟨0, 0⟩,
      .stage 8 ⟨3, false⟩ 4 4 256 { base := 256, bytesize := 16, id := 0 } ⟨0, 0⟩, .flush 2,
      .lands 1 4]).map (fun s => s.kernel.completions) = some [⟨8, -eFAULT⟩] := by
  decide +kernel

end PosixIo
end ModelStreamer
