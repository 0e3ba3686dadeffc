import Mathlib.Data.List.Sort
import ModelStreamer.Streamer.MergeSpec
import ModelStreamer.Streamer.SubmissionTiling
import ModelStreamer.Streamer.WorkloadSlices

/-!
# The division of a request

Every group of transfers is divided for the pool that serves it: the workloads are numbered
without gaps, each of them serves one group and has something to do, and inside a group they
get equal shares.

Main results:

- Theorem {lit}`groupTransfers_listed`: the transfers of a group, in their order.
- Theorem {lit}`assignAsyncGroups_slices`: every async group gets one workload.
- Theorem {lit}`coalesce_and_divide`: what is merged, and how the work is divided.
-/

namespace ModelStreamer
namespace Streamer

open Common Lib

/-! ## Groups -/

/-- The pool that serves a transfer; all negative groups are the synchronous pool. -/
def poolGroup (groupByFile : List Int32) (t : ContiguousTransfer) : Int :=
  if groupOfFile groupByFile t.fileIndex < 0 then -1 else groupOfFile groupByFile t.fileIndex

/-- The pool of the transfer with this index. -/
def groupAt (groupByFile : List Int32) (transfers : List ContiguousTransfer) (i : Nat) :
    Option Int :=
  transfers[i]?.map (poolGroup groupByFile)

/-- The transfers of a pool. -/
def transfersOf (groupByFile : List Int32) (transfers : List ContiguousTransfer) (g : Int) :
    List ContiguousTransfer :=
  transfers.filter fun t => poolGroup groupByFile t = g

/-- The indices of transfers of the pool, in ascending order. -/
structure Listed (groupByFile : List Int32) (transfers : List ContiguousTransfer) (n : Nat)
    (g : Int) (indices : List Nat) : Prop where
  sorted : indices.Pairwise (· < ·)
  mem : ∀ i ∈ indices, i < n ∧ groupAt groupByFile transfers i = some g

section Groups

variable {groupByFile : List Int32} {transfers : List ContiguousTransfer} {n : Nat} {g : Int}
  {indices : List Nat}

theorem poolGroup_of_nonneg {t : ContiguousTransfer}
    (h : ¬ groupOfFile groupByFile t.fileIndex < 0) :
    poolGroup groupByFile t = groupOfFile groupByFile t.fileIndex :=
  if_neg h

theorem Listed.mono (h : Listed groupByFile transfers n g indices) :
    Listed groupByFile transfers (n + 1) g indices :=
  ⟨h.sorted, fun i hi => ⟨Nat.lt_succ_of_lt (h.mem i hi).1, (h.mem i hi).2⟩⟩

theorem Listed.concat (h : Listed groupByFile transfers n g indices)
    (hgroup : groupAt groupByFile transfers n = some g) :
    Listed groupByFile transfers (n + 1) g (indices ++ [n]) := by
  refine ⟨List.pairwise_append.2 ⟨h.sorted, List.pairwise_singleton _ _, ?_⟩, fun i hi => ?_⟩
  · intro i hi j hj
    rw [List.mem_singleton.1 hj]
    exact (h.mem i hi).1
  · rcases List.mem_append.1 hi with hold | hnew
    · exact h.mono.mem i hold
    · rw [List.mem_singleton.1 hnew]
      exact ⟨Nat.lt_succ_self n, hgroup⟩

/-- The groups of the first {lit}`n` transfers. -/
structure GroupsListed (groupByFile : List Int32) (transfers : List ContiguousTransfer)
    (n : Nat) (sync : GroupLoad) (async : OrderedMap Int GroupLoad) : Prop where
  sync : Listed groupByFile transfers n (-1) sync.indices
  async : ∀ e ∈ async.entries, 0 ≤ e.1 ∧ e.2.indices ≠ [] ∧
    Listed groupByFile transfers n e.1 e.2.indices

/-- Walking the transfers lists each of them with its group. -/
theorem groupTransfers_listed (ts : List ContiguousTransfer) {pre : List ContiguousTransfer}
    {sync : GroupLoad} {async : OrderedMap Int GroupLoad} (hsplit : transfers = pre ++ ts)
    (h : GroupsListed groupByFile transfers pre.length sync async) :
    GroupsListed groupByFile transfers transfers.length
      (groupTransfers groupByFile pre.length ts sync async).1
      (groupTransfers groupByFile pre.length ts sync async).2 := by
  induction ts generalizing pre sync async with
  | nil =>
      subst hsplit
      simpa [groupTransfers] using h
  | cons t ts ih =>
      have hget : transfers[pre.length]? = some t := by simp [hsplit]
      have hsplit' : transfers = (pre ++ [t]) ++ ts := by simp [hsplit]
      have hlength : pre.length + 1 = (pre ++ [t]).length := by simp
      simp only [groupTransfers]
      by_cases hsync : groupOfFile groupByFile t.fileIndex < 0
      · have hgroup : groupAt groupByFile transfers pre.length = some (-1) := by
          simp [groupAt, hget, poolGroup, hsync]
        rw [if_pos hsync, hlength]
        refine ih hsplit' ⟨?_, fun e he => ?_⟩
        · rw [← hlength]
          exact h.sync.concat hgroup
        · obtain ⟨hkey, hne, hlisted⟩ := h.async e he
          rw [← hlength]
          exact ⟨hkey, hne, hlisted.mono⟩
      · have hgroup : groupAt groupByFile transfers pre.length =
            some (groupOfFile groupByFile t.fileIndex) := by
          simp [groupAt, hget, poolGroup_of_nonneg hsync]
        rw [if_neg hsync, hlength]
        refine ih hsplit' ⟨?_, ?_⟩
        · rw [← hlength]
          exact h.sync.mono
        · rw [← hlength]
          have hempty : Listed groupByFile transfers pre.length
              (groupOfFile groupByFile t.fileIndex) [] :=
            ⟨List.Pairwise.nil, by simp⟩
          intro e he
          rcases mem_updateEntries he with rfl | ⟨v, hv, rfl⟩ | hmem
          · exact ⟨not_lt.1 hsync, by simp [GroupLoad.add, GroupLoad.empty],
              hempty.concat hgroup⟩
          · obtain ⟨hkey, -, hlisted⟩ := h.async _ hv
            exact ⟨hkey, by simp [GroupLoad.add], hlisted.concat hgroup⟩
          · obtain ⟨hkey, hne, hlisted⟩ := h.async e hmem
            exact ⟨hkey, hne, hlisted.mono⟩

/-- The indices of the transfers of a pool. -/
def indicesOf (groupByFile : List Int32) (transfers : List ContiguousTransfer) (g : Int) :
    List Nat :=
  (List.range transfers.length).filter fun i => groupAt groupByFile transfers i = some g

/-- A sorted list of all indices of the pool. -/
theorem Listed.eq_indicesOf (h : Listed groupByFile transfers transfers.length g indices)
    (hall : ∀ i, groupAt groupByFile transfers i = some g → i ∈ indices) :
    indices = indicesOf groupByFile transfers g := by
  apply List.Perm.eq_of_pairwise' (r := (· < ·))
  · exact h.sorted
  · exact List.pairwise_lt_range.filter _
  · apply (List.perm_ext_iff_of_nodup (h.sorted.imp fun hlt => Nat.ne_of_lt hlt)
      (List.nodup_range.filter _)).2
    intro i
    rw [List.mem_filter, List.mem_range, decide_eq_true_eq]
    exact ⟨h.mem i, fun hi => hall i hi.2⟩

/-- The transfers behind the indices of a pool. -/
theorem flatMap_indicesOf {α : Type*} (groupByFile : List Int32)
    (transfers : List ContiguousTransfer) (g : Int) (f : ContiguousTransfer → List α) :
    ((indicesOf groupByFile transfers g).flatMap fun i => (transfers[i]?.map f).getD []) =
      (transfersOf groupByFile transfers g).flatMap f := by
  induction transfers with
  | nil => rfl
  | cons t ts ih =>
      have hshift : (indicesOf groupByFile (t :: ts) g) =
          (if poolGroup groupByFile t = g then [0] else []) ++
            (indicesOf groupByFile ts g).map Nat.succ := by
        rw [indicesOf, List.length_cons, List.range_succ_eq_map, List.filter_cons,
          List.filter_map]
        simp only [groupAt, List.getElem?_cons_zero, Option.map_some, Option.some.injEq,
          decide_eq_true_eq]
        split <;> rfl
      rw [hshift, List.flatMap_append, List.flatMap_map, transfersOf, List.filter_cons]
      simp only [Nat.succ_eq_add_one, List.getElem?_cons_succ, ih, decide_eq_true_eq]
      split
      · simp [transfersOf]
      · simp [transfersOf]

theorem slicesAt_indicesOf (groupByFile : List Int32) (transfers : List ContiguousTransfer)
    (g : Int) : slicesAt transfers (indicesOf groupByFile transfers g) =
      (transfersOf groupByFile transfers g).flatMap ContiguousTransfer.tasks :=
  flatMap_indicesOf groupByFile transfers g ContiguousTransfer.tasks

/-- The bytes of a pool. -/
def groupBytes (groupByFile : List Int32) (transfers : List ContiguousTransfer) (g : Int) :
    Nat :=
  ((transfersOf groupByFile transfers g).map ContiguousTransfer.size).sum

theorem sizesAt_indicesOf (groupByFile : List Int32) (transfers : List ContiguousTransfer)
    (g : Int) : sizesAt transfers (indicesOf groupByFile transfers g) =
      groupBytes groupByFile transfers g := by
  have hsizes : ∀ is : List Nat, sizesAt transfers is =
      (is.flatMap fun i => (transfers[i]?.map fun t => [t.size]).getD []).sum := by
    intro is
    induction is with
    | nil => rfl
    | cons i is ih =>
        rw [sizesAt_cons, List.flatMap_cons, List.sum_append, ih, sizeAt]
        cases transfers[i]? with
        | none => rfl
        | some t => simp
  rw [hsizes, flatMap_indicesOf, groupBytes, ← List.map_eq_flatMap]

end Groups

/-! ## Group after group -/

section Division

variable {block : Nat} {before : List ContiguousTransfer}

/-- One group that is not empty is divided; the others are left alone. -/
theorem AssignReady.group (block : Nat) (group : Int) {workers used room : Nat} {load : GroupLoad}
    {pending : List Nat} {s : AssignState} (hfit : ∀ t ∈ before, t.offset + t.size < 2 ^ 64)
    (h : AssignReady before (load.indices ++ pending) used (max workers 1 + room) s)
    (hload : load.Counts before) (hworkers : workers ≤ maxConcurrency)
    (hne : load.indices ≠ []) :
    ∃ s', assignGroup block load.indices workers used load.bytes group s =
        .ok ((bytesPerWorkerFor block (sizesAt before load.indices) workers).workloads, s') ∧
      AssignReady before pending
        (used + (bytesPerWorkerFor block (sizesAt before load.indices) workers).workloads)
        room s' ∧
      GroupSlices (bytesPerWorkerFor block (sizesAt before load.indices) workers) used
        load.indices s'.transfers ∧
      GroupsSet used (bytesPerWorkerFor block (sizesAt before load.indices) workers).workloads
        group s.groupByWorkload s'.groupByWorkload ∧
      ∀ i, i ∉ load.indices → s'.transfers[i]? = s.transfers[i]? := by
  obtain ⟨taken, s', hrun, hready, -, -⟩ := assignGroup_ready block group hfit h hload hworkers
  have hsizes := sizesAt_congr h.inv.core_eq load.indices
  have hsum := h.sum_lt
  rw [sizesAt_append] at hsum
  have hbytes : load.bytes = sizesAt s.transfers load.indices := by
    rw [hload, hsizes]
    exact toWord_of_lt (by omega)
  have hlengths : s.transfers.length = before.length := by
    simpa using congrArg List.length h.inv.core_eq
  have hfit' : ∀ t ∈ s.transfers, t.offset + t.size < 2 ^ 64 := by
    intro t ht
    obtain ⟨t₀, ht₀, hcore⟩ := exists_before h.inv.core_eq ht
    obtain ⟨hoffset, hsize, -⟩ := eq_of_core_eq hcore
    have h₀ := hfit t₀ ht₀
    omega
  have hdisjoint : ∀ i ∈ load.indices, i ∉ pending := fun i hi hmem =>
    List.disjoint_of_nodup_append h.nodup hi hmem
  have hrun' := hrun
  rw [hbytes] at hrun'
  have hroom := h.room_le
  have hlt := h.length_lt
  obtain ⟨htaken, hslices, hgroups, hothers⟩ :=
    assignGroup_slices hfit' (h.nodup.sublist (List.sublist_append_left _ _))
      (fun i hi => hlengths ▸ h.bound i (by simp [hi]))
      (fun i hi => h.inv.fresh i (by simp [hi])) hworkers (by omega) (by omega) hne
      (hready.inv.core_eq.trans h.inv.core_eq.symm)
      (fun i hi t ht => hready.inv.done i (hdisjoint i hi) t ht) hrun'
  rw [hsizes] at htaken hslices
  subst htaken
  exact ⟨s', hrun, hready, hslices, hgroups, hothers⟩

/-- A group keeps its slices while others are divided. -/
theorem GroupSlices.congr {share : WorkerShare} {first : Nat} {indices : List Nat}
    {transfers transfers' : List ContiguousTransfer}
    (h : GroupSlices share first indices transfers)
    (hsame : ∀ i ∈ indices, transfers'[i]? = transfers[i]?) :
    GroupSlices share first indices transfers' := by
  refine ⟨?_, fun i hi t ht => h.runs i hi t (by rw [← hsame i hi]; exact ht)⟩
  rw [slicesAt_congr hsame]
  exact h.parts

/-- One workload is enough for a group with one worker. -/
theorem workloads_one (block : Nat) {bytes : Nat} (hbytes : bytes < 2 ^ 64) :
    (bytesPerWorkerFor block bytes 1).workloads = 1 := by
  obtain ⟨hworkloads, -⟩ := bytesPerWorkerFor_eq block hbytes (by decide : 1 ≤ 1024)
  rw [hworkloads]
  omega

/-- Every async group gets the next workload. -/
theorem assignAsyncGroups_slices (block : Nat) (hfit : ∀ t ∈ before, t.offset + t.size < 2 ^ 64)
    (groups : List (Int × GroupLoad)) {used : Nat} {s : AssignState}
    (h : AssignReady before (groups.flatMap fun e => e.2.indices) used groups.length s)
    (hloads : ∀ e ∈ groups, e.2.Counts before ∧ e.2.indices ≠ [])
    (hroom : used + groups.length ≤ s.groupByWorkload.length) :
    ∃ s', assignAsyncGroups block groups used s = .ok (used + groups.length, s') ∧
      (∀ j e, groups[j]? = some e →
        (bytesPerWorkerFor block (sizesAt before e.2.indices) 1).workloads = 1 ∧
        GroupSlices (bytesPerWorkerFor block (sizesAt before e.2.indices) 1) (used + j)
          e.2.indices s'.transfers ∧ s'.groupByWorkload[used + j]? = some e.1) ∧
      s'.groupByWorkload.length = s.groupByWorkload.length ∧
      (∀ w < used, s'.groupByWorkload[w]? = s.groupByWorkload[w]?) ∧
      ∀ i, (i ∉ groups.flatMap fun e => e.2.indices) →
        s'.transfers[i]? = s.transfers[i]? := by
  induction groups generalizing used s with
  | nil => exact ⟨s, rfl, by simp, rfl, fun _ _ => rfl, fun _ _ => rfl⟩
  | cons entry groups ih =>
      obtain ⟨group, load⟩ := entry
      obtain ⟨hcounts, hne⟩ := hloads (group, load) (by simp)
      have hready : AssignReady before
          (load.indices ++ groups.flatMap fun e => e.2.indices) used
          (max 1 1 + groups.length) s := by
        simpa [Nat.add_comm] using h
      have hsum := hready.sum_lt
      rw [sizesAt_append] at hsum
      obtain ⟨s₁, hrun, hready₁, hslices, ⟨hlength, hgroups⟩, hothers⟩ :=
        hready.group block group hfit hcounts (by decide) hne
      have hone := workloads_one block
        (show sizesAt before load.indices < 2 ^ 64 by omega)
      rw [hone] at hrun hready₁ hgroups
      rw [List.length_cons] at hroom
      obtain ⟨s', hrest, heach, hlength', hbefore, hothers'⟩ :=
        ih hready₁ (fun e he => hloads e (by simp [he])) (by omega)
      have hlt := hready₁.length_lt
      have hle := hready₁.room_le
      have hdisjoint : ∀ i ∈ load.indices, i ∉ groups.flatMap fun e => e.2.indices :=
        fun i hi hmem => List.disjoint_of_nodup_append hready.nodup hi hmem
      refine ⟨s', ?_, fun j e hget => ?_, hlength'.trans hlength, fun w hw => ?_,
        fun i hi => ?_⟩
      · simp only [assignAsyncGroups, hrun, bind, Except.bind,
          wordAdd_of_lt (show used + 1 < 2 ^ 32 by omega), hrest, List.length_cons]
        rw [show used + 1 + groups.length = used + (groups.length + 1) by omega]
      · cases j with
        | zero =>
            obtain rfl := Option.some.inj hget
            refine ⟨hone, hslices.congr fun i hi => hothers' i (hdisjoint i hi), ?_⟩
            rw [hbefore _ (by omega), hgroups, if_pos (by omega)]
        | succ j =>
            rw [show used + (j + 1) = used + 1 + j by omega]
            exact heach j e hget
      · rw [hbefore w (by omega), hgroups, if_neg (by omega)]
      · rw [List.flatMap_cons, List.mem_append, not_or] at hi
        rw [hothers' i hi.2, hothers i hi.1]

/--
The workloads of a division: the first {lit}`n` serve the synchronous pool, and every async
group in {lit}`groups` has one of the others, in ascending order.
-/
structure Numbered (block workers : Nat) (groupByFile : List Int32)
    (before : List ContiguousTransfer) (a : Assigner) (n : Nat) (groups : List Int) : Prop where
  core_eq : a.transfers.map ContiguousTransfer.core = before.map ContiguousTransfer.core
  sorted : groups.Pairwise (· < ·)
  nonneg : ∀ g ∈ groups, 0 ≤ g
  listed : ∀ t ∈ before, poolGroup groupByFile t = -1 ∨ poolGroup groupByFile t ∈ groups
  sync : n = 0 ∧ indicesOf groupByFile before (-1) = [] ∨
    n = (bytesPerWorkerFor block (groupBytes groupByFile before (-1)) workers).workloads ∧
      0 < n ∧
      GroupSlices (bytesPerWorkerFor block (groupBytes groupByFile before (-1)) workers) 0
        (indicesOf groupByFile before (-1)) a.transfers
  async : ∀ j g, groups[j]? = some g →
    (bytesPerWorkerFor block (groupBytes groupByFile before g) 1).workloads = 1 ∧
    GroupSlices (bytesPerWorkerFor block (groupBytes groupByFile before g) 1) (n + j)
      (indicesOf groupByFile before g) a.transfers
  count : a.numWorkloads = max (n + groups.length) 1
  groups_eq : n + groups.length ≠ 0 → a.groupByWorkload = List.replicate n (-1) ++ groups

/-- The groups of a walk through all transfers list each pool completely. -/
theorem indices_eq {groupByFile : List Int32} {sync : GroupLoad} {async : OrderedMap Int GroupLoad}
    (hlisted : GroupsListed groupByFile before before.length sync async)
    (hgrouped : Grouped before before.length sync async) :
    sync.indices = indicesOf groupByFile before (-1) ∧
      (∀ e ∈ async.entries, e.2.indices = indicesOf groupByFile before e.1) ∧
      ∀ t ∈ before, poolGroup groupByFile t = -1 ∨
        poolGroup groupByFile t ∈ async.entries.map Prod.fst := by
  have hcases : ∀ i g, groupAt groupByFile before i = some g →
      i ∈ sync.indices ∧ g = -1 ∨ ∃ e ∈ async.entries, i ∈ e.2.indices ∧ g = e.1 := by
    intro i g hg
    have hi : i < before.length := by
      by_contra hge
      rw [groupAt, List.getElem?_eq_none (by omega)] at hg
      cases hg
    have hmem := hgrouped.perm.mem_iff.2 (List.mem_range.2 hi)
    rcases List.mem_append.1 hmem with hsync | hasync
    · have heq := (hlisted.sync.mem i hsync).2
      rw [hg] at heq
      exact Or.inl ⟨hsync, Option.some.inj heq⟩
    · obtain ⟨e, he, hie⟩ := List.mem_flatMap.1 hasync
      have heq := ((hlisted.async e he).2.2.mem i hie).2
      rw [hg] at heq
      exact Or.inr ⟨e, he, hie, Option.some.inj heq⟩
  refine ⟨hlisted.sync.eq_indicesOf fun i hi => ?_, fun e he =>
    (hlisted.async e he).2.2.eq_indicesOf fun i hi => ?_, fun t ht => ?_⟩
  · rcases hcases i _ hi with ⟨hmem, -⟩ | ⟨e, he, -, heq⟩
    · exact hmem
    · have hkey := (hlisted.async e he).1
      omega
  · have hkey := (hlisted.async e he).1
    rcases hcases i _ hi with ⟨-, heq⟩ | ⟨e', he', hmem, heq⟩
    · omega
    · rw [List.inj_on_of_nodup_map async.nodup_keys he he' heq]
      exact hmem
  · obtain ⟨i, hi⟩ := List.mem_iff_getElem?.1 ht
    rcases hcases i (poolGroup groupByFile t) (by simp [groupAt, hi]) with
      ⟨-, heq⟩ | ⟨e, he, -, heq⟩
    · exact Or.inl heq
    · exact Or.inr (heq ▸ List.mem_map_of_mem he)

/-- Cutting a list back to the workloads that were used. -/
theorem resize_of_le {α : Type*} (default : α) {n : Nat} {xs : List α} (h : n ≤ xs.length) :
    resize default n xs = xs.take n := by
  rw [resize, Nat.sub_eq_zero_of_le h, List.replicate_zero, List.append_nil]

/-- The workloads of all groups. -/
theorem assign_numbered {workers : Nat} {groupByFile : List Int32} {totalBytes : Nat}
    {a : Assigner} (hworkers : workers ≤ maxConcurrency) (hpos : 0 < workers)
    (hfresh : ∀ t ∈ before, t.tasks = []) (hfit : ∀ t ∈ before, t.offset + t.size < 2 ^ 64)
    (htotal : totalBytes = (before.map ContiguousTransfer.size).sum)
    (hlt : totalBytes < 2 ^ 64)
    (hrun : assign block workers groupByFile before totalBytes = .ok a) :
    ∃ n groups, Numbered block workers groupByFile before a n groups := by
  have hstart : Grouped before 0 .empty .empty := by
    refine ⟨by simp [GroupLoad.empty], ?_, by simp, by simp⟩
    simp [GroupLoad.Counts, GroupLoad.empty, toWord]
  have hgrouped := groupTransfers_spec groupByFile before (List.nil_append before).symm hstart
  have hlisted := @groupTransfers_listed groupByFile before before [] .empty .empty
    (List.nil_append before).symm
    ⟨⟨List.Pairwise.nil, by simp [GroupLoad.empty]⟩, by simp⟩
  obtain ⟨a', ha', hcore, -⟩ :=
    assign_spec block groupByFile hworkers hpos hfresh hfit htotal hlt
  obtain rfl : a' = a := by
    rw [ha'] at hrun
    exact Except.ok.inj hrun
  clear ha'
  rw [List.length_nil] at hgrouped hlisted
  simp only [assign] at hrun
  generalize groupTransfers groupByFile 0 before .empty .empty = groups at *
  obtain ⟨sync, async⟩ := groups
  simp only at hgrouped hlisted hrun
  obtain ⟨hsync, hasync, hall⟩ := indices_eq hlisted hgrouped
  have hcount := hgrouped.length_async_le
  have hnum : toWord 32 async.entries.length = async.entries.length := toWord_of_lt (by omega)
  have hceiling : toWord 32 (workers + async.entries.length + 1) =
      workers + async.entries.length + 1 := by
    unfold maxConcurrency at hworkers
    exact toWord_of_lt (by omega)
  rw [hnum, hceiling] at hrun
  have hready := assignReady_start hgrouped hworkers hfresh (htotal ▸ hlt)
  have hlengths : (List.replicate (workers + async.entries.length + 1) (-1 : Int)).length =
      workers + async.entries.length + 1 := List.length_replicate
  generalize hstate : AssignState.mk before
    (List.replicate (workers + async.entries.length + 1) 0)
    (List.replicate (workers + async.entries.length + 1) (-1)) = s at hrun hready
  have hgroups₀ : s.groupByWorkload =
      List.replicate (workers + async.entries.length + 1) (-1) := by rw [← hstate]
  obtain ⟨n, s₁, hrun₁, hn, hready₁, hsyncSlices, hlength₁, hgroups₁⟩ :
      ∃ n s₁, assignGroup block sync.indices workers 0 sync.bytes (-1) s = .ok (n, s₁) ∧
        n ≤ workers ∧
        AssignReady before (async.entries.flatMap fun e => e.2.indices) n
          async.entries.length s₁ ∧
        (n = 0 ∧ sync.indices = [] ∨
          n = (bytesPerWorkerFor block (sizesAt before sync.indices) workers).workloads ∧
            0 < n ∧
            GroupSlices (bytesPerWorkerFor block (sizesAt before sync.indices) workers) 0
              sync.indices s₁.transfers) ∧
        s₁.groupByWorkload.length = workers + async.entries.length + 1 ∧
        ∀ w < n, s₁.groupByWorkload[w]? = some (-1) := by
    by_cases hnil : sync.indices = []
    · rw [hnil, List.nil_append] at hready
      refine ⟨0, s, by rw [assignGroup, if_pos hnil], Nat.zero_le _, ?_, Or.inl ⟨rfl, hnil⟩, ?_,
        fun w hw => absurd hw (Nat.not_lt_zero w)⟩
      · have hroom := hready.room_le
        exact ⟨hready.inv, hready.nodup, hready.bound, by omega, hready.length_lt, hready.sum_lt,
          hready.unused⟩
      · rw [hgroups₀]
        exact hlengths
    · have hsum := hready.sum_lt
      rw [sizesAt_append] at hsum
      obtain ⟨s₁, hrun₁, hready₁, hslices, ⟨hlength, hgroups⟩, -⟩ :=
        hready.group block (-1) hfit hgrouped.sync_counts hworkers hnil
      obtain ⟨hworkloads, -⟩ := bytesPerWorkerFor_eq block
        (show sizesAt before sync.indices < 2 ^ 64 by omega) hworkers
      have hle : (bytesPerWorkerFor block (sizesAt before sync.indices) workers).workloads ≤
          workers := by omega
      rw [Nat.zero_add] at hready₁
      rw [hgroups₀, hlengths] at hlength
      refine ⟨_, s₁, hrun₁, hle, hready₁, Or.inr ⟨rfl, by omega, hslices⟩, hlength, fun w hw => ?_⟩
      rw [hgroups, if_pos ⟨Nat.zero_le _, by omega, by rw [hgroups₀, hlengths]; omega⟩]
  have hloads : ∀ e ∈ async.entries, e.2.Counts before ∧ e.2.indices ≠ [] := fun e he =>
    ⟨hgrouped.async_counts e he, (hlisted.async e he).2.1⟩
  obtain ⟨s₂, hrun₂, heach, hlength₂, hbefore, hothers⟩ :=
    assignAsyncGroups_slices block hfit async.entries hready₁ hloads (by omega)
  have hdisjoint : ∀ i ∈ sync.indices, i ∉ async.entries.flatMap fun e => e.2.indices :=
    fun i hi hmem => List.disjoint_of_nodup_append
      (hgrouped.perm.nodup_iff.2 List.nodup_range) hi hmem
  have hget₂ : ∀ w, w < n + async.entries.length → s₂.groupByWorkload[w]? =
      (List.replicate n (-1) ++ async.entries.map Prod.fst)[w]? := by
    intro w hw
    by_cases hlow : w < n
    · rw [hbefore w hlow, hgroups₁ w hlow, List.getElem?_append_left (by simpa using hlow)]
      simp [hlow]
    · obtain ⟨j, rfl⟩ := Nat.exists_eq_add_of_le (Nat.le_of_not_lt hlow)
      have hj : j < async.entries.length := by omega
      have hget := List.getElem?_eq_getElem hj
      rw [(heach j _ hget).2.2, List.getElem?_append_right (by simp)]
      simp [hget]
  rw [hrun₁] at hrun
  simp only [bind, Except.bind] at hrun
  rw [hrun₂] at hrun
  simp only at hrun
  split at hrun
  · cases hrun
  · split at hrun
    · cases hrun
    · cases hrun
      refine ⟨n, async.entries.map Prod.fst, hcore, ?_, ?_, hall, ?_, ?_, ?_, fun hne => ?_⟩
      · rw [List.pairwise_map]
        exact async.sorted
      · intro g hg
        obtain ⟨e, he, rfl⟩ := List.mem_map.1 hg
        exact (hlisted.async e he).1
      · rw [← hsync, ← sizesAt_indicesOf, ← hsync]
        rcases hsyncSlices with hzero | ⟨hn', hne, hslices⟩
        · exact Or.inl hzero
        · refine Or.inr ⟨hn', hne, hslices.congr fun i hi => hothers i (hdisjoint i hi)⟩
      · intro j g hg
        rw [List.getElem?_map] at hg
        obtain ⟨e, he, rfl⟩ := Option.map_eq_some_iff.1 hg
        have hmem := List.mem_of_getElem? he
        rw [← sizesAt_indicesOf, ← hasync e hmem]
        exact ⟨(heach j e he).1, (heach j e he).2.1⟩
      · simp
      · rw [List.length_map] at hne
        rw [show max (n + async.entries.length) 1 = n + async.entries.length by omega,
          resize_of_le _ (by omega)]
        apply List.ext_getElem?
        intro w
        by_cases hw : w < n + async.entries.length
        · rw [List.getElem?_take_of_lt hw, hget₂ w hw]
        · rw [List.getElem?_eq_none (by simp; omega), List.getElem?_eq_none (by simp; omega)]

end Division

/-! ## Workloads -/

/-- The slices of a workload. -/
def Assigner.workload (a : Assigner) (w : Nat) : List FileReadTask :=
  (a.transfers.flatMap ContiguousTransfer.tasks).filter fun task => task.workloadIndex = w

/-- The workloads that serve a pool. -/
def Assigner.workloadsOf (a : Assigner) (g : Int) : List Nat :=
  (List.range a.numWorkloads).filter fun w => a.groupByWorkload[w]? = some g

/-- How many bytes a pool gives to its workloads. -/
def poolShare (block workers : Nat) (groupByFile : List Int32) (a : Assigner) (g : Int) :
    WorkerShare :=
  bytesPerWorkerFor block (groupBytes groupByFile a.transfers g) (if g = -1 then workers else 1)

/-- The workloads of a pool, from {lit}`first` on, share its transfers in their order. -/
structure PoolServed (groupByFile : List Int32) (a : Assigner) (share : WorkerShare) (g : Int)
    (first : Nat) : Prop where
  workloads_eq : a.workloadsOf g = List.range' first share.workloads
  ordered : (transfersOf groupByFile a.transfers g).flatMap ContiguousTransfer.tasks =
    (a.workloadsOf g).flatMap a.workload
  each : ∀ k < share.workloads, a.workload (first + k) ≠ [] ∧
    sliceBytes (a.workload (first + k)) = share.target k
  runs : ∀ t ∈ transfersOf groupByFile a.transfers g, ∃ w, t.RunsFrom w

section Workloads

variable {block workers : Nat} {groupByFile : List Int32} {before : List ContiguousTransfer}
  {a : Assigner} {n : Nat} {groups : List Int} {g : Int}

theorem groupAt_congr {transfers : List ContiguousTransfer}
    (h : transfers.map ContiguousTransfer.core = before.map ContiguousTransfer.core) (i : Nat) :
    groupAt groupByFile transfers i = groupAt groupByFile before i := by
  have hgroup : ∀ ts : List ContiguousTransfer, groupAt groupByFile ts i =
      groupAt groupByFile (ts.map ContiguousTransfer.core) i := by
    intro ts
    rw [groupAt, groupAt, List.getElem?_map, Option.map_map]
    rfl
  rw [hgroup transfers, hgroup before, h]

/-- The division moves no transfer to another pool. -/
theorem Numbered.indicesOf_eq (h : Numbered block workers groupByFile before a n groups)
    (g : Int) : indicesOf groupByFile before g = indicesOf groupByFile a.transfers g := by
  have hlength : a.transfers.length = before.length := by
    simpa using congrArg List.length h.core_eq
  rw [indicesOf, indicesOf, hlength]
  simp only [groupAt_congr h.core_eq]

theorem Numbered.groupBytes_eq (h : Numbered block workers groupByFile before a n groups)
    (g : Int) : groupBytes groupByFile before g = groupBytes groupByFile a.transfers g := by
  rw [← sizesAt_indicesOf, ← sizesAt_indicesOf, ← h.indicesOf_eq, sizesAt_congr h.core_eq]

/-- A list of parts, one for each workload, filtered for one of these. -/
theorem filter_flatten_parts (parts : List (List FileReadTask)) {first k : Nat}
    (h : ∀ j part, parts[j]? = some part → ∀ task ∈ part, task.workloadIndex = first + j) :
    parts.flatten.filter (fun task => task.workloadIndex = first + k) =
      parts[k]?.getD [] := by
  induction parts generalizing first k with
  | nil => simp
  | cons part parts ih =>
      have hpart := h 0 part rfl
      have hrest : ∀ j p, parts[j]? = some p → ∀ task ∈ p, task.workloadIndex = first + 1 + j :=
        fun j p hget task htask => by
          have heq := h (j + 1) p hget task htask
          omega
      rw [List.flatten_cons, List.filter_append]
      cases k with
      | zero =>
          have hself : part.filter (fun task => task.workloadIndex = first + 0) = part :=
            List.filter_eq_self.2 fun task htask => by simp [hpart task htask]
          have hnone : parts.flatten.filter (fun task => task.workloadIndex = first + 0) = [] := by
            rw [List.filter_eq_nil_iff]
            intro task htask
            obtain ⟨p, hp, htask⟩ := List.mem_flatten.1 htask
            obtain ⟨j, hj⟩ := List.mem_iff_getElem?.1 hp
            have heq := hrest j p hj task htask
            simp only [decide_eq_true_eq]
            omega
          rw [hself, hnone]
          simp
      | succ k =>
          have hnone : part.filter (fun task => task.workloadIndex = first + (k + 1)) = [] := by
            rw [List.filter_eq_nil_iff]
            intro task htask
            have heq := hpart task htask
            simp only [decide_eq_true_eq]
            omega
          rw [hnone, List.nil_append, List.getElem?_cons_succ,
            show first + (k + 1) = first + 1 + k by omega]
          exact ih hrest

/-- The numbers of a range that meet a condition which describes a smaller range. -/
theorem filter_range_eq_range' {N first m : Nat} {P : Nat → Bool}
    (h : ∀ w, w < N ∧ P w = true ↔ first ≤ w ∧ w < first + m) :
    (List.range N).filter P = List.range' first m := by
  apply List.Perm.eq_of_pairwise' (r := (· < ·))
  · exact List.pairwise_lt_range.filter _
  · exact List.pairwise_lt_range'
  · apply (List.perm_ext_iff_of_nodup (List.nodup_range.filter _) List.nodup_range').2
    intro w
    rw [List.mem_filter, List.mem_range, List.mem_range'_1]
    exact h w

/-- What contributes nothing may be left out. -/
theorem flatMap_eq_flatMap_filter {α β : Type*} {xs : List α} {f : α → List β} {q : α → Bool}
    (h : ∀ x ∈ xs, q x = false → f x = []) : xs.flatMap f = (xs.filter q).flatMap f := by
  induction xs with
  | nil => rfl
  | cons x xs ih =>
      have hrest := ih fun y hy => h y (by simp [hy])
      rw [List.flatMap_cons, List.filter_cons, hrest]
      split
      · rfl
      · rename_i hx
        rw [h x (by simp) (by simpa using hx), List.nil_append]

/-- The slices of a pool go to its workloads. -/
theorem GroupSlices.bounds {share : WorkerShare} {first : Nat}
    (h : GroupSlices share first (indicesOf groupByFile a.transfers g) a.transfers)
    {t : ContiguousTransfer} (ht : t ∈ a.transfers) (hg : poolGroup groupByFile t = g)
    {task : FileReadTask} (htask : task ∈ t.tasks) :
    first ≤ task.workloadIndex ∧ task.workloadIndex < first + share.workloads := by
  obtain ⟨parts, hparts, hlength, heach⟩ := h.parts
  rw [slicesAt_indicesOf] at hparts
  have hmem : task ∈ parts.flatten := by
    rw [← hparts]
    exact List.mem_flatMap.2 ⟨t, List.mem_filter.2 ⟨ht, by simp [hg]⟩, htask⟩
  obtain ⟨part, hpart, htask⟩ := List.mem_flatten.1 hmem
  obtain ⟨k, hk⟩ := List.mem_iff_getElem?.1 hpart
  have heq := (heach k part hk).2.1 task htask
  have hlt := (List.getElem?_eq_some_iff.1 hk).1
  omega

/-- The workloads of a pool with transfers. -/
theorem Numbered.pool (h : Numbered block workers groupByFile before a n groups)
    {t : ContiguousTransfer} (ht : t ∈ a.transfers) :
    ∃ first, GroupSlices (poolShare block workers groupByFile a (poolGroup groupByFile t)) first
        (indicesOf groupByFile a.transfers (poolGroup groupByFile t)) a.transfers ∧
      0 < (poolShare block workers groupByFile a (poolGroup groupByFile t)).workloads ∧
      ∀ w, w < a.numWorkloads ∧ a.groupByWorkload[w]? = some (poolGroup groupByFile t) ↔
        first ≤ w ∧ w < first +
          (poolShare block workers groupByFile a (poolGroup groupByFile t)).workloads := by
  obtain ⟨i, hi⟩ := List.mem_iff_getElem?.1 ht
  have hgroup : groupAt groupByFile a.transfers i = some (poolGroup groupByFile t) := by
    simp [groupAt, hi]
  obtain ⟨t₀, ht₀, hcore⟩ := exists_before h.core_eq ht
  have hfile : poolGroup groupByFile t = poolGroup groupByFile t₀ := by
    simp only [ContiguousTransfer.core, ContiguousTransfer.mk.injEq] at hcore
    rw [poolGroup, poolGroup, hcore.1]
  have hlisted := h.listed t₀ ht₀
  rw [← hfile] at hlisted
  generalize hg : poolGroup groupByFile t = g at *
  by_cases hsync : g = -1
  · subst hsync
    rcases h.sync with ⟨-, hnil⟩ | ⟨hn, hpos, hslices⟩
    · have hmem : i ∈ indicesOf groupByFile before (-1) := by
        rw [h.indicesOf_eq, indicesOf, List.mem_filter, List.mem_range]
        exact ⟨(List.getElem?_eq_some_iff.1 hi).1, by simp [hgroup]⟩
      rw [hnil] at hmem
      cases hmem
    · rw [h.groupBytes_eq, h.indicesOf_eq] at hslices
      rw [h.groupBytes_eq] at hn
      rw [poolShare, if_pos rfl]
      refine ⟨0, hslices, by omega, fun w => ?_⟩
      rw [h.groups_eq (by omega), h.count, ← hn]
      by_cases hw : w < n
      · rw [List.getElem?_append_left (by simpa using hw)]
        simp [hw]
        omega
      · rw [List.getElem?_append_right (by simp; omega)]
        constructor
        · rintro ⟨-, hget⟩
          have hnonneg := h.nonneg _ (List.mem_of_getElem? hget)
          omega
        · rintro ⟨-, hlt⟩
          omega
  · have hmem : g ∈ groups := by
      rcases hlisted with heq | hmem
      · exact absurd heq hsync
      · exact hmem
    obtain ⟨j, hj⟩ := List.mem_iff_getElem?.1 hmem
    obtain ⟨hone, hslices⟩ := h.async j g hj
    have hnonneg := h.nonneg g hmem
    have hlt := (List.getElem?_eq_some_iff.1 hj).1
    rw [h.groupBytes_eq, h.indicesOf_eq] at hslices
    rw [h.groupBytes_eq] at hone
    rw [poolShare, if_neg hsync, hone]
    refine ⟨n + j, hslices, Nat.one_pos, fun w => ?_⟩
    rw [h.groups_eq (by omega), h.count]
    by_cases hw : w < n
    · rw [List.getElem?_append_left (by simpa using hw)]
      simp [hw]
      omega
    · rw [List.getElem?_append_right (by simp; omega), List.length_replicate]
      constructor
      · rintro ⟨-, hget⟩
        have hnodup : groups.Nodup := h.sorted.imp fun hlt => ne_of_lt hlt
        have hlt' := (List.getElem?_eq_some_iff.1 hget).1
        have heq := (List.getElem?_inj hlt' hnodup).1 (hget.trans hj.symm)
        omega
      · rintro ⟨hlow, hhigh⟩
        rw [show w - n = j by omega]
        exact ⟨by omega, hj⟩

/-- Every pool with transfers is served by its workloads. -/
theorem Numbered.served (h : Numbered block workers groupByFile before a n groups)
    {t : ContiguousTransfer} (ht : t ∈ a.transfers) :
    ∃ first, PoolServed groupByFile a
      (poolShare block workers groupByFile a (poolGroup groupByFile t))
      (poolGroup groupByFile t) first := by
  obtain ⟨first, hslices, hpos, hworkloads⟩ := h.pool ht
  generalize poolGroup groupByFile t = g at *
  generalize poolShare block workers groupByFile a g = share at *
  have heq : a.workloadsOf g = List.range' first share.workloads := by
    apply filter_range_eq_range'
    intro w
    rw [decide_eq_true_eq]
    exact hworkloads w
  obtain ⟨parts, hparts, hlength, heach⟩ := hslices.parts
  rw [slicesAt_indicesOf] at hparts
  -- no slice of another pool goes to a workload of this one
  have hworkload : ∀ k part, parts[k]? = some part → a.workload (first + k) = part := by
    intro k part hk
    have hlt := (List.getElem?_eq_some_iff.1 hk).1
    have hmine : a.workload (first + k) =
        ((transfersOf groupByFile a.transfers g).flatMap ContiguousTransfer.tasks).filter
          fun task => task.workloadIndex = first + k := by
      rw [Assigner.workload, transfersOf, List.filter_flatMap, List.filter_flatMap]
      apply flatMap_eq_flatMap_filter
      intro u hu hother
      rw [List.filter_eq_nil_iff]
      intro task htask
      obtain ⟨first', hslices', -, hworkloads'⟩ := h.pool hu
      have hbounds := hslices'.bounds hu rfl htask
      simp only [decide_eq_true_eq]
      intro hcontra
      have hget := ((hworkloads' (first + k)).2 (hcontra ▸ hbounds)).2
      have hget' := ((hworkloads (first + k)).2 (by omega)).2
      rw [hget] at hget'
      simp [Option.some.inj hget'] at hother
    rw [hmine, hparts, filter_flatten_parts parts fun j p hj => (heach j p hj).2.1, hk,
      Option.getD_some]
  refine ⟨first, heq, ?_, fun k hk => ?_, fun u hu => ?_⟩
  · rw [hparts, heq, ← hlength, List.flatMap_def]
    congr 1
    apply List.ext_getElem?
    intro k
    rw [List.getElem?_map]
    cases hk : parts[k]? with
    | none =>
        have hge := List.getElem?_eq_none_iff.1 hk
        rw [List.getElem?_eq_none (by simpa using hge)]
        rfl
    | some part =>
        have hlt := (List.getElem?_eq_some_iff.1 hk).1
        rw [List.getElem?_range' hlt, Option.map_some, Nat.one_mul, hworkload k part hk]
  · have hget := List.getElem?_eq_getElem (hlength ▸ hk : k < parts.length)
    obtain ⟨hne, -, hbytes⟩ := heach k _ hget
    rw [hworkload k _ hget]
    exact ⟨hne, hbytes⟩
  · obtain ⟨hmem, hgroup⟩ := List.mem_filter.1 hu
    obtain ⟨i, hi⟩ := List.mem_iff_getElem?.1 hmem
    apply hslices.runs i _ u hi
    rw [indicesOf, List.mem_filter, List.mem_range]
    refine ⟨(List.getElem?_eq_some_iff.1 hi).1, ?_⟩
    simpa [groupAt, hi] using hgroup

/-- Every workload serves a pool that has transfers. -/
theorem Numbered.exists_transfer (h : Numbered block workers groupByFile before a n groups)
    (hne : n + groups.length ≠ 0) {w : Nat} (hw : w < a.numWorkloads) :
    ∃ t ∈ a.transfers, a.groupByWorkload[w]? = some (poolGroup groupByFile t) := by
  have hslice : ∀ {g first : _} {share : WorkerShare}, 0 < share.workloads →
      GroupSlices share first (indicesOf groupByFile before g) a.transfers →
        ∃ t ∈ a.transfers, poolGroup groupByFile t = g := by
    intro g first share hpos hslices
    rw [h.indicesOf_eq] at hslices
    obtain ⟨parts, hparts, hlength, heach⟩ := hslices.parts
    rw [slicesAt_indicesOf] at hparts
    obtain ⟨hnil, -⟩ := heach 0 _ (List.getElem?_eq_getElem (hlength ▸ hpos))
    obtain ⟨task, htask⟩ := List.exists_mem_of_ne_nil _ hnil
    have hmem : task ∈ parts.flatten :=
      List.mem_flatten.2 ⟨_, List.getElem_mem (hlength ▸ hpos), htask⟩
    rw [← hparts] at hmem
    obtain ⟨t, ht, -⟩ := List.mem_flatMap.1 hmem
    obtain ⟨hmem, hg⟩ := List.mem_filter.1 ht
    exact ⟨t, hmem, by simpa using hg⟩
  rw [h.count] at hw
  rw [h.groups_eq hne]
  by_cases hlow : w < n
  · rcases h.sync with ⟨hzero, -⟩ | ⟨hn, hpos, hslices⟩
    · omega
    · obtain ⟨t, ht, hg⟩ := hslice (hn ▸ hpos) hslices
      refine ⟨t, ht, ?_⟩
      rw [hg, List.getElem?_append_left (by simpa using hlow)]
      simp [hlow]
  · have hj : w - n < groups.length := by omega
    obtain ⟨hone, hslices⟩ := h.async (w - n) _ (List.getElem?_eq_getElem hj)
    obtain ⟨t, ht, hg⟩ := hslice (by omega) hslices
    refine ⟨t, ht, ?_⟩
    rw [hg, List.getElem?_append_right (by simpa using hlow), List.length_replicate]
    exact List.getElem?_eq_getElem hj

/-- The transfer is cut between this workload and the next one. -/
def ContiguousTransfer.cutAt (t : ContiguousTransfer) (w : Nat) : Bool :=
  w ∈ t.tasks.map FileReadTask.workloadIndex ∧ w + 1 ∈ t.tasks.map FileReadTask.workloadIndex

/-- The slices of a pool are ordered by their workloads. -/
theorem PoolServed.sorted {share : WorkerShare} {first : Nat}
    (h : PoolServed groupByFile a share g first) :
    (transfersOf groupByFile a.transfers g).Pairwise fun t u =>
      ∀ x ∈ t.tasks, ∀ y ∈ u.tasks, x.workloadIndex ≤ y.workloadIndex := by
  have hall : ((transfersOf groupByFile a.transfers g).flatMap
      ContiguousTransfer.tasks).Pairwise fun x y => x.workloadIndex ≤ y.workloadIndex := by
    rw [h.ordered, List.pairwise_flatMap, h.workloads_eq]
    have hindex : ∀ {w : Nat} {task : FileReadTask}, task ∈ a.workload w →
        task.workloadIndex = w := fun hmem => by
      simpa using (List.mem_filter.1 hmem).2
    have hsame : ∀ w, (a.workload w).Pairwise fun x y => x.workloadIndex ≤ y.workloadIndex := by
      intro w
      apply List.pairwise_iff_getElem.2
      intro i j hi hj _
      rw [hindex (List.getElem_mem hi), hindex (List.getElem_mem hj)]
    refine ⟨fun w _ => hsame w, (List.pairwise_lt_range').imp fun hlt x hx y hy => ?_⟩
    rw [hindex hx, hindex hy]
    exact Nat.le_of_lt hlt
  exact (List.pairwise_flatMap.1 hall).2

/-- What dividing the work promises. -/
structure DividesWork (block workers : Nat) (groupByFile : List Int32) (a : Assigner) :
    Prop where
  one_group : ∀ t ∈ a.transfers, ∀ task ∈ t.tasks, task.workloadIndex < a.numWorkloads ∧
    a.groupByWorkload[task.workloadIndex]? = some (poolGroup groupByFile t)
  has_task : ∀ w < a.numWorkloads, a.workload w ≠ []
  async_one : ∀ t ∈ a.transfers, 0 ≤ poolGroup groupByFile t →
    ∃ w, a.workloadsOf (poolGroup groupByFile t) = [w]
  sync_count : (∃ t ∈ a.transfers, poolGroup groupByFile t = -1) →
    (a.workloadsOf (-1)).length =
      max 1 (min (groupBytes groupByFile a.transfers (-1) / block) workers)
  equal_shares : ∀ g first rest, a.workloadsOf g = first :: rest → rest ≠ [] →
    ∃ base remainder, 0 < base ∧ block ∣ base ∧ remainder < (rest.length + 1) * block ∧
      sliceBytes (a.workload first) = base + remainder ∧
      ∀ w ∈ rest, sliceBytes (a.workload w) = base
  consecutive : ∀ t ∈ a.transfers, ∃ w, t.RunsFrom w
  cut_once : ∀ w, (a.transfers.filter (·.cutAt w)).length ≤ 1
  in_order : ∀ g, (transfersOf groupByFile a.transfers g).flatMap ContiguousTransfer.tasks =
    (a.workloadsOf g).flatMap a.workload

/-- Without transfers there is no work. -/
theorem dividesWork_nil {a : Assigner} (htransfers : a.transfers = []) (hnum : a.numWorkloads = 0) :
    DividesWork block workers groupByFile a := by
  have hnone : ∀ g, a.workloadsOf g = [] := fun g => by simp [Assigner.workloadsOf, hnum]
  constructor
  · simp [htransfers]
  · simp [hnum]
  · simp [htransfers]
  · simp [htransfers]
  · intro g first rest heq
    rw [hnone g] at heq
    cases heq
  · simp [htransfers]
  · simp [htransfers]
  · simp [htransfers, hnone, transfersOf]

/-- The bytes of a pool are among all bytes. -/
theorem groupBytes_le (groupByFile : List Int32) (transfers : List ContiguousTransfer)
    (g : Int) :
    groupBytes groupByFile transfers g ≤ (transfers.map ContiguousTransfer.size).sum := by
  apply List.Sublist.sum_le_sum
  · exact (List.filter_sublist).map _
  · simp

/-- The shares of a pool with several workloads. -/
theorem PoolServed.equal_shares {block bytes workers : Nat} {first : Nat}
    (h : PoolServed groupByFile a (bytesPerWorkerFor block bytes workers) g first)
    (hbytes : bytes < 2 ^ 64) (hworkers : workers ≤ maxConcurrency) (hblock : 0 < block)
    {w : Nat} {rest : List Nat} (heq : a.workloadsOf g = w :: rest) (hne : rest ≠ []) :
    ∃ base remainder, 0 < base ∧ block ∣ base ∧ remainder < (rest.length + 1) * block ∧
      sliceBytes (a.workload w) = base + remainder ∧
      ∀ w ∈ rest, sliceBytes (a.workload w) = base := by
  obtain ⟨-, hmul, hremainder⟩ := bytesPerWorkerFor_eq block hbytes hworkers
  have hlt := bytesPerWorkerFor_remainder hbytes hworkers hblock
  have hbase := bytesPerWorkerFor_base block hbytes hworkers
  have heach := h.each
  rw [h.workloads_eq] at heq
  generalize bytesPerWorkerFor block bytes workers = share at *
  have hlength : rest.length + 1 = share.workloads := by
    have hlengths := congrArg List.length heq
    rw [List.length_range', List.length_cons] at hlengths
    exact hlengths.symm
  have hmany : 1 < share.workloads := by
    have hpos := List.length_pos_iff.2 hne
    omega
  obtain ⟨m, hm⟩ : ∃ m, share.workloads = m + 1 := ⟨share.workloads - 1, by omega⟩
  rw [hm, List.range'_succ, List.cons.injEq] at heq
  obtain ⟨rfl, rfl⟩ := heq
  have hself : share.base ≤ share.workloads * share.base :=
    Nat.le_mul_of_pos_left _ (by omega)
  refine ⟨share.base, share.remainder, (hbase hmany).1, (hbase hmany).2, hlength ▸ hlt, ?_,
    fun v hv => ?_⟩
  · have hfirst := (heach 0 (by omega)).2
    rwa [Nat.add_zero, WorkerShare.target, if_pos rfl, wordAdd_of_lt (by omega)] at hfirst
  · rw [List.mem_range'_1] at hv
    have hother := (heach (v - first) (by omega)).2
    rwa [show first + (v - first) = v by omega, WorkerShare.target, if_neg (by omega)] at hother

/-- At a boundary between two workloads at most one transfer is cut. -/
theorem Numbered.cut_once (h : Numbered block workers groupByFile before a n groups) (w : Nat) :
    (a.transfers.filter (·.cutAt w)).length ≤ 1 := by
  cases hcut : a.transfers.filter (·.cutAt w) with
  | nil => simp
  | cons t ts =>
      cases ts with
      | nil => simp
      | cons u us =>
          exfalso
          have hcuts : ∀ v ∈ a.transfers.filter (·.cutAt w), v ∈ a.transfers ∧
              (∃ x ∈ v.tasks, x.workloadIndex = w) ∧ ∃ x ∈ v.tasks, x.workloadIndex = w + 1 := by
            intro v hv
            obtain ⟨hmem, hcond⟩ := List.mem_filter.1 hv
            simpa [ContiguousTransfer.cutAt, hmem] using hcond
          -- all of them are in the pool that the workload serves
          have hpool : ∀ v ∈ a.transfers.filter (·.cutAt w),
              a.groupByWorkload[w]? = some (poolGroup groupByFile v) := by
            intro v hv
            obtain ⟨hmem, ⟨x, hx, rfl⟩, -⟩ := hcuts v hv
            obtain ⟨first, hslices, -, hworkloads⟩ := h.pool hmem
            exact ((hworkloads _).2 (hslices.bounds hmem rfl hx)).2
          have ht : t ∈ a.transfers.filter (·.cutAt w) := by simp [hcut]
          obtain ⟨first, hserved⟩ := h.served (hcuts t ht).1
          have hsame : (a.transfers.filter (·.cutAt w)).filter
              (fun v => poolGroup groupByFile v = poolGroup groupByFile t) =
              a.transfers.filter (·.cutAt w) := by
            rw [List.filter_eq_self]
            intro v hv
            have heq := (hpool v hv).symm.trans (hpool t ht)
            simpa using heq
          have hsorted := hserved.sorted.filter (·.cutAt w)
          rw [transfersOf, List.filter_comm, hsame, hcut] at hsorted
          have hu : u ∈ a.transfers.filter (·.cutAt w) := by simp [hcut]
          obtain ⟨-, -, x, hx, hxw⟩ := hcuts t ht
          obtain ⟨-, ⟨y, hy, hyw⟩, -⟩ := hcuts u hu
          have hle := (List.pairwise_cons.1 hsorted).1 u (by simp) x hx y hy
          omega

/-- The division of transfers, some of which there are. -/
theorem Numbered.dividesWork (h : Numbered block workers groupByFile before a n groups)
    (hne : before ≠ []) (hlt : (before.map ContiguousTransfer.size).sum < 2 ^ 64)
    (hworkers : workers ≤ maxConcurrency) (hblock : 0 < block) :
    DividesWork block workers groupByFile a := by
  have hbytes : ∀ g, groupBytes groupByFile a.transfers g < 2 ^ 64 := fun g => by
    rw [← h.groupBytes_eq]
    exact (groupBytes_le groupByFile before g).trans_lt hlt
  have hworkers' : ∀ g : Int, (if g = -1 then workers else 1) ≤ maxConcurrency := fun g => by
    split
    · exact hworkers
    · decide
  have hused : n + groups.length ≠ 0 := by
    intro hzero
    obtain ⟨t, ht⟩ := List.exists_mem_of_ne_nil before hne
    rcases h.listed t ht with hsync | hmem
    · rcases h.sync with ⟨-, hnil⟩ | ⟨-, hpos, -⟩
      · obtain ⟨i, hi⟩ := List.mem_iff_getElem?.1 ht
        have hmem : i ∈ indicesOf groupByFile before (-1) :=
          List.mem_filter.2 ⟨List.mem_range.2 (List.getElem?_eq_some_iff.1 hi).1,
            by simp [groupAt, hi, hsync]⟩
        rw [hnil] at hmem
        cases hmem
      · omega
    · have hpos := List.length_pos_of_mem hmem
      omega
  refine ⟨fun t ht task htask => ?_, fun w hw => ?_, fun t ht hg => ?_, ?_,
    fun g first rest heq hrest => ?_, fun t ht => ?_, h.cut_once, fun g => ?_⟩
  · obtain ⟨first, hslices, -, hworkloads⟩ := h.pool ht
    exact (hworkloads _).2 (hslices.bounds ht rfl htask)
  · obtain ⟨t, ht, hgroup⟩ := h.exists_transfer hused hw
    obtain ⟨first, hserved⟩ := h.served ht
    have hmem : w ∈ a.workloadsOf (poolGroup groupByFile t) :=
      List.mem_filter.2 ⟨List.mem_range.2 hw, by simpa using hgroup⟩
    rw [hserved.workloads_eq, List.mem_range'_1] at hmem
    have heach := (hserved.each (w - first) (by omega)).1
    rwa [show first + (w - first) = w by omega] at heach
  · obtain ⟨first, hserved⟩ := h.served ht
    have hshare : (poolShare block workers groupByFile a (poolGroup groupByFile t)).workloads =
        1 := by
      rw [poolShare, if_neg (by omega)]
      exact workloads_one _ (hbytes _)
    exact ⟨first, by rw [hserved.workloads_eq, hshare]; rfl⟩
  · rintro ⟨t, ht, hg⟩
    obtain ⟨first, hserved⟩ := h.served ht
    rw [hg] at hserved
    rw [hserved.workloads_eq, List.length_range', poolShare, if_pos rfl,
      (bytesPerWorkerFor_eq _ (hbytes _) hworkers).1, Nat.max_comm]
  · have hmem : first ∈ a.workloadsOf g := by simp [heq]
    obtain ⟨hw, hgroup⟩ := List.mem_filter.1 hmem
    obtain ⟨t, ht, hgroup'⟩ := h.exists_transfer hused (List.mem_range.1 hw)
    obtain ⟨first', hserved⟩ := h.served ht
    have hg : poolGroup groupByFile t = g := by
      rw [hgroup'] at hgroup
      simpa using hgroup
    rw [hg] at hserved
    exact hserved.equal_shares (hbytes g) (hworkers' g) hblock heq hrest
  · obtain ⟨first, hserved⟩ := h.served ht
    exact hserved.runs t (List.mem_filter.2 ⟨ht, by simp⟩)
  · cases hworkloads : transfersOf groupByFile a.transfers g with
    | cons t ts =>
        obtain ⟨ht, hg⟩ := List.mem_filter.1
          (show t ∈ transfersOf groupByFile a.transfers g by simp [hworkloads])
        obtain ⟨first, hserved⟩ := h.served ht
        rw [decide_eq_true_eq] at hg
        rw [hg] at hserved
        rw [← hworkloads]
        exact hserved.ordered
    | nil =>
        cases hnone : a.workloadsOf g with
        | nil => rfl
        | cons w ws =>
            obtain ⟨hw, hgroup⟩ := List.mem_filter.1 (show w ∈ a.workloadsOf g by simp [hnone])
            obtain ⟨t, ht, hgroup'⟩ := h.exists_transfer hused (List.mem_range.1 hw)
            have hg : poolGroup groupByFile t = g := by
              rw [hgroup'] at hgroup
              simpa using hgroup
            have hmem : t ∈ transfersOf groupByFile a.transfers g :=
              List.mem_filter.2 ⟨ht, by simpa using hg⟩
            rw [hworkloads] at hmem
            cases hmem

end Workloads

/-! ## Requests -/

theorem Config.blockBytesize_pos (config : Config) (b : Bool) : 0 < config.blockBytesize b := by
  unfold Config.blockBytesize
  split
  · exact config.s3BlockBytesize_pos
  · exact config.fsSyncReadBlockBytesize_pos

/-- Transfers that agree slices aside have the same ranges. -/
theorem inOneTransfer_congr {xs ys : List ContiguousTransfer}
    (h : xs.map ContiguousTransfer.core = ys.map ContiguousTransfer.core) {p q : PlacedRange}
    (hone : InOneTransfer xs p q) : InOneTransfer ys p q := by
  obtain ⟨t, ht, hp, hq⟩ := hone
  obtain ⟨t₀, ht₀, hcore⟩ := exists_before h ht
  have hexpand : t.expand = t₀.expand := by
    have heq : t.core.expand = t₀.core.expand := by rw [hcore]
    exact heq
  exact ⟨t₀, ht₀, hexpand ▸ hp, hexpand ▸ hq⟩

/--
For every request that fits, every configuration and every grouping of the files: consecutive
ranges of a file are in one transfer exactly when the second one starts where the first one
ends, in the file and in memory; no transfer spans two files; and the work is divided into
workloads that serve one group each, have something to do and get equal shares, with at most
one transfer cut at every boundary.
-/
theorem coalesce_and_divide (config : Config) (groupByFile : List Int32)
    {request : List FileRanges} (h : RequestFits request) :
    ∃ a, makeAssigner request config groupByFile = .ok a ∧
      a.transfers.flatMap ContiguousTransfer.expand = placedFiles 0 request ∧
      (∀ f file i first second, request[f]? = some file → file.ranges[i]? = some first →
        file.ranges[i + 1]? = some second →
          (InOneTransfer a.transfers ⟨f, i, first⟩ ⟨f, i + 1, second⟩ ↔
            first.Follows second)) ∧
      (∀ t ∈ a.transfers, ∀ placed ∈ t.expand, placed.fileIndex = t.fileIndex) ∧
      DividesWork (config.blockBytesize (checkObjectStorage request))
        (config.numWorkers (checkObjectStorage request)) groupByFile a := by
  obtain ⟨a, ha, hassigned⟩ := makeAssigner_spec config groupByFile h
  obtain ⟨c, hc, hcoalesced⟩ := coalesce_spec h
  have hdivision : a.transfers.map ContiguousTransfer.core =
        c.transfers.map ContiguousTransfer.core ∧
      DividesWork (config.blockBytesize (checkObjectStorage request))
        (config.numWorkers (checkObjectStorage request)) groupByFile a := by
    have hrun := ha
    unfold makeAssigner at hrun
    by_cases hempty : request = []
    · rw [if_pos hempty] at hrun
      cases hrun
      subst hempty
      cases hc
      exact ⟨rfl, dividesWork_nil rfl rfl⟩
    · rw [if_neg hempty] at hrun
      simp only [hc, bind, Except.bind] at hrun
      by_cases hnil : c.transfers = []
      · rw [if_pos hnil] at hrun
        cases hrun
        exact ⟨by rw [hnil], dividesWork_nil rfl rfl⟩
      · rw [if_neg hnil] at hrun
        have hlt := hcoalesced.total_lt
        obtain ⟨n, groups, hnumbered⟩ :=
          assign_numbered (config.numWorkers_le _) (config.numWorkers_pos _)
            (fun t ht => (hcoalesced.wellFormed t ht).tasks_eq)
            (fun t ht => (hcoalesced.wellFormed t ht).stop_lt.trans (by decide))
            hcoalesced.total_eq hlt hrun
        rw [hcoalesced.total_eq] at hlt
        exact ⟨hnumbered.core_eq, hnumbered.dividesWork hnil hlt (config.numWorkers_le _)
          (config.blockBytesize_pos _)⟩
  obtain ⟨hcore, hdivides⟩ := hdivision
  refine ⟨a, ha, hassigned.expand_eq, fun f file i first second hfile hfirst hsecond => ?_,
    fun t _ placed hplaced => fileIndex_of_mem_expand hplaced, hdivides⟩
  constructor
  · rintro ⟨t, -, hp, hq⟩
    exact expand_consecutive hp hq rfl
  · intro hfollows
    have hplaced : ∀ {j : Nat} {range : ReadRange}, file.ranges[j]? = some range →
        ⟨f, j, range⟩ ∈ placedFiles 0 request := fun hget =>
      mem_placedFiles.2 ⟨Nat.zero_le _, file, by simpa using hfile, hget⟩
    exact inOneTransfer_congr hcore.symm
      (coalesce_merges h hc (hplaced hfirst) (hplaced hsecond) hfollows)

/-- The adjacent ranges of the first file are one transfer. -/
theorem coalesce_and_divide_sharedRequest :
    RequestFits sharedRequest ∧
    ∃ a, makeAssigner sharedRequest tinyConfig [] = .ok a ∧
      InOneTransfer a.transfers ⟨0, 0, ⟨5, 6, 100⟩⟩ ⟨0, 1, ⟨11, 0, 106⟩⟩ ∧
      DividesWork 4 2 [] a := by
  have hfits : RequestFits sharedRequest := ⟨by decide, by decide⟩
  obtain ⟨a, ha, -, hmerged, -, hdivides⟩ := coalesce_and_divide tinyConfig [] hfits
  refine ⟨hfits, a, ha, (hmerged 0 _ 0 _ _ rfl rfl rfl).2 ?_, hdivides⟩
  exact ⟨rfl, rfl⟩

end Streamer
end ModelStreamer
