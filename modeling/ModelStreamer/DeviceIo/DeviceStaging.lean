import ModelStreamer.DeviceIo.DeviceReadSpec

/-!
# What the staging buffers hold

A block is read into a staging buffer that nobody else has, and until its copy has landed the
buffer holds the bytes of the block.

Main results:

- Theorem {lit}`StageInv.move`: every step keeps what the buffers hold.
-/

namespace ModelStreamer
namespace DeviceIo

open Common Lib Streamer

/-- The staging buffer holds bytes of the file, from the offset on. -/
def DeviceRead.Holds (s : DeviceRead) (content : Nat → UInt8) (buffer offset bytesize : Nat) :
    Prop :=
  ∀ i < bytesize, s.staging (s.bufferOf buffer) (ptrAdd 0 i) = content (offset + i)

/-- The descriptor stands at the next block, or behind it once it was read. -/
def PosInv (block : Nat) (s : DeviceRead) : Prop :=
  match s.pc with
  | .opening => s.offset = s.read.batch.start
  | .looping | .acquiring | .reading _ | .answering => s.pos = s.offset
  | .submitting _ | .reporting _ => s.pos = s.offset + s.bytesize block
  | _ => True

/-- The buffers that are held are different ones, and hold the blocks they are for. -/
structure StageInv (content : Nat → UInt8) (block : Nat) (s : DeviceRead) : Prop where
  taken_length : s.taken.length = s.acquired
  apart : ∀ m ∈ s.held, ∀ n ∈ s.held, s.bufferOf m = s.bufferOf n → m = n
  pos : PosInv block s
  copies : ∀ copy ∈ s.stream ++ s.lane, s.Holds content copy.buffer copy.offset copy.bytesize
  full : ∀ buffer, s.pc = .submitting buffer →
    s.Holds content buffer s.offset (s.bytesize block)

section Steps

variable {content : Nat → UInt8} {block : Nat} {heap : List Request} {s s' : DeviceRead}

/-- A buffer that is held was taken, and was not given back. -/
theorem SupplyInv.held_spec (h : SupplyInv s) {buffer : Nat} (hheld : buffer ∈ s.held) :
    buffer < s.acquired ∧ buffer ∉ s.released := by
  have hnodup := h.buffers.symm.nodup (List.nodup_range (n := s.acquired))
  refine ⟨List.mem_range.1 (h.buffers.subset (List.mem_append_right _ hheld)), fun hback => ?_⟩
  exact (List.nodup_append.1 hnodup).2.2 buffer (List.mem_append_left _ hback) buffer hheld rfl

/-- The buffer of the reading thread is behind no copy. -/
theorem SupplyInv.buffer_ne (h : SupplyInv s) {buffer : Nat} (hpc : s.pc.buffers = [buffer])
    {copy : BlockCopy} (hcopy : copy ∈ s.stream ++ s.lane) : copy.buffer ≠ buffer := by
  have hnodup := h.buffers.symm.nodup (List.nodup_range (n := s.acquired))
  have hheld := (List.nodup_append.1 hnodup).2.1
  rw [DeviceRead.held, hpc, List.append_assoc, ← List.map_append] at hheld
  rintro rfl
  exact (List.nodup_cons.1 hheld).1 (List.mem_map_of_mem hcopy)

theorem mem_held_of_copy {copy : BlockCopy} (hcopy : copy ∈ s.stream ++ s.lane) :
    copy.buffer ∈ s.held := by
  rw [DeviceRead.held, List.append_assoc, ← List.map_append]
  exact List.mem_append_right _ (List.mem_map_of_mem hcopy)

theorem stageInv_start (content : Nat → UInt8) (block : Nat) (batch : Batch)
    (staging : Nat → Memory 64 UInt8) :
    StageInv content block (DeviceRead.start batch staging) := by
  refine ⟨rfl, fun m hm => ?_, rfl, fun copy hcopy => ?_, fun buffer hpc => ?_⟩
  · cases hm
  · cases hcopy
  · cases hpc

/-- A step that reads nothing and takes nothing. -/
theorem StageInv.keep (h : StageInv content block s) (htaken : s'.taken = s.taken)
    (hacquired : s'.acquired = s.acquired) (hstaging : s'.staging = s.staging)
    (hbuffers : s'.pc.buffers ⊆ s.pc.buffers) (hpos : PosInv block s')
    (hcopies : s'.stream ++ s'.lane ⊆ s.stream ++ s.lane)
    (hfull : ∀ buffer, s'.pc = .submitting buffer →
      s.pc = .submitting buffer ∧ s'.offset = s.offset ∧ s'.bytesize block = s.bytesize block) :
    StageInv content block s' := by
  have hbuffer : ∀ n, s'.bufferOf n = s.bufferOf n := fun n => by
    rw [DeviceRead.bufferOf, htaken]
    rfl
  have hheld : s'.held ⊆ s.held := by
    simp only [DeviceRead.held, List.append_assoc, ← List.map_append]
    intro n hn
    rcases List.mem_append.1 hn with hpc | hcopy
    · exact List.mem_append_left _ (hbuffers hpc)
    · obtain ⟨copy, hmem, rfl⟩ := List.mem_map.1 hcopy
      exact List.mem_append_right _ (List.mem_map_of_mem (hcopies hmem))
  refine ⟨by rw [htaken, hacquired, h.taken_length], fun m hm n hn heq => ?_, hpos,
    fun copy hcopy i hi => ?_, fun buffer hpc i hi => ?_⟩
  · rw [hbuffer, hbuffer] at heq
    exact h.apart m (hheld hm) n (hheld hn) heq
  · rw [hstaging, hbuffer]
    exact h.copies copy (hcopies hcopy) i hi
  · obtain ⟨hpc', hoffset, hbytes⟩ := hfull buffer hpc
    rw [hstaging, hbuffer, hoffset]
    exact h.full buffer hpc' i (hbytes ▸ hi)

/-- What is read into a buffer changes no other one. -/
theorem StageInv.stage (h : StageInv content block s) (hsupply : SupplyInv s) {buffer : Nat}
    (hpc : s.pc.buffers = [buffer]) (d : FdRead) {copy : BlockCopy}
    (hcopy : copy ∈ s.stream ++ s.lane) :
    (s.stage buffer d).Holds content copy.buffer copy.offset copy.bytesize := by
  have hother : s.bufferOf copy.buffer ≠ s.bufferOf buffer := fun heq => by
    refine hsupply.buffer_ne hpc hcopy (h.apart _ (mem_held_of_copy hcopy) _ ?_ heq)
    rw [DeviceRead.held, hpc]
    simp
  intro i hi
  have hsame : (s.stage buffer d).staging (s.bufferOf copy.buffer) =
      s.staging (s.bufferOf copy.buffer) := if_neg hother
  change (s.stage buffer d).staging (s.bufferOf copy.buffer) _ = _
  rw [hsame]
  exact h.copies copy hcopy i hi

/-- A read that succeeds fills the buffer with the block. -/
theorem StageInv.filled (h : StageInv content block s) {buffer : Nat} (hpc : s.pc = .reading buffer)
    (hwide : s.bytesize block ≤ 2 ^ 64) {file : OpenFile} {d : FdRead}
    (hfile : file.bytes = content)
    (hread : ReadInto file 0 s.pos (s.bytesize block) (s.bytesize block) d) :
    (s.stage buffer d).Holds content buffer s.offset (s.bytesize block) := by
  have hpos := h.pos
  simp only [PosInv, hpc] at hpos
  subst hfile
  intro i hi
  have hstaged : (s.stage buffer d).staging (s.bufferOf buffer) =
      replay (s.staging (s.bufferOf buffer)) d.writes := if_pos rfl
  change (s.stage buffer d).staging (s.bufferOf buffer) _ = _
  have hcell := replay_written (m := s.staging (s.bufferOf buffer)) (by omega) hread.inPlace
    (by omega) (hread.written (s.pos + i) (by omega) (by omega))
  rw [Nat.add_sub_cancel_left] at hcell
  rw [hstaged, ← hpos]
  exact hcell

/-- A buffer is taken that no copy is behind. -/
theorem StageInv.take (h : StageInv content block s) (hsupply : SupplyInv s) {k : Nat}
    (hpc : s.pc = .acquiring)
    (hfree : ∀ buffer < s.acquired, s.bufferOf buffer = k → buffer ∈ s.released) :
    StageInv content block { s with
      taken := s.taken ++ [k]
      acquired := s.acquired + 1
      pc := .reading s.acquired } := by
  have hpos := h.pos
  simp only [PosInv, hpc] at hpos
  have hold : ∀ n < s.acquired, (s.taken ++ [k]).getD n 0 = s.bufferOf n := fun n hn => by
    rw [← h.taken_length] at hn
    simp [DeviceRead.bufferOf, List.getD, List.getElem?_append_left hn]
  have hnew : (s.taken ++ [k]).getD s.acquired 0 = k := by
    simp [← h.taken_length, List.getD]
  have hheld : ∀ n, n ∈ s.stream.map BlockCopy.buffer ++ s.lane.map BlockCopy.buffer →
      n ∈ s.held := fun n hn => by
    rw [DeviceRead.held, hpc]
    simpa [ReaderPc.buffers] using hn
  -- a buffer that is held was not given back, so it is not the one that is free
  have hother : ∀ n, n ∈ s.stream.map BlockCopy.buffer ++ s.lane.map BlockCopy.buffer →
      (s.taken ++ [k]).getD n 0 = s.bufferOf n ∧ s.bufferOf n ≠ k := fun n hn => by
    obtain ⟨hlt, hback⟩ := hsupply.held_spec (hheld n hn)
    exact ⟨hold n hlt, fun heq => hback (hfree n hlt heq)⟩
  refine ⟨by simp [h.taken_length], fun m hm n hn heq => ?_, hpos, fun copy hcopy => ?_,
    fun buffer hcontra => by cases hcontra⟩
  · have hcases : ∀ i, i ∈ [s.acquired] ++ s.stream.map BlockCopy.buffer ++
        s.lane.map BlockCopy.buffer → i = s.acquired ∨
          i ∈ s.stream.map BlockCopy.buffer ++ s.lane.map BlockCopy.buffer := fun i hi => by
      rw [List.append_assoc] at hi
      exact List.mem_cons.1 hi
    replace hm := hcases m hm
    replace hn := hcases n hn
    simp only [DeviceRead.bufferOf] at heq
    rcases hm with rfl | hm
    · rcases hn with rfl | hn
      · rfl
      · rw [hnew, (hother n hn).1] at heq
        exact absurd heq.symm (hother n hn).2
    · rcases hn with rfl | hn
      · rw [hnew, (hother m hm).1] at heq
        exact absurd heq (hother m hm).2
      · rw [(hother m hm).1, (hother n hn).1] at heq
        exact h.apart m (hheld m hm) n (hheld n hn) heq
  · have hplace : copy.buffer ∈ s.stream.map BlockCopy.buffer ++ s.lane.map BlockCopy.buffer := by
      rw [← List.map_append]
      exact List.mem_map_of_mem hcopy
    intro i hi
    simp only [DeviceRead.bufferOf, (hother _ hplace).1]
    exact h.copies copy hcopy i hi

/-- The copy of the next block is given the buffer that holds it. -/
theorem StageInv.submit (h : StageInv content block s) {buffer : Nat}
    (hpc : s.pc = .submitting buffer) :
    StageInv content block { s with
      lane := s.lane ++ [s.nextCopy block buffer]
      opened := true
      submitted := wordAdd 32 s.submitted 1
      offset := s.offset + s.bytesize block
      pc := .answering } := by
  have hpos := h.pos
  simp only [PosInv, hpc] at hpos
  have hheld : ∀ n, n ∈ s.stream.map BlockCopy.buffer ++
      (s.lane ++ [s.nextCopy block buffer]).map BlockCopy.buffer → n ∈ s.held := fun n hn => by
    rw [DeviceRead.held, hpc]
    simp only [List.map_append, List.map_singleton, List.mem_append, List.mem_singleton] at hn
    simp only [ReaderPc.buffers, List.mem_append, List.mem_singleton]
    rcases hn with hn | hn | rfl
    · exact Or.inl (Or.inr hn)
    · exact Or.inr hn
    · exact Or.inl (Or.inl rfl)
  refine ⟨h.taken_length, fun m hm n hn heq => ?_, hpos, fun copy hcopy => ?_,
    fun buffer hcontra => by cases hcontra⟩
  · exact h.apart m (hheld m hm) n (hheld n hn) heq
  · rw [← List.append_assoc] at hcopy
    rcases List.mem_append.1 hcopy with hold | hnew
    · exact h.copies copy hold
    · rw [List.mem_singleton.1 hnew]
      exact h.full buffer hpc

/-- Every step keeps what the buffers hold. -/
theorem StageInv.move (h : StageInv content block s) (hsupply : SupplyInv s)
    (hwide : ∀ buffer, s.pc = .reading buffer → s.bytesize block ≤ 2 ^ 64)
    (hmove : DeviceMove content block heap s s') : StageInv content block s' := by
  have hpos := h.pos
  cases hmove with
  | stop | issuingStored | issuingChecked | issuingCounted | issuingPosted | issuingTerminated
  | waitingStored | waitingChecked | waitingSkipped | waitingCounted | waitingPosted
  | waitingTerminated | transferred =>
      exact h.keep rfl rfl rfl (List.Subset.refl _) hpos (List.Subset.refl _)
        fun _ hpc => ⟨hpc, rfl, rfl⟩
  | issued copy lane hno hlane =>
      refine h.keep rfl rfl rfl (List.Subset.refl _) hpos ?_ fun _ hpc => ⟨hpc, rfl, rfl⟩
      rw [hlane, List.append_assoc]
      exact List.Subset.refl _
  | issueReleased copy lane code hno hlane | issueRetired copy lane code hno hlane =>
      refine h.keep rfl rfl rfl (List.Subset.refl _) hpos ?_ fun _ hpc => ⟨hpc, rfl, rfl⟩
      rw [hlane]
      intro other hother
      rcases List.mem_append.1 hother with hmem | hmem
      · exact List.mem_append_left _ hmem
      · exact List.mem_append_right _ (List.mem_cons_of_mem _ hmem)
  | landed copy stream hno hstream | lost copy stream hno hstream =>
      refine h.keep rfl rfl rfl (List.Subset.refl _) hpos ?_ fun _ hpc => ⟨hpc, rfl, rfl⟩
      rw [hstream]
      exact List.subset_cons_self _ _
  | openFailed | openEmpty | leaveLoop | acquireFailed | reportThrew | threw | drained | waited
  | checkFailed | checked | finished | endedStopped | ended | failed =>
      exact h.keep rfl rfl rfl (List.nil_subset _) trivial (List.Subset.refl _)
        fun _ hpc => by cases hpc
  | opened task tasks destination hpc =>
      simp only [PosInv, hpc] at hpos
      exact h.keep rfl rfl rfl (List.nil_subset _) hpos.symm (List.Subset.refl _)
        fun _ hpc => by cases hpc
  | enterLoop hpc | answered hpc | submitFailed buffer code hpc =>
      simp only [PosInv, hpc] at hpos
      exact h.keep rfl rfl rfl (List.nil_subset _) hpos (List.Subset.refl _)
        fun _ hpc => by cases hpc
  | reportedInline buffer hpc =>
      simp only [PosInv, hpc] at hpos
      exact h.keep rfl rfl rfl (List.nil_subset _) hpos (List.Subset.refl _)
        fun _ hpc => by cases hpc
  | submitted buffer hpc => exact h.submit hpc
  | acquired k hpc hroom hfree => exact h.take hsupply hpc hfree
  | readFailed buffer code d hpc =>
      have hbuffers : s.pc.buffers = [buffer] := by rw [hpc]; rfl
      refine ⟨h.taken_length, fun m hm n hn heq => ?_, trivial,
        fun copy hcopy => h.stage hsupply hbuffers d hcopy, fun _ hcontra => by cases hcontra⟩
      have hheld : ∀ n, n ∈ s.stream.map BlockCopy.buffer ++ s.lane.map BlockCopy.buffer →
          n ∈ s.held := fun n hn => by
        rw [DeviceRead.held, List.append_assoc]
        exact List.mem_append_right _ hn
      exact h.apart m (hheld m hm) n (hheld n hn) heq
  | readDone buffer file d hpc hfile hread =>
      have hbuffers : s.pc.buffers = [buffer] := by rw [hpc]; rfl
      have hheld : ({ s.stage buffer d with pc := .submitting buffer } : DeviceRead).held =
          s.held := by
        rw [DeviceRead.held, DeviceRead.held, hpc]
        rfl
      refine ⟨h.taken_length, ?_, ?_, fun copy hcopy => h.stage hsupply hbuffers d hcopy,
        fun _ hsubmitting => ?_⟩
      · rw [hheld]
        exact h.apart
      · simp only [PosInv, hpc] at hpos
        exact hread.pos_eq.trans (by rw [hpos]; rfl)
      · obtain rfl := ReaderPc.submitting.inj hsubmitting
        exact h.filled hpc (hwide buffer hpc) hfile hread

end Steps

end DeviceIo
end ModelStreamer
