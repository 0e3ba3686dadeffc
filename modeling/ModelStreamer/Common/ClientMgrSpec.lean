import ModelStreamer.Common.ClientMgr

/-!
# Clients shared by streamers

A client is always held by at most one user.  Stopping is a different matter: a streamer
that ends stops the clients of all streamers, and the flag of a client that survives its
{lit}`clear` is never taken back.

Main results:

- Theorem {lit}`TableInv.step`: every client of the table is unused or held once.
- Theorem {lit}`client_reuse`: streamers that end alone reuse clients safely.
- Theorem {lit}`shared_client_stopped`: two streamers at once do not.
-/

namespace ModelStreamer
namespace Common

open Lib

variable {κ : Type*} {verify : κ → κ → Bool}

/-! ## The table -/

/-- Every client of the table is either unused or held, and only once. -/
structure TableInv (p : ClientProcess κ) : Prop where
  nodup : (p.mgr.clients.map Client.address).Nodup
  perm : (p.mgr.clients.map Client.address).Perm (p.mgr.unused ++ p.held.map Prod.snd)

namespace ClientMgr

theorem find_of_mem {clients : List (Client κ)} {address : Nat}
    (h : address ∈ clients.map Client.address) :
    ∃ client ∈ clients, find clients address = some client ∧ client.address = address := by
  obtain ⟨client, hclient, rfl⟩ := List.mem_map.1 h
  cases hfind : find clients client.address with
  | none =>
      have hnone := List.find?_eq_none.1 hfind client hclient
      simp at hnone
  | some found =>
      have haddress := List.find?_some hfind
      simp only [decide_eq_true_eq] at haddress
      exact ⟨found, List.mem_of_find?_eq_some hfind, rfl, haddress⟩

theorem map_address_erase (clients : List (Client κ)) (address : Nat) :
    (erase clients address).map Client.address =
      (clients.map Client.address).filter fun a => a ≠ address := by
  rw [erase, List.filter_map]
  rfl

/-- Erasing the first unused client leaves the others. -/
theorem erase_perm {clients : List (Client κ)} {address : Nat} {rest : List Nat}
    (hnodup : (clients.map Client.address).Nodup)
    (hperm : (clients.map Client.address).Perm (address :: rest)) :
    ((erase clients address).map Client.address).Perm rest := by
  have hrest : address ∉ rest := by
    have hcons := hperm.nodup_iff.1 hnodup
    exact (List.nodup_cons.1 hcons).1
  rw [map_address_erase]
  have hfilter := hperm.filter fun a => a ≠ address
  rw [List.filter_cons_of_neg (by simp)] at hfilter
  have hkeep : (rest.filter fun a => a ≠ address) = rest := by
    apply List.filter_eq_self.2
    intro a ha
    simp only [ne_eq, decide_eq_true_eq]
    rintro rfl
    exact hrest ha
  rw [hkeep] at hfilter
  exact hfilter

/-- What the first half of a pop leaves behind. -/
structure PopResult (clients : List (Client κ)) (heldAddresses : List Nat)
    (found : Option (Client κ)) (mgr : ClientMgr κ) : Prop where
  sublist : mgr.clients.Sublist clients
  nodup : (mgr.clients.map Client.address).Nodup
  found_mem : ∀ client, found = some client → client ∈ clients
  perm : (mgr.clients.map Client.address).Perm
    (mgr.unused ++ (heldAddresses ++ (found.map Client.address).toList))

/-- The loop of a pop keeps the table and never follows a dangling pointer. -/
theorem popUnused_spec (verify : κ → κ → Bool) (config : κ) (unused : List Nat)
    {clients : List (Client κ)} {heldAddresses : List Nat} (hnodup : (clients.map Client.address).Nodup)
    (hperm : (clients.map Client.address).Perm (unused ++ heldAddresses)) :
    ∃ found mgr, popUnused verify config unused clients = .ok (found, mgr) ∧
      PopResult clients heldAddresses found mgr := by
  induction unused generalizing clients with
  | nil =>
      refine ⟨none, ⟨clients, []⟩, rfl, List.Sublist.refl _, hnodup, by simp, ?_⟩
      simpa using hperm
  | cons address unused ih =>
      have hmem : address ∈ clients.map Client.address :=
        hperm.mem_iff.2 (List.mem_append_left _ List.mem_cons_self)
      obtain ⟨client, hclient, hfind, haddress⟩ := find_of_mem hmem
      simp only [popUnused, hfind]
      by_cases hverify : verify client.config config = true
      · rw [if_pos hverify]
        refine ⟨some client, ⟨clients, unused⟩, rfl, List.Sublist.refl _, hnodup, ?_, ?_⟩
        · intro c hc
          rw [← Option.some.inj hc]
          exact hclient
        · apply hperm.trans
          rw [Option.map_some, haddress, ← List.append_assoc]
          exact (List.perm_append_singleton address (unused ++ heldAddresses)).symm
      · rw [if_neg hverify]
        have hsublist : (erase clients address).Sublist clients := List.filter_sublist
        have hnodup' := hnodup.sublist (hsublist.map Client.address)
        obtain ⟨found, mgr, heq, hresult⟩ := ih hnodup' (erase_perm hnodup hperm)
        refine ⟨found, mgr, heq, hresult.sublist.trans hsublist, hresult.nodup, ?_,
          hresult.perm⟩
        intro c hc
        exact hsublist.subset (hresult.found_mem c hc)

theorem insertUnused_perm {address : Nat} {unused : List Nat} (h : address ∉ unused) :
    (insertUnused address unused).Perm (address :: unused) := by
  rw [insertUnused, if_neg h]
  exact List.perm_orderedInsert _ _ _

end ClientMgr

open ClientMgr ClientProcess

/-! ## What a step can do -/

/-- The effect of a step on the table, the phases and the history. -/
inductive ClientEffect (p : ClientProcess κ) : ClientAction κ → ClientProcess κ → Prop
  | made : ClientEffect p .make { p with phases := p.phases ++ [.live] }
  | missed {streamer : Nat} {config : κ} {mgr : ClientMgr κ} :
      p.phases[streamer]? = some .live ∨ p.phases[streamer]? = some .ending →
      PopResult p.mgr.clients (p.held.map Prod.snd) none mgr →
      ClientEffect p (.pop streamer config)
        { p with mgr, creating := p.creating ++ [(streamer, config)] }
  | reused {streamer : Nat} {config : κ} {client : Client κ} {mgr : ClientMgr κ} :
      p.phases[streamer]? = some .live ∨ p.phases[streamer]? = some .ending →
      PopResult p.mgr.clients (p.held.map Prod.snd) (some client) mgr →
      ClientEffect p (.pop streamer config)
        { p with
          mgr
          held := p.held ++ [(streamer, client.address)]
          events := p.events ++ [.popped streamer client.address client.stopped] }
  | created {i streamer address : Nat} {config : κ} : p.creating[i]? = some (streamer, config) →
      address ∉ p.mgr.clients.map Client.address →
      ClientEffect p (.create i address)
        { p with
          mgr := p.mgr.popCreate config address
          creating := p.creating.eraseIdx i
          held := p.held ++ [(streamer, address)]
          events := p.events ++ [.popped streamer address false] }
  | failed {i : Nat} : ClientEffect p (.fail i) { p with creating := p.creating.eraseIdx i }
  | pushed {streamer address : Nat} : (streamer, address) ∈ p.held →
      ClientEffect p (.push streamer address)
        { p with mgr := p.mgr.push address, held := p.held.erase (streamer, address) }
  | stopped {streamer : Nat} : p.phases[streamer]? = some .live →
      ClientEffect p (.stop streamer)
        { p with
          mgr := p.mgr.stop
          phases := p.phases.set streamer .ending
          events := p.events ++ p.mgr.clients.map fun client =>
            .stopped streamer client.address (p.victims streamer client.address) }
  | cleared {streamer : Nat} : p.phases[streamer]? = some .ending →
      (∀ h ∈ p.held, h.1 ≠ streamer) → (∀ h ∈ p.creating, h.1 ≠ streamer) →
      ClientEffect p (.clear streamer)
        { p with mgr := p.mgr.clear, phases := p.phases.set streamer .ended }

/-- Every step has one of the effects. -/
theorem TableInv.effect {p p' : ClientProcess κ} {action : ClientAction κ} (h : TableInv p)
    (hstep : p.step verify action = some p') : ClientEffect p action p' := by
  cases action with
  | make =>
      cases hstep
      exact ClientEffect.made
  | pop streamer config =>
      simp only [ClientProcess.step, popStep, isIn, Bool.or_eq_true, decide_eq_true_eq] at hstep
      split at hstep
      · rename_i hphase
        obtain ⟨found, mgr, heq, hresult⟩ :=
          popUnused_spec verify config p.mgr.unused h.nodup h.perm
        rw [popReuse, heq] at hstep
        cases found with
        | none =>
            cases hstep
            exact ClientEffect.missed hphase hresult
        | some client =>
            cases hstep
            exact ClientEffect.reused hphase hresult
      · cases hstep
  | create i address =>
      simp only [ClientProcess.step, createStep] at hstep
      split at hstep
      · cases hstep
      · rename_i streamer config hcreating
        split at hstep
        · cases hstep
        · rename_i hfresh
          cases hstep
          exact ClientEffect.created hcreating hfresh
  | fail i =>
      simp only [ClientProcess.step, failStep] at hstep
      split at hstep
      · cases hstep
      · cases hstep
        exact ClientEffect.failed
  | push streamer address =>
      simp only [ClientProcess.step, pushStep] at hstep
      split at hstep
      · rename_i hheld
        cases hstep
        exact ClientEffect.pushed hheld
      · cases hstep
  | stop streamer =>
      simp only [ClientProcess.step, stopStep, isIn, decide_eq_true_eq] at hstep
      split at hstep
      · rename_i hlive
        cases hstep
        exact ClientEffect.stopped hlive
      · cases hstep
  | clear streamer =>
      simp only [ClientProcess.step, clearStep, isIn, Bool.and_eq_true, decide_eq_true_eq,
        List.all_eq_true, ne_eq] at hstep
      split at hstep
      · rename_i hcond
        cases hstep
        exact ClientEffect.cleared hcond.1.1 hcond.1.2 hcond.2
      · cases hstep

theorem TableInv.of_effect {p p' : ClientProcess κ} {action : ClientAction κ} (h : TableInv p)
    (heffect : ClientEffect p action p') : TableInv p' := by
  cases heffect with
  | made => exact ⟨h.nodup, h.perm⟩
  | missed _ hresult =>
      refine ⟨hresult.nodup, ?_⟩
      simpa using hresult.perm
  | reused _ hresult =>
      refine ⟨hresult.nodup, ?_⟩
      simpa using hresult.perm
  | @created i streamer address config _ hfresh =>
      constructor
      · simp only [popCreate, List.map_append, List.map_cons, List.map_nil]
        apply List.nodup_append.2
        refine ⟨h.nodup, List.nodup_singleton _, ?_⟩
        intro a ha b hb
        rw [List.mem_singleton] at hb
        rintro rfl
        exact hfresh (hb ▸ ha)
      · simp only [popCreate, List.map_append, List.map_cons, List.map_nil]
        rw [← List.append_assoc]
        exact h.perm.append_right _
  | failed => exact ⟨h.nodup, h.perm⟩
  | @pushed streamer address hheld =>
      have hmem : address ∈ p.held.map Prod.snd := List.mem_map.2 ⟨_, hheld, rfl⟩
      have hunused : address ∉ p.mgr.unused := by
        have hboth := List.nodup_append.1 (h.perm.nodup_iff.1 h.nodup)
        intro hin
        exact hboth.2.2 address hin address hmem rfl
      refine ⟨h.nodup, h.perm.trans ?_⟩
      have herase : (p.held.map Prod.snd).Perm
          (address :: (p.held.erase (streamer, address)).map Prod.snd) :=
        (List.perm_cons_erase hheld).map Prod.snd
      apply (herase.append_left p.mgr.unused).trans
      apply List.perm_middle.trans
      exact ((insertUnused_perm hunused).symm.append_right _)
  | stopped _ =>
      have hmap : (p.mgr.stop.clients.map Client.address) = p.mgr.clients.map Client.address := by
        simp [ClientMgr.stop]
      constructor
      · change (p.mgr.stop.clients.map Client.address).Nodup
        rw [hmap]
        exact h.nodup
      · change (p.mgr.stop.clients.map Client.address).Perm _
        rw [hmap]
        exact h.perm
  | cleared _ _ _ =>
      by_cases hcount : p.mgr.unused.length = p.mgr.clients.length
      · have hheld : p.held.map Prod.snd = [] := by
          have hlength := h.perm.length_eq
          rw [List.length_append, List.length_map] at hlength
          exact List.length_eq_zero_iff.1 (by omega)
        have hclear : p.mgr.clear = ⟨[], []⟩ := by simp [ClientMgr.clear, hcount]
        refine ⟨by simp [hclear], ?_⟩
        simp only [hclear, hheld]
        exact List.Perm.refl _
      · have hclear : p.mgr.clear = p.mgr := by simp [ClientMgr.clear, hcount]
        exact ⟨by simp only [hclear]; exact h.nodup, by simp only [hclear]; exact h.perm⟩

/-- A step keeps the table. -/
theorem TableInv.step {p p' : ClientProcess κ} {action : ClientAction κ} (h : TableInv p)
    (hstep : p.step verify action = some p') : TableInv p' :=
  h.of_effect (h.effect hstep)

/-! ## Ending alone -/

/-- The condition on a step: while a streamer is ending, no other one uses clients. -/
def EndsAlone (p : ClientProcess κ) : ClientAction κ → Prop
  | .pop _ _ => ∀ streamer : Nat, p.phases[streamer]? ≠ some .ending
  | .stop streamer =>
      (∀ h ∈ p.held, h.1 ≠ streamer → p.phases[h.1]? ≠ some .live) ∧
        ∀ h ∈ p.creating, h.1 ≠ streamer → p.phases[h.1]? ≠ some .live
  | _ => True

/-- The user works for a streamer that may use clients. -/
def MayUse (p : ClientProcess κ) (user : Nat) : Prop :=
  p.phases[user]? = some .ending ∨
    (p.phases[user]? = some .live ∧ ∀ streamer : Nat, p.phases[streamer]? ≠ some .ending)

/-- While nobody is ending, no client is stopped; while somebody is, only they use clients. -/
structure EndingInv (p : ClientProcess κ) : Prop where
  stopped : ∀ client ∈ p.mgr.clients, client.stopped = true →
    ∃ streamer : Nat, p.phases[streamer]? = some .ending
  held : ∀ h ∈ p.held, MayUse p h.1
  creating : ∀ h ∈ p.creating, MayUse p h.1
  popped : ∀ streamer address flag, .popped streamer address flag ∈ p.events → flag = false
  spared : ∀ streamer address others, .stopped streamer address others ∈ p.events → others = []

/-- A new streamer is not ending. -/
theorem ending_of_concat_live {phases : List StreamerPhase} {k : Nat}
    (h : (phases ++ [.live])[k]? = some .ending) : phases[k]? = some .ending := by
  rcases getElem?_concat_cases h with hold | ⟨-, hnew⟩
  · exact hold
  · cases hnew

theorem MayUse.made {p : ClientProcess κ} {user : Nat} (h : MayUse p user) :
    MayUse { p with phases := p.phases ++ [.live] } user := by
  rcases h with hending | ⟨hlive, hnobody⟩
  · exact Or.inl (getElem?_concat_of_some hending _)
  · refine Or.inr ⟨getElem?_concat_of_some hlive _, ?_⟩
    intro streamer hending
    exact hnobody streamer (ending_of_concat_live hending)

/-- A streamer that pops alone gets a client that runs. -/
theorem EndingInv.pop {p : ClientProcess κ} (h : EndingInv p)
    (hnobody : ∀ streamer : Nat, p.phases[streamer]? ≠ some .ending) {client : Client κ}
    (hclient : client ∈ p.mgr.clients) : client.stopped = false := by
  cases hstopped : client.stopped with
  | false => rfl
  | true =>
      obtain ⟨streamer, hending⟩ := h.stopped client hclient hstopped
      exact absurd hending (hnobody streamer)

/-- A streamer that starts to end, while nobody else uses clients. -/
theorem EndingInv.stop {p : ClientProcess κ} (h : EndingInv p) {streamer : Nat}
    (hlive : p.phases[streamer]? = some .live) (hcond : EndsAlone p (.stop streamer)) :
    EndingInv
      { p with
        mgr := p.mgr.stop
        phases := p.phases.set streamer .ending
        events := p.events ++ p.mgr.clients.map fun client =>
          .stopped streamer client.address (p.victims streamer client.address) } := by
  have hset := getElem?_set_of_some hlive StreamerPhase.ending
  have hmay : ∀ user, MayUse p user →
      (user ≠ streamer → p.phases[user]? ≠ some .live) →
      (p.phases.set streamer .ending)[user]? = some .ending := by
    intro user huse hother
    rw [hset]
    by_cases huser : user = streamer
    · rw [if_pos huser]
    · rw [if_neg huser]
      rcases huse with hending | ⟨hlive', -⟩
      · exact hending
      · exact absurd hlive' (hother huser)
  refine ⟨?_, ?_, ?_, ?_, ?_⟩
  · intro client _ _
    exact ⟨streamer, by rw [hset, if_pos rfl]⟩
  · intro x hx
    exact Or.inl (hmay x.1 (h.held x hx) (hcond.1 x hx))
  · intro x hx
    exact Or.inl (hmay x.1 (h.creating x hx) (hcond.2 x hx))
  · intro s a flag hevent
    rcases List.mem_append.1 hevent with hmem | hmem
    · exact h.popped s a flag hmem
    · obtain ⟨client, -, heq⟩ := List.mem_map.1 hmem
      cases heq
  · intro s a others hevent
    rcases List.mem_append.1 hevent with hmem | hmem
    · exact h.spared s a others hmem
    · obtain ⟨client, -, heq⟩ := List.mem_map.1 hmem
      cases heq
      rw [victims, List.map_eq_nil_iff, List.filter_eq_nil_iff]
      intro x hx
      simp only [isIn, Bool.and_eq_true, decide_eq_true_eq, not_and, and_imp]
      intro _ hne
      exact hcond.1 x hx hne

/-- The last streamer that ends empties the table. -/
theorem EndingInv.clear {p : ClientProcess κ} (h : EndingInv p) (htable : TableInv p)
    {streamer : Nat} (hending : p.phases[streamer]? = some .ending)
    (hheld : ∀ x ∈ p.held, x.1 ≠ streamer) (hcreating : ∀ x ∈ p.creating, x.1 ≠ streamer) :
    EndingInv { p with mgr := p.mgr.clear, phases := p.phases.set streamer .ended } := by
  have hset := getElem?_set_of_some hending StreamerPhase.ended
  have hmay : ∀ user, user ≠ streamer → MayUse p user →
      (p.phases.set streamer .ended)[user]? = some .ending := by
    intro user hne huse
    rw [hset, if_neg hne]
    rcases huse with hsame | ⟨-, hnobody⟩
    · exact hsame
    · exact absurd hending (hnobody streamer)
  refine ⟨?_, ?_, ?_, h.popped, h.spared⟩
  · intro client hclient hstopped
    by_cases hempty : p.held = []
    · -- nobody holds a client, so the table was emptied
      have hlength := htable.perm.length_eq
      rw [hempty, List.length_map, List.map_nil, List.append_nil] at hlength
      have hclear : p.mgr.clear = ⟨[], []⟩ := by simp [ClientMgr.clear, hlength]
      simp only [hclear] at hclient
      cases hclient
    · obtain ⟨x, hx⟩ := List.exists_mem_of_ne_nil _ hempty
      exact ⟨x.1, hmay x.1 (hheld x hx) (h.held x hx)⟩
  · intro x hx
    exact Or.inl (hmay x.1 (hheld x hx) (h.held x hx))
  · intro x hx
    exact Or.inl (hmay x.1 (hcreating x hx) (h.creating x hx))

/-- A step under the condition keeps the invariant. -/
theorem EndingInv.step {p p' : ClientProcess κ} {action : ClientAction κ} (h : EndingInv p)
    (htable : TableInv p) (hcond : EndsAlone p action)
    (hstep : p.step verify action = some p') : EndingInv p' := by
  cases htable.effect hstep with
  | made =>
      refine ⟨?_, fun x hx => (h.held x hx).made, fun x hx => (h.creating x hx).made,
        h.popped, h.spared⟩
      intro client hclient hstopped
      obtain ⟨streamer, hending⟩ := h.stopped client hclient hstopped
      exact ⟨streamer, getElem?_concat_of_some hending _⟩
  | @missed streamer config mgr hphase hresult =>
      refine ⟨?_, h.held, ?_, h.popped, h.spared⟩
      · intro client hclient
        exact h.stopped client (hresult.sublist.subset hclient)
      · intro x hx
        rcases List.mem_append.1 hx with hmem | hmem
        · exact h.creating x hmem
        · rw [List.mem_singleton.1 hmem]
          exact Or.inr ⟨hphase.resolve_right (hcond streamer), hcond⟩
  | @reused streamer config client mgr hphase hresult =>
      refine ⟨?_, ?_, h.creating, ?_, ?_⟩
      · intro c hc
        exact h.stopped c (hresult.sublist.subset hc)
      · intro x hx
        rcases List.mem_append.1 hx with hmem | hmem
        · exact h.held x hmem
        · rw [List.mem_singleton.1 hmem]
          exact Or.inr ⟨hphase.resolve_right (hcond streamer), hcond⟩
      · intro s a flag hevent
        rcases List.mem_append.1 hevent with hmem | hmem
        · exact h.popped s a flag hmem
        · cases List.mem_singleton.1 hmem
          exact h.pop hcond (hresult.found_mem client rfl)
      · intro s a others hevent
        rcases List.mem_append.1 hevent with hmem | hmem
        · exact h.spared s a others hmem
        · cases List.mem_singleton.1 hmem
  | @created i streamer address config hcreating hfresh =>
      refine ⟨?_, ?_, ?_, ?_, ?_⟩
      · intro client hclient hstopped
        rcases List.mem_append.1 hclient with hmem | hmem
        · exact h.stopped client hmem hstopped
        · rw [List.mem_singleton.1 hmem] at hstopped
          cases hstopped
      · intro x hx
        rcases List.mem_append.1 hx with hmem | hmem
        · exact h.held x hmem
        · rw [List.mem_singleton.1 hmem]
          exact h.creating _ (List.mem_of_getElem? hcreating)
      · intro x hx
        exact h.creating x (List.mem_of_mem_eraseIdx hx)
      · intro s a flag hevent
        rcases List.mem_append.1 hevent with hmem | hmem
        · exact h.popped s a flag hmem
        · cases List.mem_singleton.1 hmem
          rfl
      · intro s a others hevent
        rcases List.mem_append.1 hevent with hmem | hmem
        · exact h.spared s a others hmem
        · cases List.mem_singleton.1 hmem
  | failed =>
      exact ⟨h.stopped, h.held, fun x hx => h.creating x (List.mem_of_mem_eraseIdx hx),
        h.popped, h.spared⟩
  | pushed _ =>
      exact ⟨h.stopped, fun x hx => h.held x (List.mem_of_mem_erase hx), h.creating,
        h.popped, h.spared⟩
  | stopped hlive => exact h.stop hlive hcond
  | cleared hending hheld hcreating => exact h.clear htable hending hheld hcreating

/-! ## The contract -/

/-- A client is held by one user at most. -/
def OneHolder (p : ClientProcess κ) : Prop :=
  (p.held.map Prod.snd).Nodup

/-- No pop returned a stopped client, and no stop hit a client of another live streamer. -/
structure SafeReuse (p : ClientProcess κ) : Prop where
  pop_running : ∀ streamer address flag,
    ClientEvent.popped streamer address flag ∈ p.events → flag = false
  stop_spares : ∀ streamer address others,
    ClientEvent.stopped streamer address others ∈ p.events → others = []

theorem TableInv.oneHolder {p : ClientProcess κ} (h : TableInv p) : OneHolder p :=
  (List.nodup_append.1 (h.perm.nodup_iff.1 h.nodup)).2.1

theorem tableInv_start : TableInv (ClientProcess.start : ClientProcess κ) :=
  ⟨List.nodup_nil, List.Perm.refl _⟩

theorem endingInv_start : EndingInv (ClientProcess.start : ClientProcess κ) := by
  refine ⟨?_, ?_, ?_, ?_, ?_⟩ <;> simp [ClientProcess.start]

/--
In every run every client is held by one user at most.  In every run in which no streamer
uses clients while another one is ending, pops return running clients and stops reach no
client of another live streamer.
-/
theorem client_reuse (verify : κ → κ → Bool) {actions : List (ClientAction κ)}
    {p : ClientProcess κ}
    (hrun : run (ClientProcess.step verify) ClientProcess.start actions = some p) :
    OneHolder p ∧
      (EachStep (ClientProcess.step verify) EndsAlone ClientProcess.start actions →
        SafeReuse p) := by
  constructor
  · have htable : TableInv p :=
      run_invariant (fun _ _ _ h hstep => h.step hstep) tableInv_start hrun
    exact htable.oneHolder
  · intro hall
    have hstep : ∀ p action p', TableInv p ∧ EndingInv p → EndsAlone p action →
        ClientProcess.step verify p action = some p' → TableInv p' ∧ EndingInv p' := by
      intro p action p' h hcond hstep
      exact ⟨h.1.step hstep, h.2.step h.1 hcond hstep⟩
    have hinv := run_invariant_of hstep ⟨tableInv_start, endingInv_start⟩ hall hrun
    exact ⟨hinv.2.popped, hinv.2.spared⟩

/-- Two streamers of one process, one after the other; the first construction throws. -/
def oneAfterTheOther : List (ClientAction Nat) :=
  [.make, .pop 0 7, .fail 0, .pop 0 7, .create 0 100, .stop 0, .push 0 100, .clear 0, .make,
    .pop 1 7, .create 0 100]

theorem client_reuse_oneAfterTheOther :
    ∃ p, run (ClientProcess.step fun a b : Nat => a == b) ClientProcess.start
        oneAfterTheOther = some p ∧ p.held = [(1, 100)] ∧ OneHolder p ∧ SafeReuse p := by
  have hnobody : ∀ {phases : List StreamerPhase}, .ending ∉ phases →
      ∀ streamer : Nat, phases[streamer]? ≠ some .ending :=
    fun hnot streamer hending => hnot (List.mem_of_getElem? hending)
  have hall : EachStep (ClientProcess.step fun a b : Nat => a == b) EndsAlone
      ClientProcess.start oneAfterTheOther := by
    apply (eachStep_cons rfl).2
    refine ⟨trivial, (eachStep_cons rfl).2 ⟨hnobody (by decide), ?_⟩⟩
    apply (eachStep_cons rfl).2
    refine ⟨trivial, (eachStep_cons rfl).2 ⟨hnobody (by decide), ?_⟩⟩
    apply (eachStep_cons rfl).2
    refine ⟨trivial, (eachStep_cons rfl).2 ⟨⟨by decide, by decide⟩, ?_⟩⟩
    apply (eachStep_cons rfl).2
    refine ⟨trivial, (eachStep_cons rfl).2 ⟨trivial, ?_⟩⟩
    apply (eachStep_cons rfl).2
    refine ⟨trivial, (eachStep_cons rfl).2 ⟨hnobody (by decide), ?_⟩⟩
    exact (eachStep_cons rfl).2 ⟨trivial, trivial⟩
  have hrun : run (ClientProcess.step fun a b : Nat => a == b) ClientProcess.start
      oneAfterTheOther = some _ := rfl
  have hreuse := client_reuse (fun a b : Nat => a == b) hrun
  exact ⟨_, hrun, rfl, hreuse.1, hreuse.2 hall⟩

/--
Two streamers that use the same credentials at the same time: when the second one ends it
stops the client of the first, which is live, and the client it gives back is popped again
although it was stopped.
-/
theorem shared_client_stopped :
    ∃ p, run (ClientProcess.step fun a b : Nat => a == b) ClientProcess.start
        [.make, .make, .pop 0 7, .create 0 100, .pop 1 7, .create 0 200, .stop 1, .push 1 200,
          .clear 1, .pop 0 7] = some p ∧
      ClientEvent.stopped 1 100 [0] ∈ p.events ∧ ClientEvent.popped 0 200 true ∈ p.events ∧
      ¬ SafeReuse p := by
  refine ⟨_, rfl, by decide, by decide, ?_⟩
  intro hsafe
  have hrunning := hsafe.pop_running 0 200 true (by decide)
  cases hrunning

end Common
end ModelStreamer
