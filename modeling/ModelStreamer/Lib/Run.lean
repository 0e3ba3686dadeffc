import Mathlib.Tactic.Common

/-!
# Runs of transition systems

A transition system is a partial step function: in a state, an action either happens and
gives the next state or is not possible.  A run is a list of actions that all happen.

Main results:

- Theorem {lit}`run_invariant`: what every step keeps, every run keeps.
- Theorem {lit}`run_invariant_of`: the same for runs whose steps all meet a condition on the
  state they start from.
- Theorem {lit}`run_simulates`: a system whose steps are runs of another one is simulated by it.
- Theorem {lit}`run_follows`: a system whose trace is a run of another one stays related to it.
- Theorem {lit}`run_map`: a map that commutes with the steps, as long as an invariant holds,
  commutes with the runs.
-/

namespace ModelStreamer
namespace Lib

variable {σ ι : Type*}

/-- Perform the actions one after the other. -/
def run (step : σ → ι → Option σ) : σ → List ι → Option σ
  | s, [] => some s
  | s, action :: actions => (step s action).bind fun s' => run step s' actions

/-- Every action of the run meets the condition in the state it is taken from. -/
def EachStep (step : σ → ι → Option σ) (P : σ → ι → Prop) : σ → List ι → Prop
  | _, [] => True
  | s, action :: actions =>
      P s action ∧ ∀ s', step s action = some s' → EachStep step P s' actions

variable {step : σ → ι → Option σ}

@[simp]
theorem run_nil (s : σ) : run step s [] = some s :=
  rfl

/-- A run that is not empty takes its first step and runs on. -/
theorem run_cons {s s' : σ} {action : ι} {actions : List ι} :
    run step s (action :: actions) = some s' ↔
      ∃ s₁, step s action = some s₁ ∧ run step s₁ actions = some s' :=
  Option.bind_eq_some_iff

/-- The condition along a run whose first step is known. -/
theorem eachStep_cons {P : σ → ι → Prop} {s s₁ : σ} {action : ι} {actions : List ι}
    (hstep : step s action = some s₁) :
    EachStep step P s (action :: actions) ↔ P s action ∧ EachStep step P s₁ actions := by
  constructor
  · intro h
    exact ⟨h.1, h.2 s₁ hstep⟩
  · rintro ⟨hcond, hrest⟩
    refine ⟨hcond, fun s' hs' => ?_⟩
    rw [← Option.some.inj (hstep.symm.trans hs')]
    exact hrest

/-- The condition can be checked along a run. -/
instance EachStep.decidable {P : σ → ι → Prop} [∀ s action, Decidable (P s action)] :
    ∀ (s : σ) (actions : List ι), Decidable (EachStep step P s actions)
  | _, [] => .isTrue trivial
  | s, action :: actions =>
      match hstep : step s action with
      | none =>
          decidable_of_iff (P s action)
            ⟨fun h => ⟨h, fun s' hs' => by rw [hstep] at hs'; cases hs'⟩, And.left⟩
      | some s₁ =>
          haveI : Decidable (EachStep step P s₁ actions) := EachStep.decidable s₁ actions
          decidable_of_iff (P s action ∧ EachStep step P s₁ actions) (eachStep_cons hstep).symm

/-- A condition that does not depend on the state. -/
theorem eachStep_of_forall {C : ι → Prop} {s : σ} {actions : List ι}
    (h : ∀ action ∈ actions, C action) :
    EachStep step (fun _ action => C action) s actions := by
  induction actions generalizing s with
  | nil => trivial
  | cons action actions ih =>
      refine ⟨h action List.mem_cons_self, fun s' _ => ?_⟩
      exact ih fun a ha => h a (List.mem_cons_of_mem _ ha)

/-- Runs compose. -/
theorem run_append {s s' : σ} {xs ys : List ι} :
    run step s (xs ++ ys) = some s' ↔
      ∃ s₁, run step s xs = some s₁ ∧ run step s₁ ys = some s' := by
  induction xs generalizing s with
  | nil => simp
  | cons x xs ih =>
      simp only [List.cons_append, run_cons, ih]
      constructor
      · rintro ⟨s₁, h₁, s₂, h₂, h₃⟩
        exact ⟨s₂, ⟨s₁, h₁, h₂⟩, h₃⟩
      · rintro ⟨s₂, ⟨s₁, h₁, h₂⟩, h₃⟩
        exact ⟨s₁, h₁, s₂, h₂, h₃⟩

/-- A property that every step keeps holds after every run. -/
theorem run_invariant {P : σ → Prop}
    (hstep : ∀ s action s', P s → step s action = some s' → P s')
    {s s' : σ} {actions : List ι} (hs : P s) (hrun : run step s actions = some s') :
    P s' := by
  induction actions generalizing s with
  | nil =>
      cases hrun
      exact hs
  | cons action actions ih =>
      obtain ⟨s₁, h₁, hrest⟩ := run_cons.1 hrun
      exact ih (hstep s action s₁ hs h₁) hrest

/-- A property that every step under the condition keeps holds after every such run. -/
theorem run_invariant_of {P : σ → Prop} {C : σ → ι → Prop}
    (hstep : ∀ s action s', P s → C s action → step s action = some s' → P s')
    {s s' : σ} {actions : List ι} (hs : P s) (hall : EachStep step C s actions)
    (hrun : run step s actions = some s') : P s' := by
  induction actions generalizing s with
  | nil =>
      cases hrun
      exact hs
  | cons action actions ih =>
      obtain ⟨s₁, h₁, hrest⟩ := run_cons.1 hrun
      exact ih (hstep s action s₁ hs hall.1 h₁) (hall.2 s₁ h₁) hrest

/-- A condition that an invariant implies is met all along. -/
theorem eachStep_of_invariant {P : σ → Prop} {C : σ → ι → Prop}
    (hstep : ∀ s action s', P s → step s action = some s' → P s')
    (hcondition : ∀ s action, P s → C s action) {s : σ} {actions : List ι} (hs : P s) :
    EachStep step C s actions := by
  induction actions generalizing s with
  | nil => trivial
  | cons action actions ih =>
      exact ⟨hcondition s action hs, fun s' h => ih (hstep s action s' hs h)⟩

/-- Two conditions that are met all along are met together. -/
theorem EachStep.and {C D : σ → ι → Prop} {s : σ} {actions : List ι}
    (hC : EachStep step C s actions) (hD : EachStep step D s actions) :
    EachStep step (fun s action => C s action ∧ D s action) s actions := by
  induction actions generalizing s with
  | nil => trivial
  | cons action actions ih =>
      exact ⟨⟨hC.1, hD.1⟩, fun s' h => ih (hC.2 s' h) (hD.2 s' h)⟩

/-- A run is no longer than the work that its steps use up. -/
theorem run_length_le {P : σ → Prop} {C : σ → ι → Prop} {work : σ → Nat}
    (hstep : ∀ s action s', P s → C s action → step s action = some s' →
      P s' ∧ work s' < work s)
    {s s' : σ} {actions : List ι} (hs : P s) (hall : EachStep step C s actions)
    (hrun : run step s actions = some s') : actions.length + work s' ≤ work s := by
  induction actions generalizing s with
  | nil =>
      cases hrun
      simp
  | cons action actions ih =>
      obtain ⟨s₁, h₁, hrest⟩ := run_cons.1 hrun
      obtain ⟨hs₁, hless⟩ := hstep s action s₁ hs hall.1 h₁
      have hrec := ih hs₁ (hall.2 s₁ h₁) hrest
      rw [List.length_cons]
      omega

/-! ## Simulation -/

section Simulation

variable {τ κ : Type*}

/-- What the actions of a run are in another system. -/
def traceOf (step : σ → ι → Option σ) (trace : σ → ι → List κ) : σ → List ι → List κ
  | _, [] => []
  | s, action :: actions =>
      trace s action ++ ((step s action).map fun s' => traceOf step trace s' actions).getD []

/-- A system whose steps are runs of another one, from related states, is simulated by it. -/
theorem run_simulates {step' : τ → κ → Option τ} {R : σ → τ → Prop} {C : σ → ι → Prop}
    {trace : σ → ι → List κ}
    (hstep : ∀ s t action s', R s t → C s action → step s action = some s' →
      ∃ t', run step' t (trace s action) = some t' ∧ R s' t')
    {s s' : σ} {t : τ} {actions : List ι} (hrelated : R s t) (hall : EachStep step C s actions)
    (hrun : run step s actions = some s') :
    ∃ t', run step' t (traceOf step trace s actions) = some t' ∧ R s' t' := by
  induction actions generalizing s t with
  | nil =>
      cases hrun
      exact ⟨t, rfl, hrelated⟩
  | cons action actions ih =>
      obtain ⟨s₁, h₁, hrest⟩ := run_cons.1 hrun
      obtain ⟨t₁, ht₁, hrelated₁⟩ := hstep s t action s₁ hrelated hall.1 h₁
      obtain ⟨t', ht', hrelated'⟩ := ih hrelated₁ (hall.2 s₁ h₁) hrest
      refine ⟨t', ?_, hrelated'⟩
      unfold traceOf
      rw [h₁]
      exact run_append.2 ⟨t₁, ht₁, ht'⟩

/-- A system whose trace is a run of another one, from related states, stays related to it. -/
theorem run_follows {step' : τ → κ → Option τ} {R : σ → τ → Prop} {trace : σ → ι → List κ}
    (hstep : ∀ s t action s' t', R s t → step s action = some s' →
      run step' t (trace s action) = some t' → R s' t')
    {s s' : σ} {t t' : τ} {actions : List ι} (hrelated : R s t)
    (hrun : run step s actions = some s')
    (htrace : run step' t (traceOf step trace s actions) = some t') : R s' t' := by
  induction actions generalizing s t with
  | nil =>
      cases hrun
      cases htrace
      exact hrelated
  | cons action actions ih =>
      obtain ⟨s₁, h₁, hrest⟩ := run_cons.1 hrun
      unfold traceOf at htrace
      rw [h₁] at htrace
      obtain ⟨t₁, ht₁, htrest⟩ := run_append.1 htrace
      exact ih (hstep s t action s₁ t₁ hrelated h₁ ht₁) hrest htrest

/-- A map that the steps of two systems commute with, while the first one keeps an invariant,
takes the runs of one to those of the other. -/
theorem run_map {step' : τ → ι → Option τ} {f : σ → τ} {P : σ → Prop} {C : ι → Prop}
    (hinv : ∀ s action s', P s → C action → step s action = some s' → P s')
    (hstep : ∀ s action, P s → (step s action).map f = step' (f s) action) {s : σ}
    {actions : List ι} (hs : P s) (hall : ∀ action ∈ actions, C action) :
    (run step s actions).map f = run step' (f s) actions := by
  induction actions generalizing s with
  | nil => rfl
  | cons action actions ih =>
      unfold run
      rw [← hstep s action hs]
      cases hs₁ : step s action with
      | none => rfl
      | some s₁ =>
          exact ih (hinv s action s₁ hs (hall action (by simp)) hs₁)
            fun other hother => hall other (by simp [hother])

end Simulation

end Lib
end ModelStreamer
