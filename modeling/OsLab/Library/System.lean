import Mathlib.Logic.Relation

/-!
Labelled transition systems, their reachable states and their runs, with the rule every
concurrent model of this development is built on: an inductive invariant holds of every
reachable state. A run that has been executed reaches its last state.
-/

namespace OsLab.Library

structure System (σ ℓ : Type*) where
  init : σ → Prop
  step : σ → ℓ → σ → Prop

namespace System

variable {σ ℓ : Type*} {sys : System σ ℓ}

inductive Reachable (sys : System σ ℓ) : σ → Prop
  | start {state} : sys.init state → Reachable sys state
  | step {before label after} : Reachable sys before → sys.step before label after →
      Reachable sys after

/-- A run lists the labels of consecutive steps, oldest first. -/
inductive Run (sys : System σ ℓ) : σ → List ℓ → σ → Prop
  | nil (state) : Run sys state [] state
  | cons {before label middle labels after} : sys.step before label middle →
      Run sys middle labels after → Run sys before (label :: labels) after

/-- The system whose steps are those of `sys` taken where `allowed` holds. -/
def restrict (sys : System σ ℓ) (allowed : σ → ℓ → Prop) : System σ ℓ where
  init := sys.init
  step before label after := allowed before label ∧ sys.step before label after

theorem Reachable.invariant {invariant : σ → Prop}
    (start : ∀ state, sys.init state → invariant state)
    (preserved : ∀ before label after, invariant before → sys.step before label after →
      invariant after)
    {state : σ} (reachable : sys.Reachable state) : invariant state := by
  induction reachable with
  | start initial => exact start _ initial
  | step _ taken ih => exact preserved _ _ _ ih taken

/-- Preservation may assume any fact already known of reachable states. -/
theorem Reachable.invariantWith {known invariant : σ → Prop}
    (established : ∀ state, sys.Reachable state → known state)
    (start : ∀ state, sys.init state → invariant state)
    (preserved : ∀ before label after, known before → known after → invariant before →
      sys.step before label after → invariant after)
    {state : σ} (reachable : sys.Reachable state) : invariant state := by
  induction reachable with
  | start initial => exact start _ initial
  | step earlier taken ih =>
      exact preserved _ _ _ (established _ earlier) (established _ (.step earlier taken)) ih taken

theorem Reachable.unrestrict {allowed : σ → ℓ → Prop} {state : σ}
    (reachable : (sys.restrict allowed).Reachable state) : sys.Reachable state := by
  induction reachable with
  | start initial => exact .start initial
  | step _ taken ih => exact .step ih taken.2

theorem Run.reachable {before after : σ} {labels : List ℓ} (run : sys.Run before labels after)
    (reachable : sys.Reachable before) : sys.Reachable after := by
  induction run with
  | nil _ => exact reachable
  | cons taken _ ih => exact ih (.step reachable taken)

theorem Run.snoc {before middle after : σ} {labels : List ℓ} {label : ℓ}
    (run : sys.Run before labels middle) (taken : sys.step middle label after) :
    sys.Run before (labels ++ [label]) after := by
  induction run with
  | nil _ => exact .cons taken (.nil _)
  | cons first _ ih => exact .cons first (ih taken)

def execute (step : σ → ℓ → Option σ) (state : σ) : List ℓ → Option σ
  | [] => some state
  | label :: labels => (step state label).bind fun next => execute step next labels

theorem Run.ofExecute {step : σ → ℓ → Option σ}
    (sound : ∀ before label after, step before label = some after → sys.step before label after)
    {state after : σ} {labels : List ℓ} (executed : execute step state labels = some after) :
    sys.Run state labels after := by
  induction labels generalizing state with
  | nil =>
      obtain rfl : state = after := by simpa [execute] using executed
      exact .nil _
  | cons label labels ih =>
      obtain ⟨next, taken, rest⟩ := Option.bind_eq_some_iff.mp executed
      exact .cons (sound _ _ _ taken) (ih rest)

theorem Run.existsOfExecute {α : Type*} {step : σ → ℓ → Option σ}
    (sound : ∀ before label after, step before label = some after → sys.step before label after)
    {state : σ} {labels : List ℓ} {view : σ → α} {value : α}
    (executed : (execute step state labels).map view = some value) :
    ∃ after, sys.Run state labels after ∧ view after = value := by
  obtain ⟨after, ran, seen⟩ := Option.map_eq_some_iff.mp executed
  exact ⟨after, .ofExecute sound ran, seen⟩

/-- An executable step taken only where it is allowed. -/
def guard (allowed : σ → ℓ → Prop) [∀ state label, Decidable (allowed state label)]
    (step : σ → ℓ → Option σ) (state : σ) (label : ℓ) : Option σ :=
  if allowed state label then step state label else none

theorem guard_sound {allowed : σ → ℓ → Prop} [∀ state label, Decidable (allowed state label)]
    {step : σ → ℓ → Option σ}
    (sound : ∀ before label after, step before label = some after → sys.step before label after)
    (before : σ) (label : ℓ) (after : σ) (taken : guard allowed step before label = some after) :
    (sys.restrict allowed).step before label after := by
  rw [guard] at taken
  split at taken
  · exact ⟨by assumption, sound _ _ _ taken⟩
  · simp at taken

end System

end OsLab.Library
