import OsLab.Library.System

/-!
Refinement: a reachable step of a system shows one step of an abstract system, or nothing of it.
-/

namespace OsLab.Library

variable {σ ℓ α κ : Type*}

def Shows (spec : System α κ) (before : α) (event : Option κ) (after : α) : Prop :=
  match event with
  | none => after = before
  | some event => spec.step before event after

structure Refines (sys : System σ ℓ) (spec : System α κ) (abstract : σ → α)
    (event : σ → ℓ → Option κ) : Prop where
  init : ∀ state, sys.init state → spec.init (abstract state)
  step : ∀ before label after, sys.Reachable before → sys.step before label after →
    Shows spec (abstract before) (event before label) (abstract after)

inductive Seen (sys : System σ ℓ) (event : σ → ℓ → Option κ) : σ → List ℓ → List κ → σ → Prop
  | nil (state) : Seen sys event state [] [] state
  | cons {before label middle labels events after} : sys.step before label middle →
      Seen sys event middle labels events after →
      Seen sys event before (label :: labels) ((event before label).toList ++ events) after

namespace Refines

variable {sys : System σ ℓ} {spec : System α κ} {abstract : σ → α} {event : σ → ℓ → Option κ}

/-- The abstract run shows the events of the run in their order. -/
theorem run (refines : Refines sys spec abstract event) {before after : σ} {labels : List ℓ}
    (reached : sys.Reachable before) (ran : sys.Run before labels after) :
    ∃ events, Seen sys event before labels events after ∧
      spec.Run (abstract before) events (abstract after) := by
  induction ran with
  | nil state => exact ⟨[], .nil state, .nil _⟩
  | @cons before label middle labels after taken _ ih =>
      obtain ⟨events, seen, rest⟩ := ih (.step reached taken)
      refine ⟨_, .cons taken seen, ?_⟩
      have shown := refines.step before label middle reached taken
      cases found : event before label with
      | none =>
          rw [found] at shown
          exact (show abstract middle = abstract before from shown) ▸ rest
      | some first =>
          rw [found] at shown
          exact .cons shown rest

end Refines

/-- Where every step keeps an invariant and is a step of the abstract system with the same label,
the runs of the abstract system include those of the system. -/
theorem System.Run.abstract {sys : System σ ℓ} {spec : System α ℓ} {abstract : σ → α}
    {invariant : σ → Prop}
    (step : ∀ before label after, invariant before → sys.step before label after →
      invariant after ∧ spec.step (abstract before) label (abstract after))
    {before after : σ} {labels : List ℓ} (holds : invariant before)
    (run : sys.Run before labels after) : spec.Run (abstract before) labels (abstract after) := by
  induction run with
  | nil state => exact .nil _
  | cons taken _ ih =>
      obtain ⟨kept, shown⟩ := step _ _ _ holds taken
      exact .cons shown (ih kept)

end OsLab.Library
