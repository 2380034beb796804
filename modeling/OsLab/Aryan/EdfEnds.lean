import OsLab.Aryan.Edf
import OsLab.Bhanu.EdfEnds

/-! The two simulators of EDF have the same sentinel, and end on the same inputs. -/

namespace OsLab.Aryan

variable {np cpus np' ncpus : ℕ}

theorem edfSimulators_end_iff {jobs : Fin np → Bhanu.Process} {processes : Fin np' → Process}
    (bhanu : ∀ x, Bhanu.Fresh (jobs x)) (arrival : ∀ x, 0 ≤ (jobs x).arrivalTime)
    (aryan : ∀ x, Fresh (processes x)) (some : 0 < cpus) (others : 0 < ncpus) :
    ((∃ fuel p, Bhanu.Edf.runEdf fuel jobs cpus = .some p ∧ ∀ x, (p x).state = .finished) ↔
        ∀ x, (jobs x).deadline < 100000) ∧
      ((∃ fuel p, Edf.runEdf fuel processes ncpus = .some p ∧ ∀ x, (p x).state = .finished) ↔
        ∀ x, (processes x).deadline < 100000) :=
  ⟨Bhanu.Edf.runEdf_ends_iff bhanu arrival some, Edf.runEdf_ends_iff aryan others⟩

def far : Fin 1 → Bhanu.Process := ![Bhanu.initial 1 0 8 100000]

def farther : Fin 1 → Process := ![initial 1 0 8 100000]

theorem far_fresh (x : Fin 1) : Bhanu.Fresh (far x) := by
  fin_cases x
  exact Bhanu.initial_fresh (by decide)

theorem farther_fresh (x : Fin 1) : Fresh (farther x) := by
  fin_cases x
  exact initial_fresh (by decide) (by decide)

def near : Fin 2 → Bhanu.Process := ![Bhanu.initial 1 0 8 99999, Bhanu.initial 2 3 1 10]

theorem near_fresh (x : Fin 2) : Bhanu.Fresh (near x) := by
  fin_cases x <;> exact Bhanu.initial_fresh (by decide)

theorem edfSimulators_end_iff_far :
    (∃ fuel p, Bhanu.Edf.runEdf fuel near 1 = .some p ∧ ∀ x, (p x).state = .finished) ∧
      ¬ ∃ fuel p, Edf.runEdf fuel farther 1 = .some p ∧ ∀ x, (p x).state = .finished := by
  obtain ⟨ends, hangs⟩ := @edfSimulators_end_iff 2 1 1 1 near farther near_fresh
    (by decide) farther_fresh (by decide) (by decide)
  exact ⟨ends.mpr (by decide), fun ended => absurd (hangs.mp ended) (by decide)⟩

/-- Neither simulator comes to an end. -/
theorem edfSimulators_hang : (∀ x, Bhanu.Fresh (far x)) ∧ (∀ x, Fresh (farther x)) ∧
    (¬ ∃ fuel p, Bhanu.Edf.runEdf fuel far 1 = some p ∧ ∀ x, (p x).state = .finished) ∧
    ¬ ∃ fuel p, Edf.runEdf fuel farther 1 = some p ∧ ∀ x, (p x).state = .finished := by
  refine ⟨far_fresh, farther_fresh, ?_, ?_⟩
  · rw [Bhanu.Edf.runEdf_ends_iff far_fresh (by decide) (by decide)]
    decide
  · rw [Edf.runEdf_ends_iff farther_fresh (by decide)]
    decide

end OsLab.Aryan
