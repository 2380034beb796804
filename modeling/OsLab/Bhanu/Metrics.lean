import OsLab.Bhanu.EdfDispatch
import OsLab.Bhanu.MlfqDispatch

/-! The tables that `show_results` prints after `run_mlfq` and `run_edf`. -/

namespace OsLab.Bhanu

open OsLab.Library

variable {np cpus : ℕ}

theorem Mlfq.run_reported (jobs : Fin np → Process) (fresh : ∀ x, Fresh (jobs x))
    (nonneg : ∀ x, 0 ≤ (jobs x).arrivalTime) (unstarted : ∀ x, (jobs x).startTime = -1)
    (processors : 0 < cpus) :
    ∃ fuel rounds, runMlfq fuel jobs cpus = some (clockCycle^[rounds] (start cpus jobs)).p ∧
      Reported jobs (fun t => assign (clockCycle^[t] (start cpus jobs))) rounds
        (clockCycle^[rounds] (start cpus jobs)).p := by
  obtain ⟨fuel, rounds, ended, reported⟩ := (simulates jobs).reported fresh nonneg unstarted
    (start_begins cpus jobs) (start_levels cpus jobs) processors
  refine ⟨fuel, rounds, ?_, reported⟩
  exact congrArg (Option.map Edf.Sim.p) ended

theorem Edf.run_reported (jobs : Fin np → Process) (fresh : ∀ x, Fresh (jobs x))
    (nonneg : ∀ x, 0 ≤ (jobs x).arrivalTime) (unstarted : ∀ x, (jobs x).startTime = -1)
    (processors : 0 < cpus)
    (bounded : ∀ x, (jobs x).deadline < 100000) :
    ∃ fuel rounds, runEdf fuel jobs cpus = some (clockCycle^[rounds] (start cpus jobs)).p ∧
      Reported jobs (fun t => assigned (clockCycle^[t] (start cpus jobs))) rounds
        (clockCycle^[rounds] (start cpus jobs)).p := by
  obtain ⟨fuel, rounds, ended, reported⟩ := (simulates bounded).reported fresh nonneg unstarted
    (start_begins cpus jobs) trivial processors
  refine ⟨fuel, rounds, ?_, reported⟩
  exact congrArg (Option.map Edf.Sim.p) ended

/-- Both simulators end, and their tables tell what happened in the cycles. -/
theorem tables_reported (jobs : Fin np → Process) (fresh : ∀ x, Fresh (jobs x))
    (nonneg : ∀ x, 0 ≤ (jobs x).arrivalTime) (unstarted : ∀ x, (jobs x).startTime = -1)
    (processors : 0 < cpus) :
    (∃ fuel rounds, Mlfq.runMlfq fuel jobs cpus =
        some (Mlfq.clockCycle^[rounds] (Mlfq.start cpus jobs)).p ∧
      Reported jobs (fun t => Mlfq.assign (Mlfq.clockCycle^[t] (Mlfq.start cpus jobs))) rounds
        (Mlfq.clockCycle^[rounds] (Mlfq.start cpus jobs)).p) ∧
    ((∀ x, (jobs x).deadline < 100000) →
      ∃ fuel rounds, Edf.runEdf fuel jobs cpus =
          some (Edf.clockCycle^[rounds] (Edf.start cpus jobs)).p ∧
        Reported jobs (fun t => Edf.assigned (Edf.clockCycle^[t] (Edf.start cpus jobs))) rounds
          (Edf.clockCycle^[rounds] (Edf.start cpus jobs)).p) := by
  constructor
  · exact Mlfq.run_reported jobs fresh nonneg unstarted processors
  · exact Edf.run_reported jobs fresh nonneg unstarted processors

theorem tables_reported_firstRows :
    (∃ fuel rounds, Mlfq.runMlfq fuel firstRows 2 =
        some (Mlfq.clockCycle^[rounds] (Mlfq.start 2 firstRows)).p ∧
      Reported firstRows (fun t => Mlfq.assign (Mlfq.clockCycle^[t] (Mlfq.start 2 firstRows)))
        rounds (Mlfq.clockCycle^[rounds] (Mlfq.start 2 firstRows)).p) ∧
    ∃ fuel rounds, Edf.runEdf fuel firstRows 2 =
        some (Edf.clockCycle^[rounds] (Edf.start 2 firstRows)).p ∧
      Reported firstRows (fun t => Edf.assigned (Edf.clockCycle^[t] (Edf.start 2 firstRows)))
        rounds (Edf.clockCycle^[rounds] (Edf.start 2 firstRows)).p := by
  have tables := tables_reported firstRows firstRows_fresh (by decide) (by decide) Nat.zero_lt_two
  exact ⟨tables.1, tables.2 (by decide)⟩

end OsLab.Bhanu
