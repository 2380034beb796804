import OsLab.Bhanu.Types
import OsLab.Library.Loop
import OsLab.Library.Selection
import Mathlib.Data.Fintype.Basic
import Mathlib.Logic.Function.Basic

/-! The simulator of `Bhanu/src/edf.c`, for any number of processes and CPUs. -/

namespace OsLab.Bhanu.Edf

open OsLab.Library

/-- `p[]`, `cpu[]` and the two counters of `run_edf`. -/
structure Sim (np cpus : ℕ) where
  p : Fin np → Process
  cpu : Fin cpus → Cpu np
  cycle : Int
  finished : Int

variable {np cpus : ℕ}

/-- Ready process with the earliest deadline that has arrived; deadlines from 100000 on are
never below the initial `earliest`. -/
def pickEarliestDeadline (p : Fin np → Process) (cycle : Int) : Option (Fin np) :=
  scanLeast (fun i => (p i).state = .ready && (p i).arrivalTime ≤ cycle)
    (fun i => (p i).deadline) (List.finRange np) none 100000

def dispatch (sim : Sim np cpus) (i : Fin cpus) (best : Fin np) : Sim np cpus :=
  { sim with
    cpu := Function.update sim.cpu i { sim.cpu i with currentProcessId := some best }
    p := Function.update sim.p best { sim.p best with
      state := .running
      cpuId := i
      startTime := if (sim.p best).startTime = -1 then sim.cycle else (sim.p best).startTime } }

def preempt (sim : Sim np cpus) (running : Fin np) : Sim np cpus :=
  { sim with p := Function.update sim.p running { sim.p running with state := .ready } }

/-- The assignment loop `for (i = 0; i < cpus && best != -1; i++)`. -/
def assign : List (Fin cpus) → Option (Fin np) → Sim np cpus → Sim np cpus
  | [], _, sim => sim
  | _ :: _, none, sim => sim
  | i :: rest, some best, sim =>
      match (sim.cpu i).currentProcessId with
      | none =>
          let next := dispatch sim i best
          assign rest (pickEarliestDeadline next.p next.cycle) next
      | some running =>
          if (sim.p best).deadline < (sim.p running).deadline then
            let next := dispatch (preempt sim running) i best
            assign rest (pickEarliestDeadline next.p next.cycle) next
          else
            assign rest (some best) sim

def execute (sim : Sim np cpus) (i : Fin cpus) : Sim np cpus :=
  match (sim.cpu i).currentProcessId with
  | none => sim
  | some idx =>
      let remaining := (sim.p idx).remainingTime - 1
      if remaining = 0 then
        { sim with
          p := Function.update sim.p idx { sim.p idx with
            remainingTime := remaining
            state := .finished
            completionTime := sim.cycle + 1 }
          cpu := Function.update sim.cpu i { sim.cpu i with currentProcessId := none }
          finished := sim.finished + 1 }
      else
        { sim with p := Function.update sim.p idx { sim.p idx with remainingTime := remaining } }

def clockCycle (sim : Sim np cpus) : Sim np cpus :=
  let assigned := assign (List.finRange cpus) (pickEarliestDeadline sim.p sim.cycle) sim
  let executed := (List.finRange cpus).foldl execute assigned
  { executed with cycle := executed.cycle + 1 }

def start (cpus : ℕ) (p : Fin np → Process) : Sim np cpus where
  p := p
  cpu i := { id := i, currentProcessId := none, timeQuantumLeft := 0, busyTicks := 0 }
  cycle := 0
  finished := 0

/-- `p[]` when the `while` loop of `run_edf` ends within `fuel` cycles. -/
def runEdf (fuel : ℕ) (p : Fin np → Process) (cpus : ℕ) : Option (Fin np → Process) :=
  (whileLoop (fun sim : Sim np cpus => sim.finished < np) clockCycle fuel (start cpus p)).map Sim.p

/-- The deadline misses `show_results` counts and prints. -/
def misses (p : Fin np → Process) : ℕ :=
  ((List.finRange np).filter fun i => (p i).completionTime > (p i).deadline).length

theorem pickEarliestDeadline_none {p : Fin np → Process} {cycle : Int}
    (nothing : pickEarliestDeadline p cycle = none)
    {i : Fin np} (ready : (p i).state = .ready) (arrived : (p i).arrivalTime ≤ cycle) :
    100000 ≤ (p i).deadline :=
  scanLeast_none nothing i (List.mem_finRange i) (by simp [ready, arrived])

theorem pickEarliestDeadline_some {p : Fin np → Process} {cycle : Int} {best : Fin np}
    (found : pickEarliestDeadline p cycle = some best) :
    (p best).state = .ready ∧ (p best).arrivalTime ≤ cycle ∧
      ∀ i, (p i).state = .ready → (p i).arrivalTime ≤ cycle →
        (p best).deadline ≤ (p i).deadline := by
  obtain ⟨_, eligible, _, least⟩ := scanLeast_some found
  simp only [Bool.and_eq_true, decide_eq_true_eq] at eligible
  refine ⟨eligible.1, eligible.2, ?_⟩
  intro i ready arrived
  exact least i (List.mem_finRange i) (by simp [ready, arrived])

theorem pickEarliestDeadline_below {p : Fin np → Process} {cycle : Int} {best : Fin np}
    (found : pickEarliestDeadline p cycle = some best) : (p best).deadline < 100000 :=
  (scanLeast_some found).2.2.1

theorem misses_eq_zero {p : Fin np → Process}
    (met : ∀ i, (p i).completionTime ≤ (p i).deadline) : misses p = 0 := by
  have none : (List.finRange np).filter
      (fun i => decide ((p i).completionTime > (p i).deadline)) = [] := by
    apply List.filter_eq_nil_iff.mpr
    intro i _
    have := met i
    simp only [decide_eq_true_eq]
    omega
  simp [misses, none]

end OsLab.Bhanu.Edf
