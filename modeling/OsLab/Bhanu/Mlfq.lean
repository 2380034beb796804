import OsLab.Bhanu.Edf

/-! The simulator of `Bhanu/src/mlfq.c`, for any number of processes and CPUs. -/

namespace OsLab.Bhanu.Mlfq

open OsLab.Library
open Edf (Sim preempt)

variable {np cpus : ℕ}

def LEVELS : Int := 3

def BOOST_CYCLE : Int := 30

/-- q2 is FCFS. -/
def TQ (level : Int) : Int :=
  if level = 0 then 4 else if level = 1 then 8 else 100000

def pickByQueue (p : Fin np → Process) (curr : Int) : Option (Fin np) :=
  scanLeast (fun i => (p i).state = .ready && (p i).arrivalTime ≤ curr)
    (fun i => (p i).priorityLevel) (List.finRange np) none LEVELS

def boostOne (sim : Sim np cpus) (i : Fin np) : Sim np cpus :=
  match (sim.p i).state with
  | .ready => { sim with p := Function.update sim.p i { sim.p i with priorityLevel := 0 } }
  | .running =>
      { sim with
        p := Function.update sim.p i { sim.p i with priorityLevel := 0 }
        cpu := fun c =>
          if (c : Int) = (sim.p i).cpuId then { sim.cpu c with timeQuantumLeft := TQ 0 }
          else sim.cpu c }
  | .finished => sim

def boost (sim : Sim np cpus) : Sim np cpus :=
  if sim.cycle > 0 ∧ sim.cycle % BOOST_CYCLE = 0 then (List.finRange np).foldl boostOne sim
  else sim

def dispatch (sim : Sim np cpus) (i : Fin cpus) (best : Fin np) : Sim np cpus :=
  { sim with
    cpu := Function.update sim.cpu i { sim.cpu i with
      currentProcessId := some best
      timeQuantumLeft := TQ (sim.p best).priorityLevel }
    p := Function.update sim.p best { sim.p best with
      state := .running
      cpuId := i
      startTime := if (sim.p best).startTime = -1 then sim.cycle else (sim.p best).startTime } }

/-- One CPU of the loop that assigns idle CPUs and handles preemption. -/
def assignOne (sim : Sim np cpus) (i : Fin cpus) : Sim np cpus :=
  match pickByQueue sim.p sim.cycle with
  | none => sim
  | some best =>
      match (sim.cpu i).currentProcessId with
      | none => dispatch sim i best
      | some running =>
          if (sim.p best).priorityLevel < (sim.p running).priorityLevel then
            dispatch (preempt sim running) i best
          else sim

def execute (sim : Sim np cpus) (i : Fin cpus) : Sim np cpus :=
  match (sim.cpu i).currentProcessId with
  | none => sim
  | some idx =>
      let proc := sim.p idx
      let remaining := proc.remainingTime - 1
      let quantum :=
        if proc.priorityLevel < LEVELS - 1 then (sim.cpu i).timeQuantumLeft - 1
        else (sim.cpu i).timeQuantumLeft
      if remaining = 0 then
        { sim with
          p := Function.update sim.p idx { proc with
            remainingTime := remaining
            state := .finished
            completionTime := sim.cycle + 1 }
          cpu := Function.update sim.cpu i { sim.cpu i with
            timeQuantumLeft := quantum
            currentProcessId := none }
          finished := sim.finished + 1 }
      else if proc.priorityLevel < LEVELS - 1 ∧ quantum = 0 then
        { sim with
          p := Function.update sim.p idx { proc with
            remainingTime := remaining
            priorityLevel := proc.priorityLevel + 1
            state := .ready }
          cpu := Function.update sim.cpu i { sim.cpu i with
            timeQuantumLeft := quantum
            currentProcessId := none } }
      else
        { sim with
          p := Function.update sim.p idx { proc with remainingTime := remaining }
          cpu := Function.update sim.cpu i { sim.cpu i with timeQuantumLeft := quantum } }

def assign (sim : Sim np cpus) : Sim np cpus :=
  (List.finRange cpus).foldl assignOne (boost sim)

def clockCycle (sim : Sim np cpus) : Sim np cpus :=
  let executed := (List.finRange cpus).foldl execute (assign sim)
  { executed with cycle := executed.cycle + 1 }

def start (cpus : ℕ) (p : Fin np → Process) : Sim np cpus where
  p i := { p i with priorityLevel := 0 }
  cpu i := { id := i, currentProcessId := none, timeQuantumLeft := 0, busyTicks := 0 }
  cycle := 0
  finished := 0

/-- `p[]` when the `while` loop of `run_mlfq` ends within `fuel` cycles. -/
def runMlfq (fuel : ℕ) (p : Fin np → Process) (cpus : ℕ) : Option (Fin np → Process) :=
  (whileLoop (fun sim : Sim np cpus => sim.finished < np) clockCycle fuel (start cpus p)).map Sim.p

theorem pickByQueue_none {p : Fin np → Process} {curr : Int}
    (nothing : pickByQueue p curr = none) {i : Fin np} (ready : (p i).state = .ready)
    (arrived : (p i).arrivalTime ≤ curr) : LEVELS ≤ (p i).priorityLevel :=
  scanLeast_none nothing i (List.mem_finRange i) (by simp [ready, arrived])

theorem pickByQueue_some {p : Fin np → Process} {curr : Int} {best : Fin np}
    (found : pickByQueue p curr = some best) :
    (p best).state = .ready ∧ (p best).arrivalTime ≤ curr ∧
      ∀ i, (p i).state = .ready → (p i).arrivalTime ≤ curr →
        (p best).priorityLevel ≤ (p i).priorityLevel := by
  obtain ⟨_, eligible, _, least⟩ := scanLeast_some found
  simp only [Bool.and_eq_true, decide_eq_true_eq] at eligible
  refine ⟨eligible.1, eligible.2, ?_⟩
  intro i ready arrived
  exact least i (List.mem_finRange i) (by simp [ready, arrived])

end OsLab.Bhanu.Mlfq
