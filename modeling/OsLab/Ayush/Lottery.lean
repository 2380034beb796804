import OsLab.Ayush.RmsDispatch
import OsLab.Library.Drawing

/-!
`run_lottery` of `Ayush/src/algorithms.c`, for any number of processes and CPUs and for any
results of `rand()`. A sum of tickets is not cut to the width of an `int`.
-/

namespace OsLab.Ayush

open OsLab.Library

/-- A line that `print_metrics` prints for a process. -/
structure Metrics where
  id : Int
  arrival : Int
  burst : Int
  start : Int
  finish : Int
  turnaround : Int
  waiting : Int
  deriving DecidableEq, Repr

/-- `print_metrics`, without its averages. -/
def metrics (process : Process) : Metrics :=
  let tat := process.completionTime - process.arrivalTime
  { id := process.id
    arrival := process.arrivalTime
    burst := process.burstTime
    start := process.startTime
    finish := process.completionTime
    turnaround := tat
    waiting := tat - process.burstTime }

namespace Lottery

/-- The state of `run_lottery`; `draws` counts the calls of `rand()` made so far. -/
structure Sim (n c : ℕ) extends Ayush.Sim n c where
  draws : ℕ

variable {n c : ℕ}

def timeQuantum : Int := 4

def eligible (sim : Sim n c) (p : Fin n) : Bool :=
  (sim.processes p).state = .ready && (sim.processes p).arrivalTime ≤ sim.currentTime

/-- The sum of the tickets of all READY processes that have arrived. -/
def totalTickets (sim : Sim n c) (visits : List (Fin n)) (total : Int) : Int :=
  visits.foldl (fun total p => if eligible sim p then total + (sim.processes p).tickets else total)
    total

def owner (sim : Sim n c) (winner : Int) : List (Fin n) → Int → Option (Fin n)
  | [], _ => none
  | p :: rest, cumulative =>
      if eligible sim p then
        if cumulative + (sim.processes p).tickets ≥ winner then some p
        else owner sim winner rest (cumulative + (sim.processes p).tickets)
      else owner sim winner rest cumulative

def dispatch (sim : Sim n c) (i : Fin c) (p : Fin n) : Sim n c :=
  { sim with
    cpus := Function.update sim.cpus i
      { sim.cpus i with currentProcessId := some p, timeQuantumLeft := timeQuantum }
    processes := Function.update sim.processes p { sim.processes p with
      state := .running
      cpuId := i
      startTime :=
        if (sim.processes p).startTime = -1 then sim.currentTime
        else (sim.processes p).startTime } }

def draw (rand : ℕ → Int) (sim : Sim n c) (i : Fin c) : Sim n c :=
  match (sim.cpus i).currentProcessId with
  | some _ => sim
  | none =>
      let total := totalTickets sim (List.finRange n) 0
      if total = 0 then sim
      else
        let winner := (rand sim.draws).tmod total + 1
        let drawn := { sim with draws := sim.draws + 1 }
        match owner sim winner (List.finRange n) 0 with
        | none => drawn
        | some p => dispatch drawn i p

def drawAll (rand : ℕ → Int) (sim : Sim n c) : Sim n c := (List.finRange c).foldl (draw rand) sim

def execute (sim : Sim n c) (i : Fin c) : Sim n c :=
  match (sim.cpus i).currentProcessId with
  | none => sim
  | some pid =>
      let remaining := (sim.processes pid).remainingTime - 1
      let quantum := (sim.cpus i).timeQuantumLeft - 1
      if remaining = 0 then
        { sim with
          processes := Function.update sim.processes pid { sim.processes pid with
            remainingTime := remaining
            state := .finished
            completionTime := sim.currentTime + 1 }
          cpus := Function.update sim.cpus i
            { sim.cpus i with currentProcessId := none, timeQuantumLeft := quantum }
          completedCount := sim.completedCount + 1 }
      else if quantum = 0 then
        { sim with
          processes := Function.update sim.processes pid
            { sim.processes pid with remainingTime := remaining, state := .ready }
          cpus := Function.update sim.cpus i
            { sim.cpus i with currentProcessId := none, timeQuantumLeft := quantum } }
      else
        { sim with
          processes := Function.update sim.processes pid
            { sim.processes pid with remainingTime := remaining }
          cpus := Function.update sim.cpus i { sim.cpus i with timeQuantumLeft := quantum } }

def tick (rand : ℕ → Int) (sim : Sim n c) : Sim n c :=
  let executed := (List.finRange c).foldl execute (drawAll rand sim)
  { executed with currentTime := executed.currentTime + 1 }

def start (c : ℕ) (processes : Fin n → Process) : Sim n c where
  processes := processes
  cpus i := { id := i, currentProcessId := none, timeQuantumLeft := 0 }
  currentTime := 0
  completedCount := 0
  draws := 0

/-- `processes[]` when the `while` loop of `run_lottery` ends within `fuel` ticks. -/
def runLottery (fuel : ℕ) (rand : ℕ → Int) (processes : Fin n → Process) (c : ℕ) :
    Option (Fin n → Process) :=
  (whileLoop (fun sim : Sim n c => sim.completedCount < n) (tick rand) fuel
    (start c processes)).map fun sim => sim.processes

/-! ### A draw -/

variable {sim : Sim n c}

theorem totalTickets_eq (sim : Sim n c) (visits : List (Fin n)) (total : Int) :
    totalTickets sim visits total =
      sumWeights (· + ·) (eligible sim) (fun p => (sim.processes p).tickets) visits total := by
  induction visits generalizing total with
  | nil => rfl
  | cons p rest ih =>
      simp only [totalTickets, List.foldl_cons, sumWeights] at ih ⊢
      split
      · exact ih _
      · exact ih _

/-- Counting tickets from 1 with `≥` is counting them from 0 with `<`. -/
theorem owner_eq (sim : Sim n c) (drawn : Int) (visits : List (Fin n)) (cumulative : Int) :
    owner sim (drawn + 1) visits cumulative =
      scanDrawn (· + ·) (eligible sim) (fun p => (sim.processes p).tickets) drawn visits
        cumulative := by
  induction visits generalizing cumulative with
  | nil => rfl
  | cons p rest ih =>
      have same : cumulative + (sim.processes p).tickets ≥ drawn + 1 ↔
          drawn < cumulative + (sim.processes p).tickets := by omega
      simp only [owner, scanDrawn, same, ih]

theorem draw_found {rand : ℕ → Int} {i : Fin c} {total drawn : Int} {p : Fin n}
    (idle : (sim.cpus i).currentProcessId = none)
    (counted : totalTickets sim (List.finRange n) 0 = total) (shared : total ≠ 0)
    (left : (rand sim.draws).tmod total = drawn)
    (found : scanDrawn (· + ·) (eligible sim) (fun p => (sim.processes p).tickets) drawn
      (List.finRange n) 0 = some p) :
    draw rand sim i = dispatch { sim with draws := sim.draws + 1 } i p := by
  have won : owner sim ((rand sim.draws).tmod total + 1) (List.finRange n) 0 = some p := by
    rw [owner_eq, left, found]
  simp only [draw, idle, counted, if_neg shared, won]

theorem draw_cases {rand : ℕ → Int} (tickets : ∀ p, 1 ≤ (sim.processes p).tickets)
    (random : ∀ k, 0 ≤ rand k) {i : Fin c} (idle : (sim.cpus i).currentProcessId = none) :
    (∀ p, eligible sim p = false) ∧ draw rand sim i = sim ∨
      ∃ p, eligible sim p = true ∧
        draw rand sim i = dispatch { sim with draws := sim.draws + 1 } i p := by
  have counted := totalTickets_eq sim (List.finRange n) 0
  have nonneg : 0 ≤ totalTickets sim (List.finRange n) 0 := by
    rw [counted]
    exact sumWeights_ge fun p _ _ => (tickets p).trans' zero_le_one
  by_cases none : totalTickets sim (List.finRange n) 0 = 0
  · left
    refine ⟨fun p => ?_, by simp only [draw, idle, if_pos none]⟩
    exact sumWeights_zero (fun p _ _ => tickets p) (counted ▸ none) p (List.mem_finRange p)
  · right
    have lower : 0 ≤ (rand sim.draws).tmod (totalTickets sim (List.finRange n) 0) :=
      Int.tmod_nonneg _ (random _)
    have upper : (rand sim.draws).tmod (totalTickets sim (List.finRange n) 0) <
        totalTickets sim (List.finRange n) 0 := Int.tmod_lt_of_pos _ (by omega)
    obtain ⟨p, found⟩ := scanDrawn_found lower (upper.trans_eq counted)
    exact ⟨p, (scanDrawn_some found).2, draw_found idle rfl none rfl found⟩

end Lottery

end OsLab.Ayush
