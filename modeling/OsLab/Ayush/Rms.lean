import OsLab.Library.Loop
import OsLab.Library.Selection
import Mathlib.Data.List.FinRange
import Mathlib.Data.List.Sort

/-!
`run_rms` of `Ayush/src/algorithms.c`, for any number of processes and CPUs. The C `int`s are
integers, so the clock and the counters are taken not to overflow.
-/

namespace OsLab.Ayush

open OsLab.Library

inductive State
  | ready
  | running
  | finished
  deriving DecidableEq, Repr

structure Process where
  id : Int
  arrivalTime : Int
  burstTime : Int
  remainingTime : Int
  period : Int
  tickets : Int
  priorityLevel : Int
  state : State
  completionTime : Int
  startTime : Int
  cpuId : Int
  deriving DecidableEq, Repr

/-- A process index of `-1` is `none`. -/
structure Cpu (n : ℕ) where
  id : Int
  currentProcessId : Option (Fin n)
  timeQuantumLeft : Int
  deriving DecidableEq, Repr

/-- `processes[]`, `cpus[]` and the two counters of `run_rms`. -/
structure Sim (n c : ℕ) where
  processes : Fin n → Process
  cpus : Fin c → Cpu n
  currentTime : Int
  completedCount : Int

namespace Rms

variable {n c : ℕ}

def INT_MAX : Int := 2147483647

/-- `ready_order` before it is sorted. -/
def readyOrder (sim : Sim n c) : List (Fin n) :=
  (List.finRange n).filter fun p =>
    (sim.processes p).state = .ready && (sim.processes p).arrivalTime ≤ sim.currentTime

/-- The inner loop of the insertion sort; the sorted part is given from its end. -/
def insertKey (period : Fin n → Int) (key : Fin n) : List (Fin n) → List (Fin n)
  | [] => [key]
  | last :: rest =>
      if period last > period key then last :: insertKey period key rest
      else key :: last :: rest

def insertionSort (period : Fin n → Int) (order : List (Fin n)) : List (Fin n) :=
  (order.foldl (fun sorted key => insertKey period key sorted) []).reverse

/-- The first idle CPU, or the first of those that run a task with the longest period. -/
def worstCpu (sim : Sim n c) : List (Fin c) → Option (Fin c) → Int → Option (Fin c)
  | [], worst, _ => worst
  | i :: rest, worst, worstPeriod =>
      match (sim.cpus i).currentProcessId with
      | none => some i
      | some running =>
          if (sim.processes running).period > worstPeriod then
            worstCpu sim rest (some i) (sim.processes running).period
          else worstCpu sim rest worst worstPeriod

def assign (sim : Sim n c) (i : Fin c) (p : Fin n) : Sim n c :=
  { sim with
    cpus := Function.update sim.cpus i { sim.cpus i with currentProcessId := some p }
    processes := Function.update sim.processes p { sim.processes p with
      state := .running
      cpuId := i
      startTime :=
        if (sim.processes p).startTime = -1 then sim.currentTime
        else (sim.processes p).startTime } }

def preempt (sim : Sim n c) (running : Fin n) : Sim n c :=
  { sim with
    processes := Function.update sim.processes running
      { sim.processes running with state := .ready } }

/-- The preemption check on busy CPUs, for the candidates of the list. -/
def offerAll : List (Fin n) → Sim n c → Sim n c
  | [], sim => sim
  | candidate :: rest, sim =>
      match worstCpu sim (List.finRange c) none (-1) with
      | none => sim
      | some worst =>
          match (sim.cpus worst).currentProcessId with
          | none => offerAll rest (assign sim worst candidate)
          | some running =>
              if (sim.processes candidate).period < (sim.processes running).period then
                offerAll rest (assign (preempt sim running) worst candidate)
              else offerAll rest sim

/-- One CPU of the loop that assigns remaining READY tasks to idle CPUs. -/
def fillOne (sim : Sim n c) (i : Fin c) : Sim n c :=
  match (sim.cpus i).currentProcessId with
  | some _ => sim
  | none =>
      match scanLeast (fun p => (sim.processes p).state = .ready &&
            (sim.processes p).arrivalTime ≤ sim.currentTime)
          (fun p => (sim.processes p).period) (List.finRange n) none INT_MAX with
      | none => sim
      | some best => assign sim i best

def assignAll (sim : Sim n c) : Sim n c :=
  (List.finRange c).foldl fillOne
    (offerAll (insertionSort (fun p => (sim.processes p).period) (readyOrder sim)) sim)

def execute (sim : Sim n c) (i : Fin c) : Sim n c :=
  match (sim.cpus i).currentProcessId with
  | none => sim
  | some pid =>
      let remaining := (sim.processes pid).remainingTime - 1
      if remaining = 0 then
        { sim with
          processes := Function.update sim.processes pid { sim.processes pid with
            remainingTime := remaining
            state := .finished
            completionTime := sim.currentTime + 1 }
          cpus := Function.update sim.cpus i { sim.cpus i with currentProcessId := none }
          completedCount := sim.completedCount + 1 }
      else
        { sim with
          processes := Function.update sim.processes pid
            { sim.processes pid with remainingTime := remaining } }

def tick (sim : Sim n c) : Sim n c :=
  let executed := (List.finRange c).foldl execute (assignAll sim)
  { executed with currentTime := executed.currentTime + 1 }

def start (c : ℕ) (processes : Fin n → Process) : Sim n c where
  processes := processes
  cpus i := { id := i, currentProcessId := none, timeQuantumLeft := 0 }
  currentTime := 0
  completedCount := 0

/-- `processes[]` when the `while` loop of `run_rms` ends within `fuel` ticks. -/
def runRms (fuel : ℕ) (processes : Fin n → Process) (c : ℕ) : Option (Fin n → Process) :=
  (whileLoop (fun sim : Sim n c => sim.completedCount < n) tick fuel (start c processes)).map
    Sim.processes

/-! ### The sorted ready list -/

theorem insertKey_perm (period : Fin n → Int) (key : Fin n) (sorted : List (Fin n)) :
    (insertKey period key sorted).Perm (key :: sorted) := by
  induction sorted with
  | nil => exact List.Perm.refl _
  | cons last rest ih =>
      simp only [insertKey]
      split
      · exact (List.Perm.cons last ih).trans (List.Perm.swap key last rest)
      · exact List.Perm.refl _

theorem insertionSort_perm (period : Fin n → Int) (order : List (Fin n)) :
    (insertionSort period order).Perm order := by
  have inserted : ∀ sorted : List (Fin n),
      (order.foldl (fun sorted key => insertKey period key sorted) sorted).Perm
        (order ++ sorted) := by
    induction order with
    | nil => exact fun sorted => List.Perm.refl _
    | cons key rest ih =>
        intro sorted
        calc
          _ = rest.foldl (fun sorted key => insertKey period key sorted)
              (insertKey period key sorted) := rfl
          List.Perm _ (rest ++ insertKey period key sorted) := ih _
          List.Perm _ (rest ++ key :: sorted) := (insertKey_perm period key sorted).append_left rest
          List.Perm _ (key :: rest ++ sorted) := List.perm_middle
  have whole := inserted []
  rw [List.append_nil] at whole
  exact (List.reverse_perm _).trans whole

theorem mem_readyOrder {sim : Sim n c} {p : Fin n} : p ∈ readyOrder sim ↔
    (sim.processes p).state = .ready ∧ (sim.processes p).arrivalTime ≤ sim.currentTime := by
  simp [readyOrder, List.mem_finRange]

theorem nodup_readyOrder (sim : Sim n c) : (readyOrder sim).Nodup :=
  (List.nodup_finRange n).filter _

/-! ### The CPU that is given up -/

theorem worstCpu_cases (sim : Sim n c) {least : Int} (visits : List (Fin c)) (worst : Option (Fin c))
    (above : ∀ i x, (sim.cpus i).currentProcessId = some x → least < (sim.processes x).period)
    (start : Int) (before : worst = none ∧ start = least ∨ ∃ i x, worst = some i ∧
      (sim.cpus i).currentProcessId = some x ∧ (sim.processes x).period = start) :
    (∃ i, worstCpu sim visits worst start = some i ∧ (sim.cpus i).currentProcessId = none) ∨
      worstCpu sim visits worst start = none ∧ worst = none ∧ visits = [] ∨
      ∃ i x, worstCpu sim visits worst start = some i ∧
        (sim.cpus i).currentProcessId = some x ∧ start ≤ (sim.processes x).period ∧
        ∀ j ∈ visits, ∃ y, (sim.cpus j).currentProcessId = some y ∧
          (sim.processes y).period ≤ (sim.processes x).period := by
  induction visits generalizing worst start with
  | nil =>
      right
      rcases before with ⟨same, -⟩ | ⟨i, x, same, here, period⟩
      · exact Or.inl ⟨same, same, rfl⟩
      · exact Or.inr ⟨i, x, same, here, by omega, by simp⟩
  | cons i rest ih =>
      simp only [worstCpu]
      cases here : (sim.cpus i).currentProcessId with
      | none => exact Or.inl ⟨i, rfl, here⟩
      | some x =>
          dsimp only
          by_cases longer : (sim.processes x).period > start
          · rw [if_pos longer]
            rcases ih (some i) (sim.processes x).period (Or.inr ⟨i, x, rfl, here, rfl⟩) with
              idle | ⟨-, absurd, -⟩ | ⟨j, y, found, held, bound, all⟩
            · exact Or.inl idle
            · simp at absurd
            · refine Or.inr (Or.inr ⟨j, y, found, held, by omega, ?_⟩)
              intro k member
              rcases List.mem_cons.mp member with same | later
              · subst k
                exact ⟨x, here, bound⟩
              · exact all k later
          · rw [if_neg longer]
            rcases before with ⟨-, initial⟩ | set
            · have period := above i x here
              omega
            · rcases ih worst start (Or.inr set) with idle | ⟨-, same, -⟩ | ⟨j, y, found, held, bound, all⟩
              · exact Or.inl idle
              · obtain ⟨k, z, other, -⟩ := set
                simp [same] at other
              · refine Or.inr (Or.inr ⟨j, y, found, held, bound, ?_⟩)
                intro k member
                rcases List.mem_cons.mp member with same | later
                · subst k
                  exact ⟨x, here, by omega⟩
                · exact all k later

end Rms

end OsLab.Ayush
