import OsLab.Library.Levels
import OsLab.Library.Loop
import Mathlib.Data.Fin.Tuple.Basic
import Mathlib.Data.List.FinRange
import Mathlib.Tactic.Common

/-!
`run_mlfq` of `shajith/src/mlfq.c`. The Gantt chart has no bound; `entered` is not kept by the
code: it records who enters Q0 on arrival, and when.
-/

namespace OsLab.Shajith

open OsLab.Library

def MAX_PROC : ℕ := 10

abbrev QUEUES : ℕ := 3

abbrev topQueue : Fin QUEUES := 0

structure Proc where
  pid : Int
  burst : Int
  arrival : Int
  remaining : Int
  queue : Fin QUEUES
  arrived : Bool
  done : Bool
  finishTime : Int
  deriving DecidableEq, Repr

/-- `p[]`, `q[][]` with `qsize[]`, `gantt[]` with `glen`, and the clock. -/
structure Sim (n : ℕ) where
  p : Fin n → Proc
  q : Fin QUEUES → List (Fin n)
  gantt : List Int
  tick : Int
  entered : List (Fin n × Int)

variable {n : ℕ}

def addToQueue (sim : Sim n) (level : Fin QUEUES) (idx : Fin n) : Sim n :=
  { sim with q := Levels.push sim.q level idx }

/-- `none` is the result -1. -/
def popFront (sim : Sim n) (level : Fin QUEUES) : Option (Fin n × Sim n) :=
  match sim.q level with
  | [] => none
  | val :: _ => some (val, { sim with q := Levels.pop sim.q level })

def allDone (sim : Sim n) : Bool := (List.finRange n).all fun i => (sim.p i).done

/-- One process of the loop of `check_arrivals`. -/
def checkArrival (sim : Sim n) (i : Fin n) : Sim n :=
  if (sim.p i).arrived = false ∧ (sim.p i).arrival = sim.tick then
    addToQueue { sim with
      p := Function.update sim.p i { sim.p i with arrived := true, queue := 0 }
      entered := sim.entered ++ [(i, sim.tick)] } 0 i
  else sim

def checkArrivals (sim : Sim n) : Sim n := (List.finRange n).foldl checkArrival sim

def findQueue (sim : Sim n) : Option (Fin QUEUES) := Fin.find? fun i => 0 < (sim.q i).length

def runUnit (idx : Fin n) (sim : Sim n) : Sim n :=
  { sim with
    gantt := sim.gantt ++ [(sim.p idx).pid]
    p := Function.update sim.p idx { sim.p idx with remaining := (sim.p idx).remaining - 1 }
    tick := sim.tick + 1 }

/-- The loop of a slice with quantum `qt`, after `ran` units. -/
def slice (idx : Fin n) (qt ran : Int) (sim : Sim n) : Sim n :=
  if ran < qt ∧ 0 < (sim.p idx).remaining then
    slice idx qt (ran + 1) (runUnit idx (if 0 < ran then checkArrivals sim else sim))
  else sim
termination_by (qt - ran).toNat

def nextQ (ql : Fin QUEUES) : Fin QUEUES :=
  if below : ql.val + 1 < QUEUES then ⟨ql.val + 1, below⟩ else ⟨QUEUES - 1, by decide⟩

def retire (ql : Fin QUEUES) (idx : Fin n) (sim : Sim n) : Sim n :=
  if (sim.p idx).remaining = 0 then
    { sim with
      p := Function.update sim.p idx { sim.p idx with done := true, finishTime := sim.tick } }
  else
    addToQueue { sim with p := Function.update sim.p idx { sim.p idx with queue := nextQ ql } }
      (nextQ ql) idx

/-- The body of the outer loop after `check_arrivals`. -/
def serve (quantum : Fin QUEUES → Int) (sim : Sim n) : Sim n :=
  match findQueue sim with
  | none => { sim with gantt := sim.gantt ++ [0], tick := sim.tick + 1 }
  | some ql =>
      match popFront sim ql with
      | none => sim
      | some (idx, popped) => retire ql idx (slice idx (quantum ql) 0 popped)

def body (quantum : Fin QUEUES → Int) (sim : Sim n) : Sim n := serve quantum (checkArrivals sim)

def start (burst arrival : Fin n → Int) : Sim n where
  p i :=
    { pid := i + 1, burst := burst i, arrival := arrival i, remaining := burst i, queue := 0
      arrived := false, done := false, finishTime := 0 }
  q _ := []
  gantt := []
  tick := 0
  entered := []

/-- The state in which the outer loop ends, when the number of processes is accepted and the loop
takes at most `fuel` rounds. -/
def runMlfq (fuel : ℕ) (quantum : Fin QUEUES → Int) (burst arrival : Fin n → Int) :
    Option (Sim n) :=
  if n < 1 ∨ n > MAX_PROC then none
  else whileLoop (fun sim => !allDone sim) (body quantum) fuel (start burst arrival)

end OsLab.Shajith
