import OsLab.Library.Multiprocessor

/-!
The records of `Aryan/src/types.h`. A process index of `-1` is `none`; the C `int` fields are
integers.
-/

namespace OsLab.Aryan

/-- `READY`, `RUNNING` and `FINISHED`. -/
abbrev State := Library.Status

structure Process where
  id : Int
  arrivalTime : Int
  burstTime : Int
  remainingTime : Int
  deadline : Int
  priorityLevel : Int
  state : State
  completionTime : Int
  startTime : Int
  cpuId : Int
  deriving DecidableEq, Repr

structure Cpu (np : ℕ) where
  id : Int
  currentProcessId : Option (Fin np)
  timeQuantumLeft : Int
  deriving DecidableEq, Repr

/-- A row of the table in `main.c`, as `reset_processes` copies it. -/
def initial (id arrivalTime burstTime deadline : Int) : Process where
  id := id
  arrivalTime := arrivalTime
  burstTime := burstTime
  remainingTime := burstTime
  deadline := deadline
  priorityLevel := 0
  state := .ready
  completionTime := 0
  startTime := -1
  cpuId := -1

end OsLab.Aryan
