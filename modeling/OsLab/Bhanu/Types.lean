import Mathlib.Data.Nat.Notation

/-!
The records of `Bhanu/src/types.h`. A process index of `-1` is `none`; the C
`int` fields are integers, so the clock and the counters are taken not to overflow.
-/

namespace OsLab.Bhanu

inductive State
  | ready
  | running
  | finished
  deriving DecidableEq, Repr

structure Process where
  id : Int
  arrivalTime : Int
  burstTime : Int
  remainingTime : Int
  deadline : Int
  priorityLevel : Int
  state : State
  completionTime : Int
  startTime : Int
  cpuId : Int
  waitTimeAcc : Int
  deriving DecidableEq, Repr

structure Cpu (np : ℕ) where
  id : Int
  currentProcessId : Option (Fin np)
  timeQuantumLeft : Int
  busyTicks : Int
  deriving DecidableEq, Repr

end OsLab.Bhanu
