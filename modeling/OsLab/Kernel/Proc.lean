/-! The process states of `proc.h`. -/

namespace OsLab.Kernel

inductive Procstate
  | UNUSED
  | USED
  | SLEEPING
  | RUNNABLE
  | RUNNING
  | ZOMBIE
  deriving DecidableEq, Repr

end OsLab.Kernel
