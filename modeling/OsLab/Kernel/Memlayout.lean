import Mathlib.Algebra.Group.Nat.Defs
import Mathlib.Data.Nat.Notation
import Mathlib.Tactic.Common

/-!
Sizes and addresses of `riscv.h` and `memlayout.h`. A `uint64` is a natural
number; arithmetic that may pass 2^64 is reduced where it is done.
-/

namespace OsLab.Kernel

def PGSIZE : ℕ := 4096

def MAXVA : ℕ := 2 ^ 38

def TRAMPOLINE : ℕ := MAXVA - PGSIZE

def TRAPFRAME : ℕ := TRAMPOLINE - PGSIZE

def pgRoundUp (sz : ℕ) : ℕ := (sz + PGSIZE - 1) / PGSIZE * PGSIZE

def pgRoundDown (a : ℕ) : ℕ := a / PGSIZE * PGSIZE

theorem pgRoundDown_le (a : ℕ) : pgRoundDown a ≤ a := Nat.div_mul_le_self a PGSIZE

theorem lt_pgRoundDown_add (a : ℕ) : a < pgRoundDown a + PGSIZE := by
  unfold pgRoundDown PGSIZE
  omega

end OsLab.Kernel
