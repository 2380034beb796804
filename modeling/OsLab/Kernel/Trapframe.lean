import Mathlib.Data.Nat.Notation

/-!
The trapframe page of `proc.h`, where `uservec` saves the user registers and
`userret` finds them again, and the system call arguments read from it.
-/

namespace OsLab.Kernel

structure Registers where
  ra : UInt64
  sp : UInt64
  gp : UInt64
  tp : UInt64
  t0 : UInt64
  t1 : UInt64
  t2 : UInt64
  s0 : UInt64
  s1 : UInt64
  a0 : UInt64
  a1 : UInt64
  a2 : UInt64
  a3 : UInt64
  a4 : UInt64
  a5 : UInt64
  a6 : UInt64
  a7 : UInt64
  s2 : UInt64
  s3 : UInt64
  s4 : UInt64
  s5 : UInt64
  s6 : UInt64
  s7 : UInt64
  s8 : UInt64
  s9 : UInt64
  s10 : UInt64
  s11 : UInt64
  t3 : UInt64
  t4 : UInt64
  t5 : UInt64
  t6 : UInt64
  deriving DecidableEq, Repr, Inhabited

structure Trapframe extends Registers where
  kernelSatp : UInt64
  kernelSp : UInt64
  kernelTrap : UInt64
  epc : UInt64
  kernelHartid : UInt64
  deriving DecidableEq, Repr, Inhabited

def toInt (x : UInt64) : Int := x.toUInt32.toBitVec.toInt

/-- `argraw`; the system calls ask for arguments 0 to 5 only. -/
def Trapframe.argaddr (tf : Trapframe) : Fin 6 → UInt64
  | 0 => tf.a0
  | 1 => tf.a1
  | 2 => tf.a2
  | 3 => tf.a3
  | 4 => tf.a4
  | 5 => tf.a5

def Trapframe.argint (tf : Trapframe) (n : Fin 6) : Int := toInt (tf.argaddr n)

/-- What `uservec` stores: all the user registers, over whatever was there. -/
def Trapframe.uservec (tf : Trapframe) (registers : Registers) : Trapframe :=
  { tf with toRegisters := registers }

end OsLab.Kernel
