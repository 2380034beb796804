import OsLab.Kernel.Proc
import OsLab.Kernel.Trapframe
import OsLab.Library.System
import Mathlib.Data.Fintype.Basic

/-!
Signals: `kkill`, `sys_signal`, `sys_sigreturn`, the dispatch of `syscall` and the
path through `usertrap`, for a whole process table. A process takes one step of
the kernel's code at a time and other processes step in between. What the rest of
the kernel decides (which interrupt arrives, what a system call returns, the
image `exec` loads) is part of the step's label. A call that blocks is the step
in which it returns.
-/

namespace OsLab.Kernel.Signal

open OsLab.Library

def NPROC : ℕ := 64

def NSIG : ℕ := 32

def SIGKILL : Int := 9

def SIG_DFL : UInt64 := 0xffffffffffffffff

def SIG_IGN : UInt64 := 0xfffffffffffffffe

abbrev Slot := Fin NPROC

theorem NPROC_pos : 0 < NPROC := by decide

theorem one_lt_NPROC : 1 < NPROC := by decide

def initproc : Slot := ⟨0, NPROC_pos⟩

/-- The C expression `1 << i` of type `int`, converted to `uint64`. -/
def signalBit (i : ℕ) : UInt64 := ⟨((1#32) <<< i).signExtend 64⟩

structure Proc where
  state : Procstate
  killed : Bool
  pid : Int
  trapframe : Trapframe
  pendingSignals : UInt64
  signalHandlers : Fin NSIG → UInt64
  sigTf : Trapframe
  isHandlingSignal : Bool

/-- Why a trap from user mode was taken: an `ecall`, an interrupt that
`devintr` knows, a page fault with the success of `vmfault`, or anything else. -/
inductive Cause
  | ecall
  | device (timer : Bool)
  | fault (served : Bool)
  | unexpected
  deriving DecidableEq, Repr

inductive Phase
  | user
  | forkret
  | usertrap (cause : Cause)
  | syscall
  | served (timer : Bool)
  | signals
  | scan (i : ℕ)
  | leave
  deriving DecidableEq, Repr

/-- The deliveries to handlers and the returns from them, with the trapframe saved and the
trapframe the process has once `syscall` is done. -/
inductive Event
  | entered (signal : Fin NSIG) (saved : Trapframe)
  | returned (trapframe : Trapframe)
  deriving DecidableEq, Repr

/-- `history` records the events of the process in each slot since `allocproc`. -/
structure State where
  proc : Slot → Proc
  nextpid : Int
  phase : Slot → Phase
  history : Slot → List Event

def State.setProc (state : State) (p : Slot) (proc : Proc) : State :=
  { state with proc := Function.update state.proc p proc }

def State.goto (state : State) (p : Slot) (phase : Phase) : State :=
  { state with phase := Function.update state.phase p phase }

def State.record (state : State) (p : Slot) (event : Event) : State :=
  { state with history := Function.update state.history p (state.history p ++ [event]) }

/-! ### `proc.c` -/

def Proc.setState (proc : Proc) (state : Procstate) : Proc := { proc with state := state }

def Proc.setKilled (proc : Proc) : Proc := { proc with killed := true }

/-- `allocproc` on the UNUSED slot it has found; `page` is what `kalloc` gave for `sig_tf`. -/
def allocproc (state : State) (np : Slot) (page : Trapframe) : State :=
  { state.setProc np { state.proc np with
      pid := state.nextpid
      state := .USED
      sigTf := page
      signalHandlers := fun _ => SIG_DFL
      pendingSignals := 0
      isHandlingSignal := false } with
    nextpid := state.nextpid + 1
    phase := Function.update state.phase np .forkret
    history := Function.update state.history np [] }

def freeproc (state : State) (p : Slot) : State :=
  state.setProc p { state.proc p with pid := 0, killed := false, state := .UNUSED }

/-- The parts of `kfork` and `kclone` that reach the child's trapframe and state. -/
def startChild (state : State) (np : Slot) (trapframe : Trapframe) : State :=
  state.setProc np { state.proc np with trapframe := trapframe, state := .RUNNABLE }

def kfork (state : State) (p np : Slot) (page : Trapframe) : State × Int :=
  let allocated := allocproc state np page
  (startChild allocated np { (allocated.proc p).trapframe with a0 := 0 }, state.nextpid)

def kclone (state : State) (p np : Slot) (page : Trapframe) (fcn stack arg : UInt64) :
    State × Int :=
  let allocated := allocproc state np page
  (startChild allocated np { (allocated.proc p).trapframe with
    epc := fcn
    sp := stack + 4096
    a0 := arg }, state.nextpid)

/-- `exec.c` commits to the new image; the return value is `argc`. -/
def kexec (state : State) (p : Slot) (entry sp argc : UInt64) : State × UInt64 :=
  let proc := state.proc p
  (state.setProc p { proc with
    trapframe := { proc.trapframe with a1 := sp, epc := entry, sp := sp } }, argc)

/-- Exiting is a panic for init, which no step models. -/
def kexit (state : State) (p : Slot) : Option State :=
  if p = initproc then none else some (state.setProc p ((state.proc p).setState .ZOMBIE))

/-- The changes of `kkill` to the process it has found. -/
def Proc.post (proc : Proc) (signum : Int) : Proc :=
  { proc with
    pendingSignals := proc.pendingSignals ||| signalBit signum.toNat
    killed := proc.killed || signum = SIGKILL
    state := if proc.state = .SLEEPING then .RUNNABLE else proc.state }

def kkill (state : State) (pid signum : Int) : State × Int :=
  if signum < 0 ∨ signum ≥ NSIG then
    (state, -1)
  else
    match (List.finRange NPROC).find? fun q => (state.proc q).pid = pid with
    | none => (state, -1)
    | some q => (state.setProc q ((state.proc q).post signum), 0)

theorem kkill_cases (state : State) (pid signum : Int) :
    kkill state pid signum = (state, -1) ∨
      0 ≤ signum ∧ signum < NSIG ∧ ∃ q, (state.proc q).pid = pid ∧
        kkill state pid signum = (state.setProc q ((state.proc q).post signum), 0) := by
  rw [kkill]
  split
  · exact .inl rfl
  · rename_i valid
    split
    · exact .inl rfl
    · rename_i q found
      have same := List.find?_some found
      exact .inr ⟨by omega, by omega, q, by simpa using same, rfl⟩

theorem kkill_succeeds {state : State} {pid signum : Int} (low : 0 ≤ signum)
    (high : signum < NSIG) {q : Slot} (here : (state.proc q).pid = pid) :
    (kkill state pid signum).2 = 0 := by
  rw [kkill, if_neg (by omega)]
  split
  · rename_i missed
    have other := List.find?_eq_none.mp missed q (List.mem_finRange q)
    simp [here] at other
  · rfl

/-! ### `sysproc.c` -/

def sysKill (state : State) (p : Slot) : State × Int :=
  let tf := (state.proc p).trapframe
  kkill state (tf.argint 0) (tf.argint 1)

def sysSignal (state : State) (p : Slot) : State × Int :=
  let proc := state.proc p
  let signum := proc.trapframe.argint 0
  if h : signum < 0 ∨ signum ≥ NSIG ∨ signum = SIGKILL then
    (state, -1)
  else
    (state.setProc p { proc with
      signalHandlers := Function.update proc.signalHandlers
        ⟨signum.toNat, by unfold NSIG at *; omega⟩ (proc.trapframe.argaddr 1) }, 0)

def sysSigreturn (state : State) (p : Slot) : State × UInt64 :=
  let proc := state.proc p
  (state.setProc p { proc with trapframe := proc.sigTf, isHandlingSignal := false },
    proc.sigTf.a0)

/-! ### `syscall.c` -/

/-- The functions of the table `syscalls` that touch a trapframe, a signal field or the
process table; `other` is every other one. -/
inductive Syscall
  | fork
  | exit
  | wait
  | kill
  | exec
  | signal
  | sigreturn
  | clone
  | other
  deriving DecidableEq, Repr

/-- `sys_join` and `sys_thread_join` reap as `sys_wait` does; `sys_thread_create` reads the
arguments of `sys_clone`. -/
def syscalls (num : Int) : Option Syscall :=
  if num = 1 then some .fork
  else if num = 2 then some .exit
  else if num = 3 ∨ num = 28 ∨ num = 33 then some .wait
  else if num = 6 then some .kill
  else if num = 7 then some .exec
  else if num = 23 then some .signal
  else if num = 24 then some .sigreturn
  else if num = 27 ∨ num = 32 then some .clone
  else if 0 < num ∧ num < 34 then some .other
  else none

/-- What the rest of the kernel makes of a system call: the value it returns, the slot and
`sig_tf` page of a new process, the slot of one that could not be completed, the zombie a
wait has found, or the image `exec` has loaded. -/
inductive Outcome
  | returns (value : UInt64)
  | child (np : Slot) (page : Trapframe)
  | noChild (np : Slot) (page : Trapframe)
  | reaped (zombie : Slot)
  | image (entry sp argc : UInt64)
  deriving DecidableEq, Repr

/-- The called function's effect and return value. -/
def Syscall.run (state : State) (p : Slot) : Syscall → Outcome → Option (State × UInt64)
  | .fork, .child np page =>
      if (state.proc np).state = .UNUSED then
        let (after, pid) := kfork state p np page
        some (after, .ofInt pid)
      else none
  | .clone, .child np page =>
      if (state.proc np).state = .UNUSED then
        let tf := (state.proc p).trapframe
        let (after, pid) := kclone state p np page (tf.argaddr 0) (tf.argaddr 2) (tf.argaddr 1)
        some (after, .ofInt pid)
      else none
  | .fork, .noChild np page | .clone, .noChild np page =>
      if (state.proc np).state = .UNUSED then
        some (freeproc (allocproc state np page) np, .ofInt (-1))
      else none
  | .fork, .returns _ | .clone, .returns _ => some (state, .ofInt (-1))
  | .wait, .reaped zombie =>
      if (state.proc zombie).state = .ZOMBIE then
        some (freeproc state zombie, .ofInt (state.proc zombie).pid)
      else none
  | .wait, .returns _ => some (state, .ofInt (-1))
  | .kill, _ =>
      let (after, result) := sysKill state p
      some (after, .ofInt result)
  | .exec, .image entry sp argc => some (kexec state p entry sp argc)
  | .exec, .returns _ => some (state, .ofInt (-1))
  | .signal, _ =>
      let (after, result) := sysSignal state p
      some (after, .ofInt result)
  | .sigreturn, _ => some (sysSigreturn state p)
  | .other, .returns value => some (state, value)
  | _, _ => none

def State.setA0 (state : State) (p : Slot) (value : UInt64) : State :=
  let proc := state.proc p
  state.setProc p { proc with trapframe := { proc.trapframe with a0 := value } }

def syscall (state : State) (p : Slot) (outcome : Outcome) : Option State :=
  match syscalls (toInt (state.proc p).trapframe.a7) with
  | none => some ((state.setA0 p (.ofInt (-1))).goto p (.served false))
  | some .exit => kexit state p
  | some .sigreturn => do
      let (called, value) ← Syscall.run state p .sigreturn outcome
      let after := called.setA0 p value
      some ((after.record p (.returned (after.proc p).trapframe)).goto p (.served false))
  | some call => do
      let (called, value) ← Syscall.run state p call outcome
      some ((called.setA0 p value).goto p (.served false))

/-! ### `trap.c` -/

/-- The trap is entered: `uservec` and the first statements of `usertrap`. -/
def trap (state : State) (p : Slot) (registers : Registers) (sepc : UInt64) (cause : Cause) :
    State :=
  let proc := state.proc p
  (state.setProc p { proc with
    trapframe := { proc.trapframe.uservec registers with epc := sepc } }).goto p (.usertrap cause)

/-- From the saved `epc` to the second `killed` test. -/
def usertrap (state : State) (p : Slot) : Cause → Option State
  | .ecall =>
      let proc := state.proc p
      if proc.killed then kexit state p
      else
        some ((state.setProc p { proc with
          trapframe := { proc.trapframe with epc := proc.trapframe.epc + 4 } }).goto p .syscall)
  | .device timer => some (state.goto p (.served timer))
  | .fault true => some (state.goto p (.served false))
  | .fault false | .unexpected =>
      some ((state.setProc p (state.proc p).setKilled).goto p (.served false))

/-- The second `killed` test, and the `yield` of a timer interrupt. -/
def served (state : State) (p : Slot) (timer : Bool) : Option State :=
  let proc := state.proc p
  if proc.killed then kexit state p
  else if timer then some ((state.setProc p (proc.setState .RUNNABLE)).goto p .signals)
  else some (state.goto p .signals)

def signals (state : State) (p : Slot) : State :=
  let proc := state.proc p
  if proc.pendingSignals > 0 ∧ proc.isHandlingSignal = false then state.goto p (.scan 0)
  else state.goto p .leave

def Proc.clear (proc : Proc) (i : ℕ) : Proc :=
  { proc with pendingSignals := proc.pendingSignals &&& ~~~ signalBit i }

def Proc.enter (proc : Proc) (i : Fin NSIG) : Proc :=
  { proc with
    sigTf := proc.trapframe
    isHandlingSignal := true
    trapframe := { proc.trapframe with epc := proc.signalHandlers i, a0 := .ofNat i }
    pendingSignals := proc.pendingSignals &&& ~~~ signalBit i }

def scan (state : State) (p : Slot) (i : ℕ) : State :=
  let proc := state.proc p
  if bound : i < NSIG then
    if proc.pendingSignals &&& signalBit i = 0 then state.goto p (.scan (i + 1))
    else if proc.signalHandlers ⟨i, bound⟩ = SIG_IGN then
      (state.setProc p (proc.clear i)).goto p (.scan (i + 1))
    else if proc.signalHandlers ⟨i, bound⟩ = SIG_DFL then
      (state.setProc p proc.setKilled).goto p .leave
    else
      ((state.setProc p (proc.enter ⟨i, bound⟩)).record p (.entered ⟨i, bound⟩ proc.trapframe)).goto
        p .leave
  else state.goto p .leave

/-- `prepare_return` stores the kernel's own registers and the process is in user mode. -/
def prepareReturn (state : State) (p : Slot) (satp sp trap hartid : UInt64) : State :=
  let proc := state.proc p
  (state.setProc p { proc with trapframe := { proc.trapframe with
    kernelSatp := satp
    kernelSp := sp
    kernelTrap := trap
    kernelHartid := hartid } }).goto p .user

/-- What a process does next. `dispatch`, `preempt`, `sleep` and `wakeup` are the scheduler's
moves, in the middle of any kernel phase. -/
inductive Action
  | dispatch
  | preempt
  | sleep
  | wakeup
  | trap (registers : Registers) (sepc : UInt64) (cause : Cause)
  | call (outcome : Outcome)
  | resume (satp sp trap hartid : UInt64)
  | next

def schedule (state : State) (p : Slot) (before after : Procstate) : Option State :=
  if (state.proc p).state = before then some (state.setProc p ((state.proc p).setState after))
  else none

def advance (state : State) (p : Slot) : Phase → Action → Option State
  | .user, .trap registers sepc cause => some (trap state p registers sepc cause)
  | .usertrap cause, .next => usertrap state p cause
  | .syscall, .call outcome => syscall state p outcome
  | .served timer, .next => served state p timer
  | .signals, .next => some (signals state p)
  | .scan i, .next => some (scan state p i)
  | .leave, .resume satp sp trap hartid =>
      if (state.proc p).killed then kexit state p
      else some (prepareReturn state p satp sp trap hartid)
  | .forkret, .resume satp sp trap hartid => some (prepareReturn state p satp sp trap hartid)
  | _, _ => none

def step (state : State) (label : Slot × Action) : Option State :=
  let (p, action) := label
  match action with
  | .dispatch => schedule state p .RUNNABLE .RUNNING
  | .wakeup => schedule state p .SLEEPING .RUNNABLE
  | .sleep => if state.phase p = .syscall then schedule state p .RUNNING .SLEEPING else none
  | .preempt => if state.phase p = .user then none else schedule state p .RUNNING .RUNNABLE
  | action =>
      if (state.proc p).state = .RUNNING then advance state p (state.phase p) action else none

/-- The table after `userinit`: init waits to be run and every other slot is zero. -/
def boot (trapframe page : Trapframe) : State where
  proc p :=
    { state := if p = initproc then .RUNNABLE else .UNUSED
      killed := false
      pid := if p = initproc then 1 else 0
      trapframe := trapframe
      pendingSignals := 0
      signalHandlers := fun _ => if p = initproc then SIG_DFL else 0
      sigTf := page
      isHandlingSignal := false }
  nextpid := 2
  phase _ := .forkret
  history _ := []

def system : System State (Slot × Action) where
  init state := ∃ trapframe page, state = boot trapframe page
  step before label after := step before label = some after

end OsLab.Kernel.Signal
