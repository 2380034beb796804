import OsLab.Kernel.Lifecycle
import OsLab.Kernel.Semaphore

/-!
The loops in which a process waits, side by side: `sys_sem_wait` and `sys_pause` with
`sys_sem_post` and the clock, added to the program of `Lifecycle`, which has `kwait`,
`kjoin`, `kexit`, `kkill` and the creation of processes.
-/

namespace OsLab.Kernel.Blocking

open OsLab.Library OsLab.Kernel.Threads
open OsLab.Kernel.Lifecycle (KernelLock KernelInstr Lk)
open OsLab.Kernel.Semaphore (SemId semOf wrap)

inductive WaitLock
  | table (lock : KernelLock)
  | sem (id : SemId)
  | tickslock
  deriving DecidableEq

/-- What a process sleeps on: a process's slot, a semaphore, or `&ticks`. -/
inductive Chan (n : ℕ)
  | proc (p : Fin n)
  | sem (id : SemId)
  | ticks
  deriving DecidableEq

inductive Input
  | table (input : Lifecycle.Input)
  | semWait (id : Int)
  | semPost (id : Int)
  | pause (n : Int)

/-- `table` are the points of `Lifecycle`, `trap` to `trapDone` the test of `killed` with which
`usertrap` starts a system call. -/
inductive Point (n : ℕ)
  | table (m : Lifecycle.Point n)
  | trap (id : Int)
  | trapKilled (id : Int)
  | trapDone (id : Int) (killed : Bool)
  | semWait (id : Int)
  | semAcquire (id : SemId)
  | semTest (id : SemId)
  | semTake (id : SemId)
  | semRelease (id : SemId)
  | postAcquire (id : SemId)
  | postAdd (id : SemId)
  | postWakeup (id : SemId)
  | postRelease (id : SemId)
  | pauseAcquire (n : ℕ)
  | pauseStart (n : ℕ)
  | pauseTest (n : ℕ) (ticks0 : UInt32)
  | pauseLock (n : ℕ) (ticks0 : UInt32)
  | pauseKilled (n : ℕ) (ticks0 : UInt32)
  | pauseKilledDone (n : ℕ) (ticks0 : UInt32) (killed : Bool)
  | pauseSleep (n : ℕ) (ticks0 : UInt32)
  | pauseRelease (result : Int)

structure Data (n : ℕ) where
  table : Lifecycle.Data n
  count : SemId → Int
  ticks : UInt32

variable {n : ℕ}

abbrev WaitInstr (n : ℕ) := Instr n WaitLock (Chan n) (Point n) (Data n)

abbrev WaitState (n : ℕ) := State n WaitLock (Chan n) (Point n) (Data n)

abbrev WaitPc (n : ℕ) := Pc n WaitLock (Chan n) (Point n)

def user : Point n := .table .user

def tickslock : Lock n WaitLock := .named .tickslock

def lockOf : Lk n → Lock n WaitLock
  | .proc p => .proc p
  | .named lock => .named (.table lock)

def held (p : Fin n) : Point n → List (Lock n WaitLock)
  | .table m => (Lifecycle.held p m).map lockOf
  | .trapKilled _ | .trapDone _ _ => [.proc p]
  | .semTest id | .semTake id | .semRelease id => [.named (.sem id)]
  | .postAdd id | .postWakeup id | .postRelease id => [.named (.sem id)]
  | .pauseStart _ | .pauseTest .. | .pauseLock .. | .pauseSleep .. | .pauseRelease _ =>
      [tickslock]
  | .pauseKilled .. | .pauseKilledDone .. => [.proc p, tickslock]
  | _ => []

def embed (data : Data n) : KernelInstr n → WaitInstr n
  | .goto table next => .goto { data with table := table } (.table next)
  | .acquire lock next => .acquire (lockOf lock) (.table next)
  | .release lock next => .release (lockOf lock) (.table next)
  | .setState q later table next => .setState q later { data with table := table } (.table next)
  | .spawn q start table next => .spawn q (.table start) { data with table := table } (.table next)
  | .sleep chan lk next => .sleep (.proc chan) (.table lk) (.table next)
  | .wakeup chan next => .wakeup (.proc chan) (.table next)
  | .exit => .exit

/-- The three system calls, from user code; a negative argument of `sys_pause` counts as 0. -/
def enter (data : Data n) : Input → Option (WaitInstr n)
  | .semWait id => some (.goto data (.trap id))
  | .semPost id => some (.goto data ((semOf id).elim user .postAcquire))
  | .pause n => some (.goto data (.pauseAcquire n.toNat))
  | .table _ => none

/-- `usertrap` up to `syscall`; for init to exit is a panic, which no step models. -/
def trapCode (initproc p : Fin n) (data : Data n) : Point n → Option (WaitInstr n)
  | .trap id => some (.acquire (.proc p) (.trapKilled id))
  | .trapKilled id => some (.goto data (.trapDone id (data.table.killed p)))
  | .trapDone id killed =>
      if killed then
        if p = initproc then none else some (.release (.proc p) (.table (.exitLock (-1))))
      else some (.release (.proc p) (.semWait id))
  | _ => none

def semCode (data : Data n) : Point n → Option (WaitInstr n)
  | .semWait id => some (.goto data ((semOf id).elim user .semAcquire))
  | .semAcquire id => some (.acquire (.named (.sem id)) (.semTest id))
  | .semTest id =>
      if data.count id ≤ 0 then some (.sleep (.sem id) (.sem id) (.semTest id))
      else some (.goto data (.semTake id))
  | .semTake id =>
      let count := Function.update data.count id (wrap (data.count id - 1))
      some (.goto { data with count := count } (.semRelease id))
  | .semRelease id => some (.release (.named (.sem id)) user)
  | .postAcquire id => some (.acquire (.named (.sem id)) (.postAdd id))
  | .postAdd id =>
      let count := Function.update data.count id (wrap (data.count id + 1))
      some (.goto { data with count := count } (.postWakeup id))
  | .postWakeup id => some (.wakeup (.sem id) (.postRelease id))
  | .postRelease id => some (.release (.named (.sem id)) user)
  | _ => none

/-- `sys_pause`; `ticks - ticks0` is unsigned. -/
def pauseCode (p : Fin n) (data : Data n) : Point n → Option (WaitInstr n)
  | .pauseAcquire n => some (.acquire tickslock (.pauseStart n))
  | .pauseStart n => some (.goto data (.pauseTest n data.ticks))
  | .pauseTest n ticks0 =>
      some (.goto data
        (if (data.ticks - ticks0).toNat < n then .pauseLock n ticks0 else .pauseRelease 0))
  | .pauseLock n ticks0 => some (.acquire (.proc p) (.pauseKilled n ticks0))
  | .pauseKilled n ticks0 => some (.goto data (.pauseKilledDone n ticks0 (data.table.killed p)))
  | .pauseKilledDone n ticks0 killed =>
      some (.release (.proc p) (if killed then .pauseRelease (-1) else .pauseSleep n ticks0))
  | .pauseSleep n ticks0 => some (.sleep .ticks .tickslock (.pauseTest n ticks0))
  | .pauseRelease _ => some (.release tickslock user)
  | _ => none

def code (initproc p : Fin n) (point : Point n) (state : Fin n → Procstate) (data : Data n)
    (input : Input) : Option (WaitInstr n) :=
  match point, input with
  | .table m, .table input =>
      (Lifecycle.code initproc p m state data.table input).map (embed data)
  | .table .user, input => enter data input
  | .table _, _ => none
  | point, _ => trapCode initproc p data point <|> semCode data point <|> pauseCode p data point

def program (initproc : Fin n) : Program n WaitLock (Chan n) (Point n) (Data n) Input where
  held := held
  code := code initproc

/-- The process has released `tickslock` to sleep on `&ticks`, and still holds its own lock. -/
def drowsy : WaitPc n → Bool
  | .sleep .setChan .ticks _ _ | .sleep .setState .ticks _ _ | .sleep .sched .ticks _ _ => true
  | _ => false

/-- `clockintr`, in one piece; its `wakeup` waits for whoever is about to sleep on `&ticks`. -/
def clockintr (s : WaitState n) : Option (WaitState n) :=
  if s.owner tickslock = none ∧ ∀ p, drowsy (s.pc p) = false then
    some { s with
      data := { s.data with ticks := s.data.ticks + 1 }
      state := fun p =>
        if s.state p = .SLEEPING ∧ s.chan p = some .ticks then .RUNNABLE else s.state p }
  else none

inductive Move (n : ℕ)
  | process (p : Fin n) (event : Event Input)
  | clock

def step (initproc : Fin n) (s : WaitState n) : Move n → Option (WaitState n)
  | .process p event => (program initproc).step s (p, event)
  | .clock => clockintr s

def boot (initproc : Fin n) : WaitState n where
  owner _ := none
  state := (Lifecycle.boot initproc).state
  chan _ := none
  pc p := if p = initproc then .yield .off user else .dead
  data :=
    { table := (Lifecycle.boot initproc).data
      count := fun _ => 1
      ticks := 0 }

end OsLab.Kernel.Blocking
