import OsLab.Kernel.Monitor
import OsLab.Kernel.Signal

/-!
The pipes of `pipe.c`: one pipe, with any number of processes that write to it, read from it,
close its ends and are killed, at the granularity of `Threads`.
-/

namespace OsLab.Kernel.Pipe

open OsLab.Library OsLab.Kernel.Threads OsLab.Kernel.Signal

def PIPESIZE : ℕ := 512

/-- A `uint` after an addition. -/
def uint (x : ℕ) : ℕ := x % 4294967296

inductive Chan
  | nread
  | nwrite
  deriving DecidableEq

/-- A system call on the pipe, or what a copy from or to user memory comes to. -/
inductive Input
  | pipewrite (n : ℤ)
  | piperead (n : ℤ)
  | pipeclose (writable : Bool)
  | kkill (pid signum : ℤ)
  | copyin (ch : Option UInt8)
  | copyout (done : Bool)

/-- Where the result of `killed(pr)` is tested. -/
inductive Caller
  | pipewrite (n : ℤ) (i : ℕ)
  | piperead (n : ℤ)
  deriving DecidableEq

inductive Point (p : ℕ)
  | user
  | writeAcquire (n : ℤ)
  | writeLoop (n : ℤ) (i : ℕ)
  | writeOpen (n : ℤ) (i : ℕ)
  | writeFull (n : ℤ) (i : ℕ)
  | writeFullWakeup (n : ℤ) (i : ℕ)
  | writeSleep (n : ℤ) (i : ℕ)
  | writeCopy (n : ℤ) (i : ℕ)
  | writeWakeup (i : ℕ)
  | readAcquire (n : ℤ)
  | readLoop (n : ℤ)
  | readSleep (n : ℤ)
  | readCopy (n : ℤ) (i : ℕ)
  | readTake (n : ℤ) (i : ℕ)
  | readWakeup (i : ℤ)
  | killedAcquire (caller : Caller)
  | killedRead (caller : Caller)
  | killedRelease (caller : Caller) (k : Bool)
  | killedTest (caller : Caller) (k : Bool)
  | writeRelease (result : ℤ)
  | readRelease (result : ℤ)
  | closeAcquire (writable : Bool)
  | closeSet (writable : Bool)
  | closeWakeup (writable : Bool)
  | closeTest (writable : Bool)
  | closeRelease (writable : Bool)
  | closeLast (writable : Bool)
  | kfree (writable : Bool)
  | kill (pid signum : ℤ) (i : ℕ)
  | killTest (pid signum : ℤ) (q : Fin p)
  | killNext (pid signum : ℤ) (q : Fin p)
  | killDone (q : Fin p)
  deriving DecidableEq

/-- `struct pipe`, what `killed` and `kkill` read of the process table, and a record: the bytes that
writers have put in and readers have taken out, whether bytes have been put in since the last call
of `wakeup(&pi->nread)` and whether their writer has left since then, and the ends whose last file
descriptor has been closed. -/
structure Data (p : ℕ) where
  slots : ℕ → UInt8
  nread : ℕ
  nwrite : ℕ
  readopen : Bool
  writeopen : Bool
  freed : Bool
  killed : Fin p → Bool
  pid : Fin p → ℤ
  sent : List UInt8
  received : List UInt8
  unannounced : Bool
  abandoned : Bool
  closed : Bool → Bool

variable {p : ℕ}

namespace Data

def store (data : Data p) (ch : UInt8) : Data p :=
  { data with
    slots := Function.update data.slots (data.nwrite % PIPESIZE) ch
    nwrite := uint (data.nwrite + 1)
    sent := data.sent ++ [ch]
    unannounced := true }

def take (data : Data p) : Data p :=
  { data with
    nread := uint (data.nread + 1)
    received := data.received ++ [data.slots (data.nread % PIPESIZE)] }

/-- A call of `wakeup(&pi->nread)` follows. -/
def announce (data : Data p) : Data p := { data with unannounced := false, abandoned := false }

/-- A writer returns without the call. -/
def abandon (data : Data p) : Data p :=
  { data with unannounced := false, abandoned := data.abandoned || data.unannounced }

def opened (data : Data p) : Bool → Bool
  | true => data.writeopen
  | false => data.readopen

def close (data : Data p) : Bool → Data p
  | true => { data.announce with writeopen := false }
  | false => { data with readopen := false }

def kill (data : Data p) (q : Fin p) (signum : ℤ) : Data p :=
  if signum = SIGKILL then { data with killed := Function.update data.killed q true } else data

end Data

def held (self : Fin p) : Point p → List (Lock p Unit)
  | .user | .writeAcquire _ | .readAcquire _ | .closeAcquire _ | .kfree _ | .kill _ _ _ => []
  | .killedRead _ | .killedRelease _ _ => [.proc self, .named ()]
  | .killTest _ _ q | .killNext _ _ q | .killDone q => [.proc q]
  | _ => [.named ()]

def wakeupChan : Bool → Chan
  | true => .nread
  | false => .nwrite

def code (self : Fin p) (point : Point p) (state : Fin p → Procstate) (data : Data p)
    (input : Input) : Option (Instr p Unit Chan (Point p) (Data p)) :=
  match point with
  | .user =>
      match input with
      | .pipewrite n => some (.goto data (.writeAcquire n))
      | .piperead n => some (.goto data (.readAcquire n))
      | .pipeclose writable =>
          some (.goto { data with closed := Function.update data.closed writable true }
            (.closeAcquire writable))
      | .kkill pid signum =>
          if signum < 0 ∨ signum ≥ NSIG then some (.goto data .user)
          else some (.goto data (.kill pid signum 0))
      | _ => none
  | .writeAcquire n => some (.acquire (.named ()) (.writeLoop n 0))
  | .writeLoop n i =>
      if i < n then some (.goto data (.writeOpen n i))
      else some (.goto data.announce (.writeWakeup i))
  | .writeOpen n i =>
      if data.readopen then some (.goto data (.killedAcquire (.pipewrite n i)))
      else some (.goto data.abandon (.writeRelease (-1)))
  | .writeFull n i =>
      if data.nwrite = uint (data.nread + PIPESIZE) then
        some (.goto data.announce (.writeFullWakeup n i))
      else some (.goto data (.writeCopy n i))
  | .writeFullWakeup n i => some (.wakeup .nread (.writeSleep n i))
  | .writeSleep n i => some (.sleep .nwrite () (.writeLoop n i))
  | .writeCopy n i =>
      match input with
      | .copyin (some ch) => some (.goto (data.store ch) (.writeLoop n (i + 1)))
      | .copyin none => some (.goto data.announce (.writeWakeup i))
      | _ => none
  | .writeWakeup i => some (.wakeup .nread (.writeRelease i))
  | .readAcquire n => some (.acquire (.named ()) (.readLoop n))
  | .readLoop n =>
      if data.nread = data.nwrite ∧ data.writeopen then
        some (.goto data (.killedAcquire (.piperead n)))
      else some (.goto data (.readCopy n 0))
  | .readSleep n => some (.sleep .nread () (.readLoop n))
  | .readCopy n i =>
      if i < n ∧ data.nread ≠ data.nwrite then some (.goto data (.readTake n i))
      else some (.goto data (.readWakeup i))
  | .readTake n i =>
      match input with
      | .copyout true => some (.goto data.take (.readCopy n (i + 1)))
      | .copyout false => some (.goto data (.readWakeup (if i = 0 then -1 else i)))
      | _ => none
  | .readWakeup i => some (.wakeup .nwrite (.readRelease i))
  | .killedAcquire caller => some (.acquire (.proc self) (.killedRead caller))
  | .killedRead caller => some (.goto data (.killedRelease caller (data.killed self)))
  | .killedRelease caller k => some (.release (.proc self) (.killedTest caller k))
  | .killedTest (.pipewrite n i) k =>
      if k then some (.goto data.abandon (.writeRelease (-1))) else some (.goto data (.writeFull n i))
  | .killedTest (.piperead n) k =>
      if k then some (.goto data (.readRelease (-1))) else some (.goto data (.readSleep n))
  | .writeRelease _ | .readRelease _ => some (.release (.named ()) .user)
  | .closeAcquire writable => some (.acquire (.named ()) (.closeSet writable))
  | .closeSet writable => some (.goto (data.close writable) (.closeWakeup writable))
  | .closeWakeup writable => some (.wakeup (wakeupChan writable) (.closeTest writable))
  | .closeTest writable =>
      if data.readopen = false ∧ data.writeopen = false then some (.goto data (.closeLast writable))
      else some (.goto data (.closeRelease writable))
  | .closeRelease _ => some (.release (.named ()) .user)
  | .closeLast writable => some (.release (.named ()) (.kfree writable))
  | .kfree _ => some (.goto { data with freed := true } .user)
  | .kill pid signum i =>
      if bound : i < p then some (.acquire (.proc ⟨i, bound⟩) (.killTest pid signum ⟨i, bound⟩))
      else some (.goto data .user)
  | .killTest pid signum q =>
      if data.pid q = pid then
        if state q = .SLEEPING then some (.setState q .RUNNABLE (data.kill q signum) (.killDone q))
        else some (.goto (data.kill q signum) (.killDone q))
      else some (.goto data (.killNext pid signum q))
  | .killNext pid signum q => some (.release (.proc q) (.kill pid signum (q.val + 1)))
  | .killDone q => some (.release (.proc q) .user)

def program : Program p Unit Chan (Point p) (Data p) Input where
  held := held
  code := code

def start (pid : Fin p → ℤ) (slots : ℕ → UInt8) : State p Unit Chan (Point p) (Data p) where
  owner _ := none
  state _ := .RUNNABLE
  chan _ := none
  pc _ := .yield .off .user
  data :=
    { slots := slots, nread := 0, nwrite := 0, readopen := true, writeopen := true, freed := false,
      killed := fun _ => false, pid := pid, sent := [], received := [], unannounced := false,
      abandoned := false, closed := fun _ => false }

def system : System (State p Unit Chan (Point p) (Data p)) (Fin p × Event Input) :=
  program.system fun state => ∃ pid slots, state = start pid slots

def policy : Policy (program (p := p)) where
  zombie _ := false
  guard _ := ()
  swept
    | .writeSleep _ _, chan => chan = .nread
    | _, _ => False
  zombie_held := by simp
  swept_held self m chan swept := by
    cases m <;> simp_all [program, held]

end OsLab.Kernel.Pipe
