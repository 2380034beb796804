import OsLab.Kernel.Sleep

/-!
Processes and threads from creation to reaping: `kfork`, `kclone`, `kexit`, `kwait`,
`kjoin` and `kkill` of `proc.c` under `wait_lock` and the `p->lock`s, one statement at
a time. What user memory, files and page tables do is decided by an input that says
whether an allocation or a `copyout` succeeds. `allocpid` is one step, and its counter
is an unbounded integer.
-/

namespace OsLab.Kernel.Lifecycle

open OsLab.Library OsLab.Kernel.Threads

inductive KernelLock
  | waitLock
  deriving DecidableEq

inductive Spawn
  | fork
  | clone
  deriving DecidableEq, Repr

/-- `kwait`, or `kjoin` with its argument. -/
inductive WaitCall
  | wait
  | join (tid : Int)
  deriving DecidableEq, Repr

inductive Call
  | spawn (kind : Spawn)
  | exit (status : Int)
  | wait (call : WaitCall)
  | kill (pid signum : Int)

/-- What user code calls next, or whether the allocations or the `copyout` of a call succeed. -/
inductive Input
  | call (call : Call)
  | succeed
  | fail

inductive Failure
  | noKids
  | killed
  | copyout
  deriving DecidableEq, Repr

/-- The statements of the six functions, named by what they do. `np` is the slot being filled,
`i` the index of a loop over the table. -/
inductive Point (n : ℕ)
  | user
  | allocScan (kind : Spawn) (i : ℕ)
  | allocTest (kind : Spawn) (np : Fin n)
  | allocNext (kind : Spawn) (np : Fin n)
  | allocRest (kind : Spawn) (np : Fin n)
  | forkFail (np : Fin n)
  | forkUnlock (kind : Spawn) (np : Fin n)
  | forkWaitLock (kind : Spawn) (np : Fin n) (pid : Int)
  | forkParent (kind : Spawn) (np : Fin n) (pid : Int)
  | forkWaitUnlock (kind : Spawn) (np : Fin n) (pid : Int)
  | forkLock (kind : Spawn) (np : Fin n) (pid : Int)
  | forkReady (kind : Spawn) (np : Fin n) (pid : Int)
  | forkDone (kind : Spawn) (np : Fin n) (pid : Int)
  | forkReturn (kind : Spawn) (pid : Int)
  | exitLock (status : Int)
  | reparent (status : Int) (i : ℕ)
  | reparentWakeup (status : Int) (i : Fin n)
  | exitWakeup (status : Int)
  | exitAcquire (status : Int) (parent : Option (Fin n))
  | exitZombie (status : Int) (parent : Option (Fin n))
  | exitWaitUnlock (parent : Option (Fin n))
  | exitSched
  | waitAcquire (call : WaitCall)
  | waitScan (call : WaitCall) (i : ℕ) (havekids : Bool)
  | waitTest (call : WaitCall) (pp : Fin n)
  | waitNext (call : WaitCall) (pp : Fin n)
  | waitFreed (call : WaitCall) (pp : Fin n) (pid : Int)
  | waitDone (call : WaitCall) (pid : Int)
  | waitReturn (call : WaitCall) (pid : Int)
  | waitCheck (call : WaitCall) (havekids : Bool)
  | waitKilled (call : WaitCall)
  | waitKilledDone (call : WaitCall) (killed : Bool)
  | waitSleep (call : WaitCall)
  | waitCopyFail (call : WaitCall) (pp : Fin n)
  | waitFail (call : WaitCall) (failure : Failure)
  | kill (pid signum : Int) (i : ℕ)
  | killTest (pid signum : Int) (q : Fin n)
  | killNext (pid signum : Int) (q : Fin n)
  | killDone (q : Fin n)

/-- A success of `kwait` or `kjoin`: the pid and creator of the process freed, the process that
freed it with its own pid, and the parent the freed slot had. -/
structure Reap (n : ℕ) where
  pid : Int
  creator : Int
  reaper : Fin n
  reaperPid : Int
  parent : Option (Fin n)

/-- The fields of `struct proc` the functions use. The rest records the run: the pid of each
process's creator, the processes made RUNNABLE, the slots freed by `kwait` and `kjoin` and
what these calls returned, and the threads each process has created and not joined. -/
structure Data (n : ℕ) where
  pid : Fin n → Int
  parent : Fin n → Option (Fin n)
  killed : Fin n → Bool
  xstate : Fin n → Int
  isThread : Fin n → Bool
  memParent : Fin n → Option (Fin n)
  nextpid : Int
  creator : Fin n → Int
  created : List Int
  reaps : List (Reap n)
  returned : List (Fin n × Int)
  threads : Fin n → List Int

variable {n : ℕ}

def NSIG : Int := 32

def SIGKILL : Int := 9

/-- `allocproc` on the slot it has found; `killed` is not among the fields it sets. -/
def Data.allocproc (data : Data n) (np : Fin n) : Data n :=
  { data with
    pid := Function.update data.pid np data.nextpid
    nextpid := data.nextpid + 1
    isThread := Function.update data.isThread np false
    memParent := Function.update data.memParent np none
    threads := Function.update data.threads np [] }

def Data.freeproc (data : Data n) (p : Fin n) : Data n :=
  { data with
    pid := Function.update data.pid p 0
    parent := Function.update data.parent p none
    killed := Function.update data.killed p false
    xstate := Function.update data.xstate p 0
    isThread := Function.update data.isThread p false
    memParent := Function.update data.memParent p none }

def Data.mark (data : Data n) (p np : Fin n) : Spawn → Data n
  | .fork => data
  | .clone =>
      { data with
        isThread := Function.update data.isThread np true
        memParent := Function.update data.memParent np (some p) }

def Data.adopt (data : Data n) (p np : Fin n) : Data n :=
  { data with
    parent := Function.update data.parent np (some p)
    creator := Function.update data.creator np (data.pid p) }

def Data.obtained (data : Data n) (p : Fin n) (pid : Int) : Spawn → Data n
  | .fork => data
  | .clone => { data with threads := Function.update data.threads p (pid :: data.threads p) }

/-- `freeproc` by `kwait` or `kjoin` of `p`. -/
def Data.reap (data : Data n) (p pp : Fin n) : Data n :=
  { data.freeproc pp with
    reaps := ⟨data.pid pp, data.creator pp, p, data.pid p, data.parent pp⟩ :: data.reaps }

def Data.joined (data : Data n) (p : Fin n) (pid : Int) : WaitCall → Data n
  | .wait => { data with returned := (p, pid) :: data.returned }
  | .join tid =>
      { data with
        returned := (p, pid) :: data.returned
        threads := Function.update data.threads p ((data.threads p).filter (· ≠ tid)) }

/-- The test `kwait` or `kjoin` of `p` makes on a slot before it takes the slot's lock. -/
def WaitCall.Matches (call : WaitCall) (data : Data n) (p pp : Fin n) : Prop :=
  data.parent pp = some p ∧ ∀ tid, call = .join tid → data.pid pp = tid

instance (call : WaitCall) (data : Data n) (p pp : Fin n) : Decidable (call.Matches data p pp) :=
  match call with
  | .wait => decidable_of_iff (data.parent pp = some p) (by simp [WaitCall.Matches])
  | .join tid => decidable_of_iff (data.parent pp = some p ∧ data.pid pp = tid)
      (by simp [WaitCall.Matches])

abbrev Lk (n : ℕ) := Lock n KernelLock

abbrev KernelInstr (n : ℕ) := Instr n KernelLock (Fin n) (Point n) (Data n)

abbrev KernelState (n : ℕ) := State n KernelLock (Fin n) (Point n) (Data n)

def waitLock : Lk n := .named .waitLock

def held (p : Fin n) : Point n → List (Lk n)
  | .allocTest _ np | .allocNext _ np | .allocRest _ np | .forkFail np | .forkUnlock _ np =>
      [.proc np]
  | .forkParent .. | .forkWaitUnlock .. => [waitLock]
  | .forkReady _ np _ | .forkDone _ np _ => [.proc np]
  | .reparent .. | .reparentWakeup .. | .exitWakeup _ | .exitAcquire .. => [waitLock]
  | .exitZombie .. | .exitWaitUnlock _ => [.proc p, waitLock]
  | .exitSched => [.proc p]
  | .waitScan .. | .waitCheck .. | .waitSleep _ | .waitFail .. | .waitDone .. => [waitLock]
  | .waitTest _ pp | .waitNext _ pp | .waitFreed _ pp _ | .waitCopyFail _ pp =>
      [.proc pp, waitLock]
  | .waitKilled _ | .waitKilledDone .. => [.proc p, waitLock]
  | .killTest _ _ q | .killNext _ _ q | .killDone q => [.proc q]
  | _ => []

/-- Loops over the table stop at `NPROC`. -/
def loop (i : ℕ) (body : Fin n → KernelInstr n) (after : KernelInstr n) : KernelInstr n :=
  if bound : i < n then body ⟨i, bound⟩ else after

def Data.post (data : Data n) (q : Fin n) (signum : Int) : Data n :=
  { data with
    killed := if signum = SIGKILL then Function.update data.killed q true else data.killed }

def enter (data : Data n) (initproc p : Fin n) : Call → Option (KernelInstr n)
  | .spawn kind => some (.goto data (.allocScan kind 0))
  | .exit status => if p = initproc then none else some (.goto data (.exitLock status))
  | .wait call => some (.goto data (.waitAcquire call))
  | .kill pid signum =>
      if signum < 0 ∨ signum ≥ NSIG then some (.goto data .user)
      else some (.goto data (.kill pid signum 0))

/-- `kfork` and `kclone`, with `allocproc` inlined. -/
def forkCode (p : Fin n) (point : Point n) (state : Fin n → Procstate) (data : Data n) :
    Input → Option (KernelInstr n) :=
  fun input => match point, input with
  | .allocScan kind i, _ =>
      some (loop i (fun np => .acquire (.proc np) (.allocTest kind np)) (.goto data .user))
  | .allocTest kind np, _ =>
      if state np = .UNUSED then some (.setState np .USED (data.allocproc np) (.allocRest kind np))
      else some (.goto data (.allocNext kind np))
  | .allocNext kind np, _ => some (.release (.proc np) (.allocScan kind (np.val + 1)))
  | .allocRest kind np, .succeed => some (.goto (data.mark p np kind) (.forkUnlock kind np))
  | .allocRest _ np, .fail => some (.setState np .UNUSED (data.freeproc np) (.forkFail np))
  | .forkFail np, _ => some (.release (.proc np) .user)
  | .forkUnlock kind np, _ =>
      some (.release (.proc np) (.forkWaitLock kind np (data.pid np)))
  | .forkWaitLock kind np pid, _ => some (.acquire waitLock (.forkParent kind np pid))
  | .forkParent kind np pid, _ => some (.goto (data.adopt p np) (.forkWaitUnlock kind np pid))
  | .forkWaitUnlock kind np pid, _ => some (.release waitLock (.forkLock kind np pid))
  | .forkLock kind np pid, _ => some (.acquire (.proc np) (.forkReady kind np pid))
  | .forkReady kind np pid, _ =>
      some (.spawn np .user { data with created := pid :: data.created } (.forkDone kind np pid))
  | .forkDone kind np pid, _ => some (.release (.proc np) (.forkReturn kind pid))
  | .forkReturn kind pid, _ => some (.goto (data.obtained p pid kind) .user)
  | _, _ => none

/-- `kexit` from `acquire(&wait_lock)` on, with `reparent` inlined. -/
def exitCode (initproc p : Fin n) (data : Data n) : Point n → Option (KernelInstr n)
  | .exitLock status => some (.acquire waitLock (.reparent status 0))
  | .reparent status i =>
      some (loop i
        (fun pp =>
          if data.parent pp = some p then
            .goto { data with parent := Function.update data.parent pp (some initproc) }
              (.reparentWakeup status pp)
          else .goto data (.reparent status (i + 1)))
        (.goto data (.exitWakeup status)))
  | .reparentWakeup status pp => some (.wakeup initproc (.reparent status (pp.val + 1)))
  | .exitWakeup status =>
      match data.parent p with
      | none => some (.goto data (.exitAcquire status none))
      | some parent => some (.wakeup parent (.exitAcquire status (some parent)))
  | .exitAcquire status parent => some (.acquire (.proc p) (.exitZombie status parent))
  | .exitZombie status parent =>
      some (.setState p .ZOMBIE { data with xstate := Function.update data.xstate p status }
        (.exitWaitUnlock parent))
  | .exitWaitUnlock _ => some (.release waitLock .exitSched)
  | .exitSched => some .exit
  | _ => none

/-- `kwait` and `kjoin`, which differ in the test on a slot. -/
def waitCode (p : Fin n) (point : Point n) (state : Fin n → Procstate) (data : Data n) :
    Input → Option (KernelInstr n) :=
  fun input => match point, input with
  | .waitAcquire call, _ => some (.acquire waitLock (.waitScan call 0 false))
  | .waitScan call i havekids, _ =>
      some (loop i
        (fun pp =>
          if call.Matches data p pp then .acquire (.proc pp) (.waitTest call pp)
          else .goto data (.waitScan call (i + 1) havekids))
        (.goto data (.waitCheck call havekids)))
  | .waitTest call pp, input =>
      if state pp = .ZOMBIE then
        match input with
        | .succeed => some (.setState pp .UNUSED (data.reap p pp) (.waitFreed call pp (data.pid pp)))
        | .fail => some (.goto data (.waitCopyFail call pp))
        | .call _ => none
      else some (.goto data (.waitNext call pp))
  | .waitNext call pp, _ => some (.release (.proc pp) (.waitScan call (pp.val + 1) true))
  | .waitFreed call pp pid, _ => some (.release (.proc pp) (.waitDone call pid))
  | .waitDone call pid, _ => some (.release waitLock (.waitReturn call pid))
  | .waitReturn call pid, _ => some (.goto (data.joined p pid call) .user)
  | .waitCopyFail call pp, _ => some (.release (.proc pp) (.waitFail call .copyout))
  | .waitCheck call havekids, _ =>
      if havekids then some (.acquire (.proc p) (.waitKilled call))
      else some (.goto data (.waitFail call .noKids))
  | .waitKilled call, _ => some (.goto data (.waitKilledDone call (data.killed p)))
  | .waitKilledDone call killed, _ =>
      some (.release (.proc p) (if killed then .waitFail call .killed else .waitSleep call))
  | .waitSleep call, _ => some (.sleep p .waitLock (.waitScan call 0 false))
  | .waitFail _ _, _ => some (.release waitLock .user)
  | _, _ => none

def killCode (point : Point n) (state : Fin n → Procstate) (data : Data n) :
    Option (KernelInstr n) :=
  match point with
  | .kill pid signum i =>
      some (loop i (fun q => .acquire (.proc q) (.killTest pid signum q)) (.goto data .user))
  | .killTest pid signum q =>
      if data.pid q = pid then
        if state q = .SLEEPING then some (.setState q .RUNNABLE (data.post q signum) (.killDone q))
        else some (.goto (data.post q signum) (.killDone q))
      else some (.goto data (.killNext pid signum q))
  | .killNext pid signum q => some (.release (.proc q) (.kill pid signum (q.val + 1)))
  | .killDone q => some (.release (.proc q) .user)
  | _ => none

def code (initproc p : Fin n) (point : Point n) (state : Fin n → Procstate) (data : Data n)
    (input : Input) : Option (KernelInstr n) :=
  match point, input with
  | .user, .call call => enter data initproc p call
  | .user, _ => none
  | _, _ =>
      forkCode p point state data input <|> exitCode initproc p data point <|>
        waitCode p point state data input <|> killCode point state data

def program (initproc : Fin n) : Program n KernelLock (Fin n) (Point n) (Data n) Input where
  held := held
  code := code initproc

/-- After `userinit`: init is ready to run, every other slot is UNUSED. -/
def boot (initproc : Fin n) : KernelState n where
  owner _ := none
  state p := if p = initproc then .RUNNABLE else .UNUSED
  chan _ := none
  pc p := if p = initproc then .yield .off .user else .dead
  data :=
    { pid := fun p => if p = initproc then 1 else 0
      parent := fun _ => none
      killed := fun _ => false
      xstate := fun _ => 0
      isThread := fun _ => false
      memParent := fun _ => none
      nextpid := 2
      creator := fun _ => 0
      created := []
      reaps := []
      returned := []
      threads := fun _ => [] }

def system (initproc : Fin n) : System (KernelState n) (Fin n × Event Input) :=
  (program initproc).system (· = boot initproc)

/-! ### The statements, one by one -/

/-- What the code of process `p` does at each point, with the test that leads there. -/
inductive Stmt (initproc p : Fin n) (state : Fin n → Procstate) (data : Data n) :
    Input → Point n → KernelInstr n → Prop
  | enterSpawn {input} (kind) : Stmt initproc p state data input .user
      (.goto data (.allocScan kind 0))
  | enterExit {input} (status) (mortal : p ≠ initproc) : Stmt initproc p state data input .user
      (.goto data (.exitLock status))
  | enterWait {input} (call) : Stmt initproc p state data input .user
      (.goto data (.waitAcquire call))
  | enterKill {input} (pid signum) : Stmt initproc p state data input .user
      (.goto data (.kill pid signum 0))
  | refuseKill {input} : Stmt initproc p state data input .user (.goto data .user)
  | allocScan {input} (kind) (np : Fin n) : Stmt initproc p state data input
      (.allocScan kind np.val) (.acquire (.proc np) (.allocTest kind np))
  | allocFull {input} (kind) (i : ℕ) (past : n ≤ i) : Stmt initproc p state data input
      (.allocScan kind i) (.goto data .user)
  | allocproc {input} (kind np) (unused : state np = .UNUSED) : Stmt initproc p state data input
      (.allocTest kind np) (.setState np .USED (data.allocproc np) (.allocRest kind np))
  | allocSkip {input} (kind np) : Stmt initproc p state data input (.allocTest kind np)
      (.goto data (.allocNext kind np))
  | allocNext {input} (kind np) : Stmt initproc p state data input (.allocNext kind np)
      (.release (.proc np) (.allocScan kind (np.val + 1)))
  | mark {input} (kind np) : Stmt initproc p state data input (.allocRest kind np)
      (.goto (data.mark p np kind) (.forkUnlock kind np))
  | abandon {input} (kind np) : Stmt initproc p state data input (.allocRest kind np)
      (.setState np .UNUSED (data.freeproc np) (.forkFail np))
  | forkFail {input} (np) : Stmt initproc p state data input (.forkFail np)
      (.release (.proc np) .user)
  | forkUnlock {input} (kind np) : Stmt initproc p state data input (.forkUnlock kind np)
      (.release (.proc np) (.forkWaitLock kind np (data.pid np)))
  | forkWaitLock {input} (kind np pid) : Stmt initproc p state data input
      (.forkWaitLock kind np pid) (.acquire waitLock (.forkParent kind np pid))
  | adopt {input} (kind np pid) : Stmt initproc p state data input (.forkParent kind np pid)
      (.goto (data.adopt p np) (.forkWaitUnlock kind np pid))
  | forkWaitUnlock {input} (kind np pid) : Stmt initproc p state data input
      (.forkWaitUnlock kind np pid) (.release waitLock (.forkLock kind np pid))
  | forkLock {input} (kind np pid) : Stmt initproc p state data input (.forkLock kind np pid)
      (.acquire (.proc np) (.forkReady kind np pid))
  | spawn {input} (kind np pid) : Stmt initproc p state data input (.forkReady kind np pid)
      (.spawn np .user { data with created := pid :: data.created } (.forkDone kind np pid))
  | forkDone {input} (kind np pid) : Stmt initproc p state data input (.forkDone kind np pid)
      (.release (.proc np) (.forkReturn kind pid))
  | obtained {input} (kind pid) : Stmt initproc p state data input (.forkReturn kind pid)
      (.goto (data.obtained p pid kind) .user)
  | exitLock {input} (status) : Stmt initproc p state data input (.exitLock status)
      (.acquire waitLock (.reparent status 0))
  | reparent {input} (status) (pp : Fin n) (child : data.parent pp = some p) :
      Stmt initproc p state data input (.reparent status pp.val)
        (.goto { data with parent := Function.update data.parent pp (some initproc) }
          (.reparentWakeup status pp))
  | reparentSkip {input} (status) (pp : Fin n) (other : data.parent pp ≠ some p) :
      Stmt initproc p state data input (.reparent status pp.val)
        (.goto data (.reparent status (pp.val + 1)))
  | reparentEnd {input} (status) (i : ℕ) (past : n ≤ i) : Stmt initproc p state data input
      (.reparent status i) (.goto data (.exitWakeup status))
  | reparentWakeup {input} (status) (pp : Fin n) : Stmt initproc p state data input
      (.reparentWakeup status pp) (.wakeup initproc (.reparent status (pp.val + 1)))
  | exitOrphan {input} (status) (orphan : data.parent p = none) : Stmt initproc p state data input
      (.exitWakeup status) (.goto data (.exitAcquire status none))
  | exitWakeup {input} (status parent) (child : data.parent p = some parent) :
      Stmt initproc p state data input (.exitWakeup status)
        (.wakeup parent (.exitAcquire status (some parent)))
  | exitAcquire {input} (status parent) : Stmt initproc p state data input
      (.exitAcquire status parent) (.acquire (.proc p) (.exitZombie status parent))
  | zombie {input} (status parent) : Stmt initproc p state data input
      (.exitZombie status parent)
      (.setState p .ZOMBIE { data with xstate := Function.update data.xstate p status }
        (.exitWaitUnlock parent))
  | exitWaitUnlock {input} (parent) : Stmt initproc p state data input (.exitWaitUnlock parent)
      (.release waitLock .exitSched)
  | exitSched {input} : Stmt initproc p state data input .exitSched .exit
  | waitAcquire {input} (call) : Stmt initproc p state data input (.waitAcquire call)
      (.acquire waitLock (.waitScan call 0 false))
  | waitMatch {input} (call) (pp : Fin n) (havekids) (found : call.Matches data p pp) :
      Stmt initproc p state data input (.waitScan call pp.val havekids)
        (.acquire (.proc pp) (.waitTest call pp))
  | waitSkip {input} (call) (pp : Fin n) (havekids) (other : ¬ call.Matches data p pp) :
      Stmt initproc p state data input (.waitScan call pp.val havekids)
        (.goto data (.waitScan call (pp.val + 1) havekids))
  | waitEnd {input} (call) (i : ℕ) (havekids) (past : n ≤ i) :
      Stmt initproc p state data input (.waitScan call i havekids)
        (.goto data (.waitCheck call havekids))
  | reap (call pp) (dead : state pp = .ZOMBIE) : Stmt initproc p state data .succeed
      (.waitTest call pp)
      (.setState pp .UNUSED (data.reap p pp) (.waitFreed call pp (data.pid pp)))
  | copyFail {input} (call pp) : Stmt initproc p state data input (.waitTest call pp)
      (.goto data (.waitCopyFail call pp))
  | waitAlive {input} (call pp) (alive : state pp ≠ .ZOMBIE) : Stmt initproc p state data input
      (.waitTest call pp) (.goto data (.waitNext call pp))
  | waitNext {input} (call pp) : Stmt initproc p state data input (.waitNext call pp)
      (.release (.proc pp) (.waitScan call (pp.val + 1) true))
  | waitFreed {input} (call pp pid) : Stmt initproc p state data input (.waitFreed call pp pid)
      (.release (.proc pp) (.waitDone call pid))
  | waitDone {input} (call pid) : Stmt initproc p state data input (.waitDone call pid)
      (.release waitLock (.waitReturn call pid))
  | joined {input} (call pid) : Stmt initproc p state data input (.waitReturn call pid)
      (.goto (data.joined p pid call) .user)
  | waitCopyFail {input} (call pp) : Stmt initproc p state data input (.waitCopyFail call pp)
      (.release (.proc pp) (.waitFail call .copyout))
  | waitKids {input} (call) : Stmt initproc p state data input (.waitCheck call true)
      (.acquire (.proc p) (.waitKilled call))
  | waitNoKids {input} (call) : Stmt initproc p state data input (.waitCheck call false)
      (.goto data (.waitFail call .noKids))
  | waitKilled {input} (call) : Stmt initproc p state data input (.waitKilled call)
      (.goto data (.waitKilledDone call (data.killed p)))
  | waitDie {input} (call) : Stmt initproc p state data input (.waitKilledDone call true)
      (.release (.proc p) (.waitFail call .killed))
  | waitStay {input} (call) : Stmt initproc p state data input (.waitKilledDone call false)
      (.release (.proc p) (.waitSleep call))
  | waitSleep {input} (call) : Stmt initproc p state data input (.waitSleep call)
      (.sleep p .waitLock (.waitScan call 0 false))
  | waitFail {input} (call failure) : Stmt initproc p state data input (.waitFail call failure)
      (.release waitLock .user)
  | killScan {input} (pid signum) (q : Fin n) : Stmt initproc p state data input
      (.kill pid signum q.val) (.acquire (.proc q) (.killTest pid signum q))
  | killNobody {input} (pid signum) (i : ℕ) (past : n ≤ i) : Stmt initproc p state data input
      (.kill pid signum i) (.goto data .user)
  | post {input} (pid signum q) : Stmt initproc p state data input (.killTest pid signum q)
      (.goto (data.post q signum) (.killDone q))
  | postWake {input} (pid signum q) (sleeping : state q = .SLEEPING) :
      Stmt initproc p state data input (.killTest pid signum q)
        (.setState q .RUNNABLE (data.post q signum) (.killDone q))
  | killSkip {input} (pid signum q) : Stmt initproc p state data input (.killTest pid signum q)
      (.goto data (.killNext pid signum q))
  | killNext {input} (pid signum q) : Stmt initproc p state data input (.killNext pid signum q)
      (.release (.proc q) (.kill pid signum (q.val + 1)))
  | killDone {input} (q) : Stmt initproc p state data input (.killDone q)
      (.release (.proc q) .user)

theorem index_cases (n i : ℕ) : (∃ pp : Fin n, pp.val = i) ∨ n ≤ i := by
  by_cases bound : i < n
  · exact .inl ⟨⟨i, bound⟩, rfl⟩
  · exact .inr (by omega)

theorem loop_val (pp : Fin n) (body : Fin n → KernelInstr n) (after : KernelInstr n) :
    loop pp.val body after = body pp := by simp [loop]

theorem loop_past {i : ℕ} (past : n ≤ i) (body : Fin n → KernelInstr n)
    (after : KernelInstr n) : loop i body after = after := by
  rw [loop, dif_neg (by omega)]

theorem enter_stmt {initproc p : Fin n} {state : Fin n → Procstate} {data : Data n} {call : Call}
    {instr : KernelInstr n} {input : Input} (ran : enter data initproc p call = some instr) :
    Stmt initproc p state data input .user instr := by
  cases call with
  | spawn kind =>
      obtain rfl := Option.some.inj ran
      exact .enterSpawn kind
  | exit status =>
      simp only [enter] at ran
      split at ran
      · simp at ran
      · rename_i mortal
        obtain rfl := Option.some.inj ran
        exact .enterExit status mortal
  | wait call =>
      obtain rfl := Option.some.inj ran
      exact .enterWait call
  | kill pid signum =>
      simp only [enter] at ran
      split at ran <;> obtain rfl := Option.some.inj ran
      · exact .refuseKill
      · exact .enterKill pid signum

theorem code_stmt {initproc p : Fin n} {state : Fin n → Procstate} {data : Data n} {input : Input}
    {m : Point n} {instr : KernelInstr n} (ran : code initproc p m state data input = some instr) :
    Stmt initproc p state data input m instr := by
  cases m with
  | user =>
      cases input with
      | call call => exact enter_stmt ran
      | _ => simp [code] at ran
  | allocScan kind i =>
      obtain rfl := Option.some.inj ran
      rcases index_cases n i with ⟨np, rfl⟩ | past
      · rw [loop_val]
        exact .allocScan kind np
      · rw [loop_past past]
        exact .allocFull kind i past
  | allocTest kind np =>
      by_cases unused : state np = .UNUSED
      · obtain rfl : _ = instr := by simpa [code, forkCode, unused] using ran
        exact .allocproc kind np unused
      · obtain rfl : _ = instr := by simpa [code, forkCode, unused] using ran
        exact .allocSkip kind np
  | allocRest kind np =>
      cases input with
      | call call => simp [code, forkCode, exitCode, waitCode, killCode] at ran
      | succeed =>
          obtain rfl := Option.some.inj ran
          exact .mark kind np
      | fail =>
          obtain rfl := Option.some.inj ran
          exact .abandon kind np
  | reparent status i =>
      obtain rfl := Option.some.inj ran
      rcases index_cases n i with ⟨pp, rfl⟩ | past
      · rw [loop_val]
        split
        · exact .reparent status pp (by assumption)
        · exact .reparentSkip status pp (by assumption)
      · rw [loop_past past]
        exact .reparentEnd status i past
  | exitWakeup status =>
      cases child : data.parent p with
      | none =>
          obtain rfl : _ = instr := by simpa [code, forkCode, exitCode, child] using ran
          exact .exitOrphan status child
      | some parent =>
          obtain rfl : _ = instr := by simpa [code, forkCode, exitCode, child] using ran
          exact .exitWakeup status parent child
  | waitScan call i havekids =>
      obtain rfl := Option.some.inj ran
      rcases index_cases n i with ⟨pp, rfl⟩ | past
      · rw [loop_val]
        split
        · exact .waitMatch call pp havekids (by assumption)
        · exact .waitSkip call pp havekids (by assumption)
      · rw [loop_past past]
        exact .waitEnd call i havekids past
  | waitTest call pp =>
      by_cases dead : state pp = .ZOMBIE
      · cases input with
        | call call => simp [code, forkCode, exitCode, waitCode, killCode, dead] at ran
        | succeed =>
            obtain rfl : _ = instr := by
              simpa [code, forkCode, exitCode, waitCode, dead] using ran
            exact .reap call pp dead
        | fail =>
            obtain rfl : _ = instr := by
              simpa [code, forkCode, exitCode, waitCode, dead] using ran
            exact .copyFail call pp
      · obtain rfl : _ = instr := by simpa [code, forkCode, exitCode, waitCode, dead] using ran
        exact .waitAlive call pp dead
  | waitCheck call havekids =>
      cases havekids <;> obtain rfl := Option.some.inj ran
      · exact .waitNoKids call
      · exact .waitKids call
  | waitKilledDone call killed =>
      cases killed <;> obtain rfl := Option.some.inj ran
      · exact .waitStay call
      · exact .waitDie call
  | kill pid signum i =>
      obtain rfl := Option.some.inj ran
      rcases index_cases n i with ⟨q, rfl⟩ | past
      · rw [loop_val]
        exact .killScan pid signum q
      · rw [loop_past past]
        exact .killNobody pid signum i past
  | killTest pid signum q =>
      by_cases target : data.pid q = pid
      · by_cases sleeping : state q = .SLEEPING
        · obtain rfl : _ = instr := by
            simpa [code, forkCode, exitCode, waitCode, killCode, target, sleeping] using ran
          exact .postWake pid signum q sleeping
        · obtain rfl : _ = instr := by
            simpa [code, forkCode, exitCode, waitCode, killCode, target, sleeping] using ran
          exact .post pid signum q
      · obtain rfl : _ = instr := by
          simpa [code, forkCode, exitCode, waitCode, killCode, target] using ran
        exact .killSkip pid signum q
  | _ =>
      obtain rfl := Option.some.inj ran
      constructor

end OsLab.Kernel.Lifecycle
