import OsLab.Kernel.Sleep
import Mathlib.Algebra.BigOperators.Fin
import Mathlib.Algebra.BigOperators.Group.Finset.Basic
import Mathlib.Data.Fintype.BigOperators

/-!
The ten semaphores of `sysproc.c`: `sys_sem_wait` and `sys_sem_post` by any number
of processes, with `kkill` waking sleepers, at the granularity of `Threads`.
-/

namespace OsLab.Kernel.Semaphore

open OsLab.Library OsLab.Kernel.Threads

abbrev SemId := Fin 10

/-- A system call and its arguments; a `kkill` also reads the process identifiers. -/
inductive Call
  | semWait (id : Int)
  | semPost (id : Int)
  | kkill (pid : Int)

inductive Point (n : ℕ)
  | user
  | waitAcquire (id : SemId)
  | waitTest (id : SemId)
  | waitTake (id : SemId)
  | waitRelease (id : SemId)
  | postAcquire (id : SemId)
  | postAdd (id : SemId)
  | postWakeup (id : SemId)
  | postRelease (id : SemId)
  | kill (pid : Int) (i : ℕ)
  | killTest (pid : Int) (q : Fin n)
  | killNext (pid : Int) (q : Fin n)
  | killDone (q : Fin n)

/-- The counts, with a record of how often each process has decremented and incremented each. -/
structure Data (n : ℕ) where
  count : SemId → Int
  pid : Fin n → Int
  waits : Fin n → SemId → ℕ
  posts : Fin n → SemId → ℕ

variable {n : ℕ}

def semOf (id : Int) : Option SemId :=
  if h : 0 ≤ id ∧ id < 10 then some ⟨id.toNat, by omega⟩ else none

/-- An `int` after an addition. -/
def wrap (x : Int) : Int := x.bmod (2 ^ 32)

def Data.bump (record : Fin n → SemId → ℕ) (p : Fin n) (id : SemId) : Fin n → SemId → ℕ :=
  Function.update record p (Function.update (record p) id (record p id + 1))

def Data.take (data : Data n) (p : Fin n) (id : SemId) : Data n :=
  { data with
    count := Function.update data.count id (wrap (data.count id - 1))
    waits := Data.bump data.waits p id }

def Data.add (data : Data n) (p : Fin n) (id : SemId) : Data n :=
  { data with
    count := Function.update data.count id (wrap (data.count id + 1))
    posts := Data.bump data.posts p id }

def held (_ : Fin n) : Point n → List (Lock n SemId)
  | .waitTest id | .waitTake id | .waitRelease id => [.named id]
  | .postAdd id | .postWakeup id | .postRelease id => [.named id]
  | .killTest _ q | .killNext _ q | .killDone q => [.proc q]
  | _ => []

/-- A semaphore's own address is the channel its waiters sleep on. -/
def code (p : Fin n) (point : Point n) (state : Fin n → Procstate) (data : Data n) (call : Call) :
    Option (Instr n SemId SemId (Point n) (Data n)) :=
  match point with
  | .user =>
      match call with
      | .semWait id => some (.goto data ((semOf id).elim .user .waitAcquire))
      | .semPost id => some (.goto data ((semOf id).elim .user .postAcquire))
      | .kkill pid => some (.goto data (.kill pid 0))
  | .waitAcquire id => some (.acquire (.named id) (.waitTest id))
  | .waitTest id =>
      if data.count id ≤ 0 then some (.sleep id id (.waitTest id))
      else some (.goto data (.waitTake id))
  | .waitTake id => some (.goto (data.take p id) (.waitRelease id))
  | .waitRelease id => some (.release (.named id) .user)
  | .postAcquire id => some (.acquire (.named id) (.postAdd id))
  | .postAdd id => some (.goto (data.add p id) (.postWakeup id))
  | .postWakeup id => some (.wakeup id (.postRelease id))
  | .postRelease id => some (.release (.named id) .user)
  | .kill pid i =>
      if bound : i < n then some (.acquire (.proc ⟨i, bound⟩) (.killTest pid ⟨i, bound⟩))
      else some (.goto data .user)
  | .killTest pid q =>
      if data.pid q = pid then
        if state q = .SLEEPING then some (.setState q .RUNNABLE data (.killDone q))
        else some (.goto data (.killDone q))
      else some (.goto data (.killNext pid q))
  | .killNext pid q => some (.release (.proc q) (.kill pid (q.val + 1)))
  | .killDone q => some (.release (.proc q) .user)

def program : Program n SemId SemId (Point n) (Data n) Call where
  held := held
  code := code

def start (pid : Fin n → Int) : State n SemId SemId (Point n) (Data n) where
  owner _ := none
  state _ := .RUNNABLE
  chan _ := none
  pc _ := .yield .off .user
  data := { count := fun _ => 1, pid := pid, waits := fun _ _ => 0, posts := fun _ _ => 0 }

def system : System (State n SemId SemId (Point n) (Data n)) (Fin n × Event Call) :=
  program.system fun state => ∃ pid, state = start pid

def policy : Policy (program (n := n)) where
  zombie _ := false
  guard id := id
  swept
    | .postRelease id, chan => id = chan
    | _, _ => False
  zombie_held := by simp
  swept_held p m chan swept := by
    cases m <;> simp_all [program, held]

end OsLab.Kernel.Semaphore
