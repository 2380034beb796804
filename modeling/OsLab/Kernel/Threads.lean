import OsLab.Kernel.Proc
import OsLab.Library.Locks
import OsLab.Library.System
import Mathlib.Data.Nat.Notation

/-!
Kernel threads: `n` processes whose kernel code is a control-flow graph of
instructions, run step by step under every interleaving. The spinlocks, `sleep`,
`wakeup`, `yield` and the scheduler's two switches are here, one atomic step per
statement; the code that uses them is a `Program`.
-/

namespace OsLab.Kernel.Threads

open OsLab.Library

/-- A spinlock: the one in a process's `struct proc`, or one of the program's own. -/
inductive Lock (n : ℕ) (L : Type)
  | proc (p : Fin n)
  | named (lock : L)
  deriving DecidableEq

inductive SleepStage
  | acquire
  | release
  | setChan
  | setState
  | sched
  | asleep
  | clearChan
  | unlock
  | reacquire
  deriving DecidableEq

inductive YieldStage
  | acquire
  | setState
  | sched
  | off
  | resumed
  deriving DecidableEq

/-- Where a process is: at a point of the program, in a call of `sleep` or `wakeup` that will
return to one, in a `yield` forced by the timer, or not running any code. -/
inductive Pc (n : ℕ) (L C M : Type)
  | main (m : M)
  | sleep (stage : SleepStage) (chan : C) (lk : L) (ret : M)
  | wakeup (i : ℕ) (chan : C) (ret : M)
  | wakeupTest (q : Fin n) (chan : C) (ret : M)
  | wakeupRelease (q : Fin n) (chan : C) (ret : M)
  | yield (stage : YieldStage) (ret : M)
  | dead

/-- `owner` says which process's thread has taken a lock. -/
structure State (n : ℕ) (L C M D : Type) where
  owner : Lock n L → Option (Fin n)
  state : Fin n → Procstate
  chan : Fin n → Option C
  pc : Fin n → Pc n L C M
  data : D

/-- What the program does at a point. `spawn` makes a new process RUNNABLE; `exit` is the call
of `sched` that does not return. -/
inductive Instr (n : ℕ) (L C M D : Type)
  | goto (data : D) (next : M)
  | acquire (lock : Lock n L) (next : M)
  | release (lock : Lock n L) (next : M)
  | setState (q : Fin n) (later : Procstate) (data : D) (next : M)
  | spawn (q : Fin n) (start : M) (data : D) (next : M)
  | sleep (chan : C) (lk : L) (next : M)
  | wakeup (chan : C) (next : M)
  | exit

/-- `held` lists the locks a process has at a point; interrupts are on where it has none. The
instruction may depend on the process table, the data and an input from outside. -/
structure Program (n : ℕ) (L C M D I : Type) where
  held : Fin n → M → List (Lock n L)
  code : Fin n → M → (Fin n → Procstate) → D → I → Option (Instr n L C M D)

variable {n : ℕ} {L C M D I : Type}

namespace State

def goto (s : State n L C M D) (p : Fin n) (pc : Pc n L C M) : State n L C M D :=
  { s with pc := Function.update s.pc p pc }

def setState (s : State n L C M D) (p : Fin n) (later : Procstate) : State n L C M D :=
  { s with state := Function.update s.state p later }

def setChan (s : State n L C M D) (p : Fin n) (chan : Option C) : State n L C M D :=
  { s with chan := Function.update s.chan p chan }

variable [DecidableEq L]

def acquire (s : State n L C M D) (p : Fin n) (lock : Lock n L) (next : Pc n L C M) :
    Option (State n L C M D) :=
  if s.owner lock = none then
    some ({ s with owner := Function.update s.owner lock (some p) }.goto p next)
  else none

def release (s : State n L C M D) (p : Fin n) (lock : Lock n L) (next : Pc n L C M) :
    State n L C M D :=
  { s with owner := Function.update s.owner lock none }.goto p next

end State

section Steps

variable [DecidableEq L]

/-- A statement of `sleep(chan, lk)`. The scheduler releases `p->lock` after `sched`. -/
def sleepStep (s : State n L C M D) (p : Fin n) (chan : C) (lk : L) (ret : M) :
    SleepStage → Option (State n L C M D)
  | .acquire => s.acquire p (.proc p) (.sleep .release chan lk ret)
  | .release => some (s.release p (.named lk) (.sleep .setChan chan lk ret))
  | .setChan => some ((s.setChan p (some chan)).goto p (.sleep .setState chan lk ret))
  | .setState => some ((s.setState p .SLEEPING).goto p (.sleep .sched chan lk ret))
  | .sched => some (s.release p (.proc p) (.sleep .asleep chan lk ret))
  | .asleep => none
  | .clearChan => some ((s.setChan p none).goto p (.sleep .unlock chan lk ret))
  | .unlock => some (s.release p (.proc p) (.sleep .reacquire chan lk ret))
  | .reacquire => s.acquire p (.named lk) (.main ret)

def yieldStep (s : State n L C M D) (p : Fin n) (ret : M) :
    YieldStage → Option (State n L C M D)
  | .acquire => s.acquire p (.proc p) (.yield .setState ret)
  | .setState => some ((s.setState p .RUNNABLE).goto p (.yield .sched ret))
  | .sched => some (s.release p (.proc p) (.yield .off ret))
  | .off => none
  | .resumed => some (s.release p (.proc p) (.main ret))

/-- The head of the loop of `wakeup(chan)` over the process table. -/
def wakeupStep (s : State n L C M D) (p : Fin n) (i : ℕ) (chan : C) (ret : M) :
    Option (State n L C M D) :=
  if bound : i < n then
    if (⟨i, bound⟩ : Fin n) = p then some (s.goto p (.wakeup (i + 1) chan ret))
    else s.acquire p (.proc ⟨i, bound⟩) (.wakeupTest ⟨i, bound⟩ chan ret)
  else some (s.goto p (.main ret))

def perform (s : State n L C M D) (p : Fin n) : Instr n L C M D → Option (State n L C M D)
  | .goto data next => some ({ s with data := data }.goto p (.main next))
  | .acquire lock next => s.acquire p lock (.main next)
  | .release lock next => some (s.release p lock (.main next))
  | .setState q later data next => some (({ s with data := data }.setState q later).goto p (.main next))
  | .spawn q start data next =>
      some ((({ s with data := data }.setState q .RUNNABLE).goto q (.yield .off start)).goto p
        (.main next))
  | .sleep chan lk next => some (s.goto p (.sleep .acquire chan lk next))
  | .wakeup chan next => some (s.goto p (.wakeup 0 chan next))
  | .exit => some (s.release p (.proc p) .dead)

/-- `dispatch` is the scheduler picking a RUNNABLE process, which goes on with its lock held;
`preempt` is a timer interrupt where interrupts are on. -/
inductive Event (I : Type)
  | run (input : I)
  | dispatch
  | preempt

def dispatch (s : State n L C M D) (p : Fin n) : Option (State n L C M D) :=
  if s.state p = .RUNNABLE then
    match s.pc p with
    | .sleep .asleep chan lk ret =>
        (s.setState p .RUNNING).acquire p (.proc p) (.sleep .clearChan chan lk ret)
    | .yield .off ret => (s.setState p .RUNNING).acquire p (.proc p) (.yield .resumed ret)
    | _ => none
  else none

def Program.preempt (program : Program n L C M D I) (s : State n L C M D) (p : Fin n) :
    Option (State n L C M D) :=
  match s.pc p with
  | .main m => if program.held p m = [] then some (s.goto p (.yield .acquire m)) else none
  | _ => none

variable [DecidableEq C]

def wakeupTestStep (s : State n L C M D) (p q : Fin n) (chan : C) (ret : M) : State n L C M D :=
  if s.state q = .SLEEPING ∧ s.chan q = some chan then
    (s.setState q .RUNNABLE).goto p (.wakeupRelease q chan ret)
  else s.goto p (.wakeupRelease q chan ret)

def Program.run (program : Program n L C M D I) (s : State n L C M D) (p : Fin n) (input : I) :
    Option (State n L C M D) :=
  match s.pc p with
  | .main m => (program.code p m s.state s.data input).bind (perform s p)
  | .sleep stage chan lk ret => sleepStep s p chan lk ret stage
  | .wakeup i chan ret => wakeupStep s p i chan ret
  | .wakeupTest q chan ret => some (wakeupTestStep s p q chan ret)
  | .wakeupRelease q chan ret => some (s.release p (.proc q) (.wakeup (q.val + 1) chan ret))
  | .yield stage ret => yieldStep s p ret stage
  | .dead => none

def Program.step (program : Program n L C M D I) (s : State n L C M D) :
    Fin n × Event I → Option (State n L C M D)
  | (p, .run input) => program.run s p input
  | (p, .dispatch) => dispatch s p
  | (p, .preempt) => program.preempt s p

def Program.system (program : Program n L C M D I) (init : State n L C M D → Prop) :
    System (State n L C M D) (Fin n × Event I) where
  init := init
  step before label after := program.step before label = some after

end Steps

/-! ### What a step can do -/

def SleepStage.next : SleepStage → Option SleepStage
  | .acquire => some .release
  | .release => some .setChan
  | .setChan => some .setState
  | .setState => some .sched
  | .sched => some .asleep
  | .asleep => some .clearChan
  | .clearChan => some .unlock
  | .unlock => some .reacquire
  | .reacquire => none

def Instr.data (old : D) : Instr n L C M D → D
  | .goto data _ | .setState _ _ data _ | .spawn _ _ data _ => data
  | _ => old

def Instr.state (old : Fin n → Procstate) : Instr n L C M D → Fin n → Procstate
  | .setState q later _ _ => Function.update old q later
  | .spawn q _ _ _ => Function.update old q .RUNNABLE
  | _ => old

def Instr.others (old : Fin n → Pc n L C M) : Instr n L C M D → Fin n → Pc n L C M
  | .spawn q start _ _ => Function.update old q (.yield .off start)
  | _ => old

def Instr.next : Instr n L C M D → Pc n L C M
  | .goto _ next | .acquire _ next | .release _ next | .setState _ _ _ next
  | .spawn _ _ _ next => .main next
  | .sleep chan lk next => .sleep .acquire chan lk next
  | .wakeup chan next => .wakeup 0 chan next
  | .exit => .dead

def Pc.Waking (chan : C) (ret : M) : Pc n L C M → Prop
  | .wakeup _ c r | .wakeupTest _ c r | .wakeupRelease _ c r => c = chan ∧ r = ret
  | _ => False

theorem Pc.Waking.unique {chan other : C} {ret elsewhere : M} {pc : Pc n L C M}
    (one : pc.Waking chan ret) (two : pc.Waking other elsewhere) :
    chan = other ∧ ret = elsewhere := by
  cases pc <;> simp_all [Pc.Waking]

/-- The moves of a process that are not instructions of the program. -/
inductive Program.Flow (program : Program n L C M D I) (p : Fin n) :
    Pc n L C M → Pc n L C M → Prop
  | sleep {stage next chan lk ret} (follows : SleepStage.next stage = some next) :
      Flow program p (.sleep stage chan lk ret) (.sleep next chan lk ret)
  | slept {chan lk ret} : Flow program p (.sleep .reacquire chan lk ret) (.main ret)
  | waking {before after chan ret} (first : Pc.Waking chan ret before)
      (second : Pc.Waking chan ret after) : Flow program p before after
  | woken {i chan ret} (past : n ≤ i) : Flow program p (.wakeup i chan ret) (.main ret)
  | preempt {m} (unlocked : program.held p m = []) : Flow program p (.main m) (.yield .acquire m)
  | yield {stage next ret} : Flow program p (.yield stage ret) (.yield next ret)
  | resumed {ret} : Flow program p (.yield .resumed ret) (.main ret)

/-- A move of `p` outside the program: the data stay, and the state of another process
changes only when `wakeup` finds it SLEEPING. -/
structure Program.Internal (program : Program n L C M D I) (s t : State n L C M D) (p : Fin n) :
    Prop where
  data : t.data = s.data
  pc : ∃ next, t.pc = Function.update s.pc p next ∧ program.Flow p (s.pc p) next
  others : ∀ q, q ≠ p → t.state q = s.state q ∨
    s.state q = .SLEEPING ∧ t.state q = .RUNNABLE
  own : t.state p = s.state p ∨ t.state p = .RUNNING ∧ s.state p = .RUNNABLE ∨
    t.state p = .RUNNABLE ∨ t.state p = .SLEEPING

variable {program : Program n L C M D I} {s t : State n L C M D} {p : Fin n}

theorem Program.Internal.ofGoto {next : Pc n L C M} (data : t.data = s.data)
    (state : t.state = s.state) (pc : t.pc = Function.update s.pc p next)
    (flow : program.Flow p (s.pc p) next) : program.Internal s t p :=
  ⟨data, ⟨next, pc, flow⟩, fun q _ => .inl (by rw [state]), .inl (by rw [state])⟩

theorem Program.Internal.ofState {next : Pc n L C M} {later : Procstate} (data : t.data = s.data)
    (state : t.state = Function.update s.state p later) (pc : t.pc = Function.update s.pc p next)
    (flow : program.Flow p (s.pc p) next)
    (allowed : later = .RUNNING ∧ s.state p = .RUNNABLE ∨ later = .RUNNABLE ∨ later = .SLEEPING) :
    program.Internal s t p :=
  ⟨data, ⟨next, pc, flow⟩, fun q other => .inl (by rw [state, Function.update_of_ne other]),
    .inr (by rw [state, Function.update_self]; exact allowed)⟩

variable [DecidableEq L]

theorem acquire_eq_some {lock : Lock n L} {next : Pc n L C M}
    (taken : s.acquire p lock next = some t) :
    s.owner lock = none ∧
      t = { s with owner := Function.update s.owner lock (some p) }.goto p next := by
  rw [State.acquire] at taken
  split at taken
  · exact ⟨by assumption, (Option.some.inj taken).symm⟩
  · simp at taken

theorem sleepStep_internal {stage : SleepStage} {chan : C} {lk : L} {ret : M}
    (here : s.pc p = .sleep stage chan lk ret)
    (taken : sleepStep s p chan lk ret stage = some t) : program.Internal s t p := by
  cases stage <;> simp only [sleepStep, Option.some.injEq, reduceCtorEq] at taken
  case setState =>
    subst t
    exact .ofState rfl rfl rfl (by rw [here]; exact .sleep rfl) (.inr (.inr rfl))
  case acquire =>
    obtain ⟨-, rfl⟩ := acquire_eq_some taken
    exact .ofGoto rfl rfl rfl (by rw [here]; exact .sleep rfl)
  case reacquire =>
    obtain ⟨-, rfl⟩ := acquire_eq_some taken
    exact .ofGoto rfl rfl rfl (by rw [here]; exact .slept)
  all_goals
    subst t
    exact .ofGoto rfl rfl rfl (by rw [here]; exact .sleep rfl)

theorem yieldStep_internal {stage : YieldStage} {ret : M} (here : s.pc p = .yield stage ret)
    (taken : yieldStep s p ret stage = some t) : program.Internal s t p := by
  cases stage <;> simp only [yieldStep, Option.some.injEq, reduceCtorEq] at taken
  case acquire =>
    obtain ⟨-, rfl⟩ := acquire_eq_some taken
    exact .ofGoto rfl rfl rfl (by rw [here]; exact .yield)
  case setState =>
    subst t
    exact .ofState rfl rfl rfl (by rw [here]; exact .yield) (.inr (.inl rfl))
  case sched =>
    subst t
    exact .ofGoto rfl rfl rfl (by rw [here]; exact .yield)
  case resumed =>
    subst t
    exact .ofGoto rfl rfl rfl (by rw [here]; exact .resumed)

theorem wakeupStep_internal {i : ℕ} {chan : C} {ret : M} (here : s.pc p = .wakeup i chan ret)
    (taken : wakeupStep s p i chan ret = some t) : program.Internal s t p := by
  rw [wakeupStep] at taken
  split at taken
  · split at taken
    · obtain rfl := Option.some.inj taken
      exact .ofGoto rfl rfl rfl (by rw [here]; exact .waking ⟨rfl, rfl⟩ ⟨rfl, rfl⟩)
    · obtain ⟨-, rfl⟩ := acquire_eq_some taken
      exact .ofGoto rfl rfl rfl (by rw [here]; exact .waking ⟨rfl, rfl⟩ ⟨rfl, rfl⟩)
  · rename_i past
    obtain rfl := Option.some.inj taken
    exact .ofGoto rfl rfl rfl (by rw [here]; exact .woken (by omega))

theorem dispatch_internal (taken : dispatch s p = some t) : program.Internal s t p := by
  rw [dispatch] at taken
  split at taken
  · rename_i runnable
    split at taken
    · rename_i here
      obtain ⟨-, rfl⟩ := acquire_eq_some taken
      exact .ofState rfl rfl rfl (by rw [here]; exact .sleep rfl) (.inl ⟨rfl, runnable⟩)
    · rename_i here
      obtain ⟨-, rfl⟩ := acquire_eq_some taken
      exact .ofState rfl rfl rfl (by rw [here]; exact .yield) (.inl ⟨rfl, runnable⟩)
    · simp at taken
  · simp at taken

variable [DecidableEq C]

omit [DecidableEq L] in
theorem wakeupTestStep_internal {q : Fin n} {chan : C} {ret : M}
    (here : s.pc p = .wakeupTest q chan ret) :
    program.Internal s (wakeupTestStep s p q chan ret) p := by
  have flow : program.Flow p (s.pc p) (.wakeupRelease q chan ret) := by
    rw [here]
    exact .waking ⟨rfl, rfl⟩ ⟨rfl, rfl⟩
  rw [wakeupTestStep]
  split
  · rename_i sleeping
    refine ⟨rfl, ⟨_, rfl, flow⟩, fun r other => ?_, ?_⟩
    · by_cases same : r = q
      · subst r
        exact .inr ⟨sleeping.1, by simp [State.goto, State.setState]⟩
      · exact .inl (by simp [State.goto, State.setState, same])
    · by_cases same : p = q
      · subst q
        exact .inr (.inr (.inl (by simp [State.goto, State.setState])))
      · exact .inl (by simp [State.goto, State.setState, same])
  · exact .ofGoto rfl rfl rfl flow

omit [DecidableEq C] in
theorem perform_effect {instr : Instr n L C M D} (performed : perform s p instr = some t) :
    t.data = instr.data s.data ∧ t.state = instr.state s.state ∧
      t.pc = Function.update (instr.others s.pc) p instr.next := by
  cases instr <;> simp only [perform, Option.some.injEq] at performed
  case acquire =>
    obtain ⟨-, rfl⟩ := acquire_eq_some performed
    exact ⟨rfl, rfl, rfl⟩
  all_goals
    subst t
    exact ⟨rfl, rfl, rfl⟩

theorem Program.step_cases {event : Event I} (taken : program.step s (p, event) = some t) :
    (∃ m input instr, s.pc p = .main m ∧ event = .run input ∧
      program.code p m s.state s.data input = some instr ∧ perform s p instr = some t) ∨
    program.Internal s t p := by
  cases event with
  | dispatch => exact .inr (dispatch_internal taken)
  | preempt =>
      simp only [Program.step, Program.preempt] at taken
      split at taken
      · rename_i m here
        split at taken
        · rename_i unlocked
          obtain rfl := Option.some.inj taken
          exact .inr (.ofGoto rfl rfl rfl (by rw [here]; exact .preempt unlocked))
        · simp at taken
      · simp at taken
  | run input =>
      simp only [Program.step, Program.run] at taken
      split at taken
      · rename_i m here
        obtain ⟨instr, code, performed⟩ := Option.bind_eq_some_iff.mp taken
        exact .inl ⟨m, input, instr, here, rfl, code, performed⟩
      · exact .inr (sleepStep_internal (by assumption) taken)
      · exact .inr (wakeupStep_internal (by assumption) taken)
      · obtain rfl := Option.some.inj taken
        exact .inr (wakeupTestStep_internal (by assumption))
      · rename_i q chan ret here
        obtain rfl := Option.some.inj taken
        exact .inr (.ofGoto rfl rfl rfl (by rw [here]; exact .waking ⟨rfl, rfl⟩ ⟨rfl, rfl⟩))
      · exact .inr (yieldStep_internal (by assumption) taken)
      · simp at taken

end OsLab.Kernel.Threads
