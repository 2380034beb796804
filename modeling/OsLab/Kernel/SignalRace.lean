import OsLab.Kernel.Signal
import OsLab.Library.Locks
import Mathlib.Data.Finset.Basic

/-!
`kkill` beside the delivery loop of `usertrap`, one access to `p->pending_signals` at a
time. Every process is a thread: it runs user code and other system calls (`elsewhere`),
calls `kkill`, or is on its way out of `usertrap`. `kkill` works under `p->lock`, the
delivery loop does not.
-/

namespace OsLab.Kernel.SignalRace

open OsLab.Library
open OsLab.Kernel.Signal (NPROC NSIG SIGKILL SIG_DFL SIG_IGN Slot initproc signalBit Proc)

/-- The points of `kkill`'s loop body for one entry of the table. -/
inductive Kkill
  | acquire
  | test
  | load
  | store (loaded : UInt64)
  | kill
  | wake
  | done
  | skip
  deriving DecidableEq, Repr

inductive Pc
  | elsewhere
  | kkill (stage : Kkill) (pid : Int) (signum : Fin NSIG) (k : Slot)
  | returned (result : Int)
  | signals
  | scan (i : ℕ)
  | handler (i : Fin NSIG)
  | clear (i : Fin NSIG) (entered : Bool)
  | cleared (i : Fin NSIG) (entered : Bool) (loaded : UInt64)
  | setkilled
  | setkilledStore
  | setkilledRelease
  | killed
  | killedLoad
  | killedRelease (k : Bool)
  | kexit
  | exited
  deriving DecidableEq, Repr

def Pc.lock (p : Slot) : Pc → Option Slot
  | .kkill .acquire _ _ _ => none
  | .kkill _ _ _ k => some k
  | .setkilledStore | .setkilledRelease | .killedLoad | .killedRelease _ => some p
  | _ => none

/-- `posted` is not the kernel's: the signals that some `kkill` has sent with its last store
and that the process has not consumed since. -/
structure State where
  proc : Slot → Proc
  lock : Slot → Option Slot
  pc : Slot → Pc
  posted : Slot → Finset (Fin NSIG)

namespace State

def setProc (state : State) (p : Slot) (proc : Proc) : State :=
  { state with proc := Function.update state.proc p proc }

def goto (state : State) (p : Slot) (next : Pc) : State :=
  { state with pc := Function.update state.pc p next }

def acquire (state : State) (p k : Slot) (next : Pc) : Option State :=
  if state.lock k = none then
    some ({ state with lock := Function.update state.lock k (some p) }.goto p next)
  else none

def release (state : State) (p k : Slot) (next : Pc) : State :=
  { state with lock := Function.update state.lock k none }.goto p next

def post (state : State) (k : Slot) (signum : Fin NSIG) : State :=
  { state with posted := Function.update state.posted k (insert signum (state.posted k)) }

def consume (state : State) (p : Slot) (i : Fin NSIG) : State :=
  { state with posted := Function.update state.posted p ((state.posted p).erase i) }

end State

/-! ### `proc.c` -/

/-- `kkill` after its test of `signum`. -/
def kkill (state : State) (q : Slot) (pid : Int) (signum : Fin NSIG) (k : Slot) :
    Kkill → Option State
  | .acquire => state.acquire q k (.kkill .test pid signum k)
  | .test =>
      let stage := if (state.proc k).pid = pid then Kkill.load else .skip
      some (state.goto q (.kkill stage pid signum k))
  | .load => some (state.goto q (.kkill (.store (state.proc k).pendingSignals) pid signum k))
  | .store loaded =>
      let proc := state.proc k
      let stored := state.setProc k { proc with pendingSignals := loaded ||| signalBit signum }
      let sent := if (signum : Int) = SIGKILL then stored else stored.post k signum
      some (sent.goto q (.kkill .kill pid signum k))
  | .kill =>
      let sent := if (signum : Int) = SIGKILL then
        (state.setProc k (state.proc k).setKilled).post k signum else state
      some (sent.goto q (.kkill .wake pid signum k))
  | .wake =>
      let proc := state.proc k
      let woken := if proc.state = .SLEEPING then state.setProc k (proc.setState .RUNNABLE)
        else state
      some (woken.goto q (.kkill .done pid signum k))
  | .done => some (state.release q k (.returned 0))
  | .skip =>
      some (state.release q k
        (if bound : k + 1 < NPROC then .kkill .acquire pid signum ⟨k + 1, bound⟩
          else .returned (-1)))

theorem kkill_alone (state : State) (q : Slot) (pid : Int) (signum : Fin NSIG) (k : Slot) :
    ((kkill state q pid signum k (.store (state.proc k).pendingSignals)).bind fun stored =>
      (kkill stored q pid signum k .kill).bind fun sent =>
        kkill sent q pid signum k .wake).map (fun after => (after.proc, after.pc q)) =
      some (Function.update state.proc k ((state.proc k).post signum),
        .kkill .done pid signum k) := by
  simp only [Proc.post, Int.toNat_natCast]
  by_cases fatal : (signum : Int) = SIGKILL <;>
    by_cases asleep : (state.proc k).state = .SLEEPING <;>
    simp [kkill, State.goto, State.setProc, State.post, Proc.setKilled, Proc.setState, fatal,
      asleep]

/-- The store of ZOMBIE under `p->lock`; for init it is a panic, which no step models. -/
def kexit (state : State) (p : Slot) : Option State :=
  if p = initproc ∨ state.lock p ≠ none then none
  else some ((state.setProc p ((state.proc p).setState .ZOMBIE)).goto p .exited)

/-! ### `trap.c` -/

/-- The custom handler's case up to the setting of `a0`. -/
def enterHandler (proc : Proc) (i : Fin NSIG) : Proc :=
  { proc with
    sigTf := proc.trapframe
    isHandlingSignal := true
    trapframe := { proc.trapframe with epc := proc.signalHandlers i, a0 := .ofNat i } }

/-- `usertrap` from the test in front of its delivery loop, with `setkilled` and `killed`. -/
def usertrap (state : State) (p : Slot) : Pc → Option State
  | .signals =>
      let proc := state.proc p
      some (state.goto p
        (if proc.pendingSignals > 0 ∧ proc.isHandlingSignal = false then .scan 0 else .killed))
  | .scan i =>
      some (state.goto p
        (if bound : i < NSIG then
          if (state.proc p).pendingSignals &&& signalBit i = 0 then .scan (i + 1)
          else .handler ⟨i, bound⟩
        else .killed))
  | .handler i =>
      let proc := state.proc p
      if proc.signalHandlers i = SIG_IGN then some (state.goto p (.clear i false))
      else if proc.signalHandlers i = SIG_DFL then some (state.goto p .setkilled)
      else some ((state.setProc p (enterHandler proc i)).goto p (.clear i true))
  | .clear i entered => some (state.goto p (.cleared i entered (state.proc p).pendingSignals))
  | .cleared i entered loaded =>
      let proc := state.proc p
      let stored := state.setProc p { proc with pendingSignals := loaded &&& ~~~ signalBit i }
      some ((stored.consume p i).goto p (if entered then .killed else .scan (i + 1)))
  | .setkilled => state.acquire p p .setkilledStore
  | .setkilledStore => some ((state.setProc p (state.proc p).setKilled).goto p .setkilledRelease)
  | .setkilledRelease => some (state.release p p .killed)
  | .killed => state.acquire p p .killedLoad
  | .killedLoad => some (state.goto p (.killedRelease (state.proc p).killed))
  | .killedRelease k => some (state.release p p (if k then .kexit else .elsewhere))
  | .kexit => kexit state p
  | _ => none

theorem usertrap_handler (state : State) (p : Slot) (i : Fin NSIG) :
    usertrap state p (.handler i) =
      if (state.proc p).signalHandlers i = SIG_IGN then some (state.goto p (.clear i false))
      else if (state.proc p).signalHandlers i = SIG_DFL then some (state.goto p .setkilled)
      else some ((state.setProc p (enterHandler (state.proc p) i)).goto p (.clear i true)) := rfl

theorem clear_alone (state : State) (p : Slot) (i : Fin NSIG) (entered : Bool) :
    ∃ after, usertrap (state.goto p (.cleared i entered (state.proc p).pendingSignals)) p
      (.cleared i entered (state.proc p).pendingSignals) = some after ∧
      after.proc p = (state.proc p).clear i := by
  refine ⟨_, rfl, ?_⟩
  simp [State.goto, State.consume, State.setProc, Proc.clear]

theorem enterHandler_clear (proc : Proc) (i : Fin NSIG) :
    (enterHandler proc i).clear i = proc.enter i := rfl

/-! ### The threads -/

/-- `dispatch`, `preempt`, `sleep` and `wakeup` are the scheduler's moves, `signal` and
`sigreturn` what user code makes of the two system calls, and `trap` the arrival at the
delivery loop, with the trapframe that user code and the trap have left. -/
inductive Action
  | dispatch
  | preempt
  | sleep
  | wakeup
  | signal (signum : Int) (handler : UInt64)
  | sigreturn
  | kill (pid signum : Int)
  | trap (frame : Trapframe)
  | next

/-- A change of `p->state`, made under `p->lock`. -/
def schedule (state : State) (p : Slot) (before after : Procstate) : Option State :=
  if (state.proc p).state = before ∧ state.lock p = none then
    some (state.setProc p ((state.proc p).setState after))
  else none

def sysSignal (state : State) (p : Slot) (signum : Int) (handler : UInt64) : Option State :=
  if h : signum < 0 ∨ signum ≥ NSIG ∨ signum = SIGKILL then
    some state
  else if state.lock p = none then
    let proc := state.proc p
    some (state.setProc p { proc with
      signalHandlers := Function.update proc.signalHandlers
        ⟨signum.toNat, by unfold NSIG at *; omega⟩ handler })
  else none

def sysSigreturn (state : State) (p : Slot) : State :=
  let proc := state.proc p
  state.setProc p { proc with trapframe := proc.sigTf, isHandlingSignal := false }

/-- `kkill` up to its loop. -/
def sysKill (state : State) (p : Slot) (pid signum : Int) : State :=
  if h : signum < 0 ∨ signum ≥ NSIG then state.goto p (.returned (-1))
  else
    state.goto p
      (.kkill .acquire pid ⟨signum.toNat, by unfold NSIG at *; omega⟩ ⟨0, Signal.NPROC_pos⟩)

def advance (state : State) (p : Slot) : Pc → Action → Option State
  | .elsewhere, .signal signum handler => sysSignal state p signum handler
  | .elsewhere, .sigreturn => some (sysSigreturn state p)
  | .elsewhere, .kill pid signum => some (sysKill state p pid signum)
  | .elsewhere, .trap frame =>
      some ((state.setProc p { state.proc p with trapframe := frame }).goto p .signals)
  | .kkill stage pid signum k, .next => kkill state p pid signum k stage
  | .returned _, .next => some (state.goto p .elsewhere)
  | pc, .next => usertrap state p pc
  | _, _ => none

/-- Interrupts are off while a lock is held, so its holder is not preempted. -/
def step (state : State) (label : Slot × Action) : Option State :=
  let (p, action) := label
  match action with
  | .dispatch => schedule state p .RUNNABLE .RUNNING
  | .wakeup => schedule state p .SLEEPING .RUNNABLE
  | .sleep => if state.pc p = .elsewhere then schedule state p .RUNNING .SLEEPING else none
  | .preempt => if (state.pc p).lock p = none then schedule state p .RUNNING .RUNNABLE else none
  | action =>
      if (state.proc p).state = .RUNNING then advance state p (state.pc p) action else none

/-- Any process table in which no lock is held and nobody is inside the modelled code. -/
structure State.Quiet (state : State) : Prop where
  unlocked : ∀ k, state.lock k = none
  elsewhere : ∀ p, state.pc p = .elsewhere
  posted : ∀ p, state.posted p = ∅

def system : System State (Slot × Action) where
  init := State.Quiet
  step before label after := step before label = some after

/-! ### The pending word -/

def Pending (word : UInt64) (i : Fin NSIG) : Prop := word &&& signalBit i ≠ 0

instance (word : UInt64) (i : Fin NSIG) : Decidable (Pending word i) :=
  inferInstanceAs (Decidable (_ ≠ _))

theorem signalBit_ne_zero : ∀ i : Fin NSIG, signalBit i ≠ 0 := by decide +kernel

theorem signalBit_cleared : ∀ i j : Fin NSIG, j ≠ i →
    ~~~ signalBit i &&& signalBit j = signalBit j := by
  decide +kernel

theorem or_and (a b c : UInt64) : (a ||| b) &&& c = (a &&& c) ||| (b &&& c) :=
  UInt64.toBitVec_inj.mp BitVec.and_or_distrib_right

theorem pending_or (word : UInt64) (i : Fin NSIG) : Pending (word ||| signalBit i) i := by
  simp [Pending, or_and, signalBit_ne_zero]

theorem Pending.or {word : UInt64} {j : Fin NSIG} (pending : Pending word j) (i : Fin NSIG) :
    Pending (word ||| signalBit i) j := by
  intro none
  rw [or_and, UInt64.or_eq_zero_iff] at none
  exact pending none.1

theorem Pending.clear {word : UInt64} {i j : Fin NSIG} (pending : Pending word j)
    (different : j ≠ i) : Pending (word &&& ~~~ signalBit i) j := by
  rwa [Pending, UInt64.and_assoc, signalBit_cleared i j different]

/-! ### What every step keeps -/

/-- A signal that was sent and not consumed is pending, unless the process has been killed. -/
def NoneLost (state : State) : Prop :=
  ∀ p, ∀ j ∈ state.posted p,
    (state.proc p).killed = true ∨ Pending (state.proc p).pendingSignals j

/-- The word a thread has loaded and will store back, changed, and where. -/
def Pc.register (p : Slot) : Pc → Option (Slot × UInt64)
  | .kkill (.store loaded) _ _ k => some (k, loaded)
  | .cleared _ _ loaded => some (p, loaded)
  | _ => none

def Pc.Drops (j : Fin NSIG) : Pc → Prop
  | .cleared i _ _ => j = i
  | _ => False

def Pc.storing : Pc → Option (Fin NSIG × Slot)
  | .kkill (.store _) _ signum k => some (signum, k)
  | _ => none

/-- The signal that a process is about to clear and the word it has loaded for that. -/
def Pc.clearing : Pc → Option (Fin NSIG × UInt64)
  | .cleared i _ loaded => some (i, loaded)
  | _ => none

/-- A `kkill` stores its signal between the load and the store with which the process clears
another one only if its own was pending at the load, is SIGKILL or comes after it. -/
def Undisturbed (state : State) (label : Slot × Action) : Prop :=
  ∀ sent ∈ (state.pc label.1).storing, ∀ cleared ∈ (state.pc sent.2).clearing,
    sent.1 = cleared.1 ∨ Pending cleared.2 sent.1 ∨ (sent.1 : Int) = SIGKILL ∨
      (state.proc sent.2).killed = true

instance (state : State) (label : Slot × Action) : Decidable (Undisturbed state label) :=
  @Option.decidableForallMem _ _ (fun _ => Option.decidableForallMem _) _

structure Kept (state : State) : Prop where
  owned : Owned (fun p (pc : Pc) k => pc.lock p = some k) state.lock state.pc
  lossless : NoneLost state
  registers : ∀ p k word, (state.pc p).register p = some (k, word) → ∀ j ∈ state.posted k,
    (state.pc p).Drops j ∨ (state.proc k).killed = true ∨ Pending word j

theorem Quiet.kept {state : State} (quiet : state.Quiet) : Kept state where
  owned lock thread := by simp [quiet.unlocked, quiet.elsewhere, Pc.lock]
  lossless p j sent := by simp [quiet.posted] at sent
  registers p k word holds := by simp [quiet.elsewhere, Pc.register] at holds

namespace Kept

variable {state after : State} {p k : Slot} {next : Pc}

/-- A step that stores no pending word: what it loads is what memory holds, and it sends a
signal only to a process it has killed. -/
theorem frame (kept : Kept state)
    (owned : Owned (fun p (pc : Pc) k => pc.lock p = some k) after.lock after.pc)
    (pending : ∀ k, (after.proc k).pendingSignals = (state.proc k).pendingSignals)
    (killed : ∀ k, (state.proc k).killed = true → (after.proc k).killed = true)
    (posted : ∀ k, ∀ j ∈ after.posted k, j ∈ state.posted k ∨ (after.proc k).killed = true)
    (loads : ∀ p, after.pc p = state.pc p ∨ ∀ k word,
      (after.pc p).register p = some (k, word) → word = (state.proc k).pendingSignals) :
    Kept after where
  owned := owned
  lossless p j sent := by
    rcases posted p j sent with old | dead
    · rw [pending]
      exact (kept.lossless p j old).imp_left (killed p)
    · exact .inl dead
  registers p k word holds j sent := by
    rcases posted k j sent with old | dead
    · rcases loads p with same | fresh
      · rw [same] at holds ⊢
        exact (kept.registers p k word holds j old).imp_right (Or.imp_left (killed k))
      · rw [fresh k word holds]
        exact .inr ((kept.lossless k j old).imp_left (killed k))
    · exact .inr (.inl dead)

theorem setProc (kept : Kept state) {proc : Proc}
    (pending : proc.pendingSignals = (state.proc k).pendingSignals)
    (killed : (state.proc k).killed = true → proc.killed = true) :
    Kept (state.setProc k proc) := by
  apply kept.frame
  · exact kept.owned
  · intro q
    by_cases same : q = k
    · subst q
      simpa [State.setProc] using pending
    · simp [State.setProc, same]
  · intro q
    by_cases same : q = k
    · subst q
      simpa [State.setProc] using killed
    · simp [State.setProc, same]
  · exact fun _ _ => .inl
  · exact fun _ => .inl rfl

theorem moves (loads : ∀ k word, next.register p = some (k, word) →
      word = (state.proc k).pendingSignals) (q : Slot) :
    (Function.update state.pc p next) q = state.pc q ∨ ∀ k word,
      ((Function.update state.pc p next) q).register q = some (k, word) →
        word = (state.proc k).pendingSignals := by
  by_cases same : q = p
  · subst q
    rw [Function.update_self]
    exact .inr loads
  · rw [Function.update_of_ne same]
    exact .inl rfl

theorem goto (kept : Kept state) (lock : next.lock p = (state.pc p).lock p)
    (loads : ∀ k word, next.register p = some (k, word) → word = (state.proc k).pendingSignals) :
    Kept (state.goto p next) := by
  apply kept.frame
  · exact kept.owned.move fun k => by rw [lock]
  · exact fun _ => rfl
  · exact fun _ => id
  · exact fun _ _ => .inl
  · exact moves loads

variable {pc : Pc}

theorem jump (kept : Kept state) (here : state.pc p = pc) (lock : next.lock p = pc.lock p)
    (empty : next.register p = none) : Kept (state.goto p next) :=
  kept.goto (by rw [here, lock]) fun k word loaded => by simp [empty] at loaded

theorem acquire (kept : Kept state) (here : state.pc p = pc) (free : pc.lock p = none)
    (holds : next.lock p = some k) (empty : next.register p = none)
    (taken : state.acquire p k next = some after) : Kept after := by
  rw [State.acquire] at taken
  split at taken
  · rename_i unlocked
    obtain rfl := Option.some.inj taken
    apply kept.frame
    · exact kept.owned.acquire unlocked fun other => by simp [here, holds, free, eq_comm]
    · exact fun _ => rfl
    · exact fun _ => id
    · exact fun _ _ => .inl
    · exact moves fun k word loaded => by simp [empty] at loaded
  · simp at taken

theorem release (kept : Kept state) (here : state.pc p = pc) (holds : pc.lock p = some k)
    (free : next.lock p = none) (empty : next.register p = none) :
    Kept (state.release p k next) := by
  apply kept.frame
  · exact kept.owned.release (by rw [here, holds]) fun other => by
      simp [here, holds, free, eq_comm]
  · exact fun _ => rfl
  · exact fun _ => id
  · exact fun _ _ => .inl
  · exact moves fun k word loaded => by simp [empty] at loaded

theorem kkill_store {pid : Int} {signum : Fin NSIG} {loaded : UInt64}
    (taken : kkill state p pid signum k (.store loaded) = some after) :
    ∃ posted, (∀ j ∈ posted, j ∈ state.posted k ∨ j = signum ∧ (signum : Int) ≠ SIGKILL) ∧
      after = { state with
        proc := Function.update state.proc k
          { state.proc k with pendingSignals := loaded ||| signalBit signum }
        pc := Function.update state.pc p (.kkill .kill pid signum k)
        posted := Function.update state.posted k posted } := by
  simp only [kkill, Option.some.injEq] at taken
  subst after
  by_cases fatal : (signum : Int) = SIGKILL
  · refine ⟨state.posted k, fun j old => .inl old, ?_⟩
    simp [fatal, State.goto, State.setProc]
  · refine ⟨insert signum (state.posted k), fun j member => ?_, ?_⟩
    · exact (Finset.mem_insert.mp member).symm.imp_right fun same => ⟨same, fatal⟩
    · simp [fatal, State.goto, State.setProc, State.post]

theorem register_cases {word : UInt64} (holds : (state.pc p).register p = some (k, word)) :
    (state.pc p).lock p = some k ∨ p = k ∧ ∃ i entered, state.pc p = .cleared i entered word := by
  cases here : state.pc p with
  | kkill stage pid signum slot =>
      rw [here] at holds
      cases stage <;>
        simp only [Pc.register, reduceCtorEq, Option.some.injEq, Prod.mk.injEq] at holds
      simp [Pc.lock, holds.1]
  | cleared i entered loaded =>
      simp only [here, Pc.register, Option.some.injEq, Prod.mk.injEq] at holds
      exact .inr ⟨holds.1, i, entered, by rw [holds.2]⟩
  | _ => simp [here, Pc.register] at holds

theorem stored {pid : Int} {signum : Fin NSIG} {loaded : UInt64} (kept : Kept state)
    (here : state.pc p = .kkill (.store loaded) pid signum k)
    (quiet : Undisturbed state (p, .next))
    (taken : kkill state p pid signum k (.store loaded) = some after) : Kept after := by
  have mine : (state.pc p).lock p = some k := by simp [here, Pc.lock]
  obtain ⟨posted, sent, rfl⟩ := kkill_store taken
  refine ⟨?_, ?_, ?_⟩
  · exact kept.owned.move fun lock => by simp [here, Pc.lock]
  · intro q j member
    by_cases same : q = k
    · subst q
      simp only [Function.update_self] at member ⊢
      rcases sent j member with old | ⟨fresh, -⟩
      · have safe := kept.registers p k loaded (by simp [here, Pc.register]) j old
        rw [here] at safe
        exact (safe.resolve_left id).imp_right fun pending => pending.or signum
      · subst j
        exact .inr (pending_or loaded signum)
    · simp only [Function.update_of_ne same] at member ⊢
      exact kept.lossless q j member
  · intro r q word holds j member
    by_cases self : r = p
    · subst r
      simp [Pc.register] at holds
    simp only [Function.update_of_ne self] at holds ⊢
    by_cases same : q = k
    · subst q
      simp only [Function.update_self] at member ⊢
      rcases sent j member with old | ⟨fresh, mild⟩
      · exact kept.registers r k word holds j old
      · subst j
        rcases register_cases holds with locked | ⟨owner, i, entered, there⟩
        · exact absurd (kept.owned.exclusive locked mine) self
        · subst r
          have allowed := quiet (signum, k) (by simp [here, Pc.storing]) (i, word)
            (by simp [there, Pc.clearing])
          rcases allowed with drops | pending | fatal | dead
          · rw [there]
            exact .inl drops
          · exact .inr (.inr pending)
          · exact absurd fatal mild
          · exact .inr (.inl dead)
    · simp only [Function.update_of_ne same] at member ⊢
      exact kept.registers r q word holds j member

theorem consumed {i : Fin NSIG} {entered : Bool} {loaded : UInt64} (kept : Kept state)
    (here : state.pc p = .cleared i entered loaded)
    (taken : usertrap state p (.cleared i entered loaded) = some after) : Kept after := by
  obtain rfl := Option.some.inj taken
  refine ⟨?_, ?_, ?_⟩
  · refine kept.owned.move fun lock => ?_
    cases entered <;> simp [here, Pc.lock]
  · intro q j member
    by_cases same : q = p
    · subst q
      simp only [State.goto, State.consume, State.setProc, Function.update_self,
        Finset.mem_erase] at member ⊢
      have safe := kept.registers p p loaded (by simp [here, Pc.register]) j member.2
      rw [here] at safe
      exact (safe.resolve_left member.1).imp_right fun pending => pending.clear member.1
    · simp only [State.goto, State.consume, State.setProc, Function.update_of_ne same] at member ⊢
      exact kept.lossless q j member
  · intro r q register holds j member
    simp only [State.goto, State.consume, State.setProc] at holds member ⊢
    have sent : j ∈ state.posted q := by
      by_cases same : q = p
      · subst q
        rw [Function.update_self] at member
        exact Finset.mem_of_mem_erase member
      · rwa [Function.update_of_ne same] at member
    have killed : (Function.update state.proc p { state.proc p with
        pendingSignals := loaded &&& ~~~ signalBit i } q).killed = (state.proc q).killed := by
      by_cases same : q = p
      · subst q
        rw [Function.update_self]
      · rw [Function.update_of_ne same]
    rw [killed]
    by_cases self : r = p
    · subst r
      cases entered <;> simp [Pc.register] at holds
    · rw [Function.update_of_ne self] at holds ⊢
      exact kept.registers r q register holds j sent

theorem post (kept : Kept state) (signum : Fin NSIG) (killed : (state.proc k).killed = true) :
    Kept (state.post k signum) := by
  apply kept.frame
  · exact kept.owned
  · exact fun _ => rfl
  · exact fun _ => id
  · intro q j member
    by_cases same : q = k
    · subst q
      exact .inr killed
    · simp only [State.post, Function.update_of_ne same] at member
      exact .inl member
  · exact fun _ => .inl rfl

theorem kkill {stage : Kkill} {pid : Int} {signum : Fin NSIG} (kept : Kept state)
    (here : state.pc p = .kkill stage pid signum k)
    (quiet : Undisturbed state (p, .next))
    (taken : kkill state p pid signum k stage = some after) : Kept after := by
  cases stage with
  | acquire => exact kept.acquire here rfl rfl rfl taken
  | test =>
      obtain rfl := Option.some.inj taken
      split
      · exact kept.jump here rfl rfl
      · exact kept.jump here rfl rfl
  | load =>
      obtain rfl := Option.some.inj taken
      refine kept.goto (by simp [here, Pc.lock]) fun q word holds => ?_
      simp only [Pc.register, Option.some.injEq, Prod.mk.injEq] at holds
      rw [← holds.1, ← holds.2]
  | store loaded =>
      exact kept.stored here quiet taken
  | kill =>
      obtain rfl := Option.some.inj taken
      split
      · have killed : Kept (state.setProc k (state.proc k).setKilled) :=
          kept.setProc rfl fun _ => rfl
        have sent : Kept ((state.setProc k (state.proc k).setKilled).post k signum) :=
          killed.post signum (by simp [State.setProc, Proc.setKilled])
        exact sent.jump here rfl rfl
      · exact kept.jump here rfl rfl
  | wake =>
      obtain rfl := Option.some.inj taken
      split
      · have woken : Kept (state.setProc k ((state.proc k).setState .RUNNABLE)) :=
          kept.setProc rfl id
        exact woken.jump here rfl rfl
      · exact kept.jump here rfl rfl
  | done =>
      obtain rfl := Option.some.inj taken
      exact kept.release here rfl rfl rfl
  | skip =>
      obtain rfl := Option.some.inj taken
      split
      · exact kept.release here rfl rfl rfl
      · exact kept.release here rfl rfl rfl

theorem kexit (kept : Kept state) (here : state.pc p = .kexit)
    (taken : kexit state p = some after) : Kept after := by
  rw [SignalRace.kexit] at taken
  split at taken
  · simp at taken
  · obtain rfl := Option.some.inj taken
    have zombie : Kept (state.setProc p ((state.proc p).setState .ZOMBIE)) :=
      kept.setProc rfl id
    exact zombie.jump here rfl rfl

theorem usertrap {pc : Pc} (kept : Kept state) (here : state.pc p = pc)
    (taken : usertrap state p pc = some after) : Kept after := by
  cases pc
  case elsewhere | kkill | returned | exited => exact absurd taken.symm (Option.some_ne_none after)
  case cleared i entered loaded =>
    exact kept.consumed here taken
  case kexit => exact kept.kexit here taken
  case setkilled => exact kept.acquire here rfl rfl rfl taken
  case killed => exact kept.acquire here rfl rfl rfl taken
  case handler i =>
    rw [usertrap_handler] at taken
    split at taken
    · obtain rfl := Option.some.inj taken
      exact kept.jump here rfl rfl
    · split at taken
      · obtain rfl := Option.some.inj taken
        exact kept.jump here rfl rfl
      · obtain rfl := Option.some.inj taken
        have saved : Kept (state.setProc p (enterHandler (state.proc p) i)) :=
          kept.setProc rfl id
        exact saved.jump here rfl rfl
  all_goals obtain rfl := Option.some.inj taken
  case signals =>
    split
    · exact kept.jump here rfl rfl
    · exact kept.jump here rfl rfl
  case scan i =>
    split
    · split
      · exact kept.jump here rfl rfl
      · exact kept.jump here rfl rfl
    · exact kept.jump here rfl rfl
  case clear i entered =>
    refine kept.goto (by simp [here, Pc.lock]) fun q word holds => ?_
    simp only [Pc.register, Option.some.injEq, Prod.mk.injEq] at holds
    rw [← holds.1, ← holds.2]
  case setkilledStore =>
    have killed : Kept (state.setProc p (state.proc p).setKilled) :=
      kept.setProc rfl fun _ => rfl
    exact killed.jump here rfl rfl
  case setkilledRelease =>
    exact kept.release here rfl rfl rfl
  case killedLoad => exact kept.jump here rfl rfl
  case killedRelease k =>
    cases k
    · exact kept.release here rfl rfl rfl
    · exact kept.release here rfl rfl rfl

theorem advance {action : Action} (kept : Kept state)
    (quiet : Undisturbed state (p, action))
    (taken : advance state p (state.pc p) action = some after) : Kept after := by
  generalize here : state.pc p = pc at taken
  cases action with
  | next =>
      cases pc
      case kkill stage pid signum k => exact kept.kkill here quiet taken
      case returned =>
        obtain rfl := Option.some.inj taken
        exact kept.jump here rfl rfl
      all_goals exact kept.usertrap here taken
  | signal signum handler =>
      cases pc
      case elsewhere =>
        replace taken : sysSignal state p signum handler = some after := taken
        rw [sysSignal] at taken
        split at taken
        · obtain rfl := Option.some.inj taken
          exact kept
        · split at taken
          · obtain rfl := Option.some.inj taken
            exact kept.setProc rfl id
          · simp at taken
      all_goals exact absurd taken.symm (Option.some_ne_none after)
  | sigreturn =>
      cases pc
      case elsewhere =>
        obtain rfl := Option.some.inj taken
        exact kept.setProc rfl id
      all_goals exact absurd taken.symm (Option.some_ne_none after)
  | kill pid signum =>
      cases pc
      case elsewhere =>
        obtain rfl := Option.some.inj taken
        rw [sysKill]
        split
        · exact kept.jump here rfl rfl
        · exact kept.jump here rfl rfl
      all_goals exact absurd taken.symm (Option.some_ne_none after)
  | trap frame =>
      cases pc
      case elsewhere =>
        obtain rfl := Option.some.inj taken
        have entered : Kept (state.setProc p { state.proc p with trapframe := frame }) :=
          kept.setProc rfl id
        exact entered.jump here rfl rfl
      all_goals exact absurd taken.symm (Option.some_ne_none after)
  | dispatch | preempt | sleep | wakeup =>
      cases pc
      all_goals exact absurd taken.symm (Option.some_ne_none after)

theorem schedule {before later : Procstate} (kept : Kept state)
    (moved : schedule state p before later = some after) : Kept after := by
  rw [SignalRace.schedule] at moved
  split at moved
  · obtain rfl := Option.some.inj moved
    exact kept.setProc rfl id
  · simp at moved

theorem step {label : Slot × Action} (kept : Kept state) (quiet : Undisturbed state label)
    (taken : step state label = some after) : Kept after := by
  obtain ⟨p, action⟩ := label
  cases action <;> simp only [SignalRace.step] at taken
  case dispatch | wakeup => exact kept.schedule taken
  case sleep | preempt =>
    split at taken
    · exact kept.schedule taken
    · simp at taken
  all_goals
    split at taken
    · exact kept.advance quiet taken
    · simp at taken

end Kept

theorem kept_of_undisturbed {state : State}
    (reachable : (system.restrict Undisturbed).Reachable state) : Kept state := by
  refine System.Reachable.invariant ?_ ?_ reachable
  · exact fun _ quiet => Quiet.kept quiet
  · exact fun _ _ _ kept taken => kept.step taken.1 taken.2

/-- No signal is lost in a run in which no `kkill` stores its signal between the load and the
store with which the process clears another one. -/
theorem none_lost {state : State} (reachable : (system.restrict Undisturbed).Reachable state) :
    NoneLost state :=
  (kept_of_undisturbed reachable).lossless

def table : State where
  proc p :=
    { state := if p.val < 3 then .RUNNING else .UNUSED
      killed := false
      pid := if p.val < 3 then p + 1 else 0
      trapframe := default
      pendingSignals := 0
      signalHandlers := fun _ => SIG_DFL
      sigTf := default
      isHandlingSignal := false }
  lock _ := none
  pc _ := .elsewhere
  posted _ := ∅

theorem table_quiet : table.Quiet := ⟨fun _ => rfl, fun _ => rfl, fun _ => rfl⟩

def victim : Slot := ⟨1, Signal.one_lt_NPROC⟩

def sender : Slot := ⟨2, by decide⟩

def nexts (p : Slot) (n : ℕ) : List (Slot × Action) := List.replicate n (p, .next)

/-- The victim ignores signal 5, is sent it and is on its way out of `usertrap`, at the store
that clears it; `n` is how far it still has to go. -/
def ignoring (n : ℕ) : List (Slot × Action) :=
  [(victim, .signal 5 SIG_IGN), (sender, .kill 2 5)] ++ nexts sender 11 ++
    [(victim, .trap default)] ++ nexts victim (9 - n)

def second : Fin NSIG := ⟨3, by decide⟩

def sendSecond : List (Slot × Action) := (sender, .kill 2 3) :: nexts sender 10

/-- Sent before the victim's load, the second signal outlives the clearing of the first. -/
theorem none_lost_sentBefore : ∃ state : State, second ∈ state.posted victim ∧
    (state.proc victim).killed = false ∧ Pending (state.proc victim).pendingSignals second := by
  have sound : ∀ before label after, System.guard Undisturbed step before label = some after →
      (system.restrict Undisturbed).step before label after :=
    System.guard_sound fun _ _ _ taken => taken
  have executed : (System.execute (System.guard Undisturbed step) table
      (ignoring 1 ++ sendSecond ++ nexts victim 2)).map (fun after =>
        (decide (second ∈ after.posted victim), (after.proc victim).killed)) =
        some (true, false) := by decide +kernel
  obtain ⟨state, run, ends⟩ := System.Run.existsOfExecute sound executed
  simp only [Prod.mk.injEq, decide_eq_true_eq] at ends
  have kept := none_lost (run.reachable (.start table_quiet)) victim second ends.1
  exact ⟨state, ends.1, ends.2, kept.resolve_left (by simp [ends.2])⟩

/-- The second signal is stored between the load and the store that clear the first: its
`kkill` has returned 0 and the victim, alive, has consumed nothing but signal 5. -/
theorem second_signal_lost : ∃ state : State, system.Reachable state ∧
    state.pc sender = .returned 0 ∧ second ∈ state.posted victim ∧
    (state.proc victim).killed = false ∧
    ¬ Pending (state.proc victim).pendingSignals second ∧ ¬ NoneLost state := by
  have executed : (System.execute step table
      (ignoring 0 ++ sendSecond ++ nexts victim 1)).map (fun after =>
        (after.pc sender, decide (second ∈ after.posted victim), (after.proc victim).killed,
          (after.proc victim).pendingSignals)) =
        some (.returned 0, true, false, 0) := by decide +kernel
  have sound : ∀ before label after, step before label = some after →
      system.step before label after := fun _ _ _ taken => taken
  obtain ⟨state, run, ends⟩ := System.Run.existsOfExecute sound executed
  simp only [Prod.mk.injEq, decide_eq_true_eq] at ends
  obtain ⟨returned, sent, alive, empty⟩ := ends
  have gone : ¬ Pending (state.proc victim).pendingSignals second := by
    rw [empty]
    simp [Pending]
  refine ⟨state, run.reachable (.start table_quiet), returned, sent, alive, gone, ?_⟩
  intro kept
  exact (kept victim second sent).elim (by simp [alive]) gone

end OsLab.Kernel.SignalRace
