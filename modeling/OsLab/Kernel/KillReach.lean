import OsLab.Kernel.Signal

/-!
The process table under whole calls of `allocproc`, `kfork`, `kclone`, `kexit`, `kwait`,
`kjoin` and `kkill`, one after the other. What memory and `copyout` do is part of the
call; a wait that goes to sleep is the call that returns later.
-/

namespace OsLab.Kernel.KillReach

open OsLab.Library
open OsLab.Kernel.Signal (NSIG NPROC SIGKILL Slot Proc initproc startChild kkill kkill_cases
  kkill_succeeds)

structure Table where
  kernel : Signal.State
  parent : Slot → Option Slot

def Table.state (table : Table) (q : Slot) : Procstate := (table.kernel.proc q).state

/-- `freeproc` with the field the wait functions read. -/
def Table.freeproc (table : Table) (p : Slot) : Table where
  kernel := Signal.freeproc table.kernel p
  parent := Function.update table.parent p none

/-- The page for `sig_tf`, or the failure of one of `allocproc`'s three allocations. -/
inductive Memory
  | page (sigTf : Trapframe)
  | exhausted

def Table.take (table : Table) (np : Slot) : Table :=
  let kernel := table.kernel
  { table with kernel := { kernel.setProc np
      { kernel.proc np with pid := kernel.nextpid, state := .USED } with
        nextpid := kernel.nextpid + 1 } }

def allocproc (table : Table) (memory : Memory) : Table × Option Slot :=
  match (List.finRange NPROC).find? fun q => table.state q = .UNUSED with
  | none => (table, none)
  | some np =>
      match memory with
      | .exhausted => ((table.take np).freeproc np, none)
      | .page sigTf => ({ table with kernel := Signal.allocproc table.kernel np sigTf }, some np)

/-- `kfork` and `kclone`: `copied` says whether `uvmcopy` or `uvmshare` succeeds, and `frame` is
the child's trapframe made from the caller's. -/
def spawn (table : Table) (p : Slot) (memory : Memory) (copied : Bool)
    (frame : Trapframe → Trapframe) : Table × Int :=
  match allocproc table memory with
  | (after, none) => (after, -1)
  | (after, some np) =>
      if copied then
        ({ kernel := startChild after.kernel np (frame (after.kernel.proc p).trapframe)
           parent := Function.update after.parent np (some p) }, (after.kernel.proc np).pid)
      else (after.freeproc np, -1)

def kfork (table : Table) (p : Slot) (memory : Memory) (copied : Bool) : Table × Int :=
  spawn table p memory copied fun tf => { tf with a0 := 0 }

def kclone (table : Table) (p : Slot) (memory : Memory) (copied : Bool)
    (fcn stack arg : UInt64) : Table × Int :=
  spawn table p memory copied fun tf => { tf with epc := fcn, sp := stack + 4096, a0 := arg }

def reparent (table : Table) (p : Slot) : Table :=
  { table with
    parent := fun pp => if table.parent pp = some p then some initproc else table.parent pp }

/-- Exiting is a panic for init, which no call models. -/
def kexit (table : Table) (p : Slot) : Option Table :=
  (Signal.kexit table.kernel p).map fun kernel => { reparent table p with kernel }

/-- The loop of `kwait` and `kjoin`, which differ in the test on a slot; `none` is `sleep`. -/
def reap (table : Table) (p : Slot) (wanted : Slot → Bool) (addr : UInt64) (copied : Bool) :
    Option (Table × Int) :=
  let kid := fun pp => table.parent pp = some p ∧ wanted pp = true
  match (List.finRange NPROC).find? fun pp => kid pp ∧ table.state pp = .ZOMBIE with
  | some pp =>
      if addr ≠ 0 ∧ copied = false then some (table, -1)
      else some (table.freeproc pp, (table.kernel.proc pp).pid)
  | none =>
      if (¬ ∃ pp, kid pp) ∨ (table.kernel.proc p).killed = true then some (table, -1) else none

def kwait (table : Table) (p : Slot) (addr : UInt64) (copied : Bool) : Option (Table × Int) :=
  reap table p (fun _ => true) addr copied

def kjoin (table : Table) (p : Slot) (tid : Int) (addr : UInt64) (copied : Bool) :
    Option (Table × Int) :=
  reap table p (fun pp => (table.kernel.proc pp).pid = tid) addr copied

/-- The calls, with the slot of the process that makes them, and the changes of `p->state` by
`userinit`, the scheduler, `sleep` and `wakeup` between them. -/
inductive Call
  | allocproc (memory : Memory)
  | kfork (p : Slot) (memory : Memory) (copied : Bool)
  | kclone (p : Slot) (memory : Memory) (copied : Bool) (fcn stack arg : UInt64)
  | kexit (p : Slot) (status : Int)
  | kwait (p : Slot) (addr : UInt64) (copied : Bool)
  | kjoin (p : Slot) (tid : Int) (addr : UInt64) (copied : Bool)
  | kkill (pid signum : Int)
  | schedule (p : Slot) (before after : Procstate)

def moves : List (Procstate × Procstate) :=
  [(.USED, .RUNNABLE), (.RUNNABLE, .RUNNING), (.RUNNING, .RUNNABLE), (.RUNNING, .SLEEPING),
    (.SLEEPING, .RUNNABLE)]

def Table.by (table : Table) (p : Slot) (outcome : Option (Table × Int)) : Option (Table × Int) :=
  if table.state p = .RUNNING then outcome else none

/-- A call's effect and return value; a slot that `allocproc` returns counts as 1. -/
def run (table : Table) : Call → Option (Table × Int)
  | .allocproc memory =>
      let (after, found) := allocproc table memory
      some (after, if found.isSome then 1 else 0)
  | .kfork p memory copied => table.by p (some (kfork table p memory copied))
  | .kclone p memory copied fcn stack arg =>
      table.by p (some (kclone table p memory copied fcn stack arg))
  | .kexit p _ => table.by p ((kexit table p).map fun after => (after, 0))
  | .kwait p addr copied => table.by p (kwait table p addr copied)
  | .kjoin p tid addr copied => table.by p (kjoin table p tid addr copied)
  | .kkill pid signum =>
      let (kernel, result) := kkill table.kernel pid signum
      some ({ table with kernel }, result)
  | .schedule p before after =>
      if (before, after) ∈ moves then
        (Signal.schedule table.kernel p before after).map fun kernel =>
          ({ table with kernel }, 0)
      else none

def boot : Table where
  kernel :=
    { proc := fun _ =>
        { state := .UNUSED
          killed := false
          pid := 0
          trapframe := default
          pendingSignals := 0
          signalHandlers := fun _ => 0
          sigTf := default
          isHandlingSignal := false }
      nextpid := 1
      phase := fun _ => .forkret
      history := fun _ => [] }
  parent _ := none

def system : System Table Call where
  init table := table = boot
  step before call after := ∃ result, run before call = some (after, result)

/-! ### What a call may do -/

/-- `kkill` succeeds only on a live process with that pid and changes at most that one, and a
slot that is taken starts unkilled and without signals. -/
structure Reaches (before : Table) (call : Call) (after : Table) (result : Int) : Prop where
  live : ∀ pid signum, call = .kkill pid signum → result = 0 →
    ∃ q, before.state q ≠ .UNUSED ∧ (before.kernel.proc q).pid = pid ∧
      ∀ other, other ≠ q → after.kernel.proc other = before.kernel.proc other
  missed : ∀ pid signum, call = .kkill pid signum → result ≠ 0 → after = before
  fresh : ∀ q, before.state q = .UNUSED → after.state q ≠ .UNUSED →
    (after.kernel.proc q).killed = false ∧ (after.kernel.proc q).pendingSignals = 0

/-- No `kkill` with a valid signal is given the pid of the UNUSED slots while there is one. -/
def Aimed (table : Table) : Call → Prop
  | .kkill pid signum =>
      pid ≠ 0 ∨ signum < 0 ∨ signum ≥ NSIG ∨ ∀ q, table.state q ≠ .UNUSED
  | _ => True

instance (table : Table) (call : Call) : Decidable (Aimed table call) :=
  match call with
  | .kkill _ _ => inferInstanceAs (Decidable (_ ∨ _ ∨ _ ∨ _))
  | .allocproc _ | .kfork _ _ _ | .kclone _ _ _ _ _ _ | .kexit _ _ | .kwait _ _ _
  | .kjoin _ _ _ _ | .schedule _ _ _ => inferInstanceAs (Decidable True)

structure Fits (proc : Proc) : Prop where
  free : proc.state = .UNUSED → proc.pid = 0 ∧ proc.killed = false
  taken : proc.state ≠ .UNUSED → 0 < proc.pid

structure Clean (table : Table) : Prop where
  fits : ∀ q, Fits (table.kernel.proc q)
  nextpid : 0 < table.kernel.nextpid

def Fresh (before after : Table) : Prop :=
  ∀ q, before.state q = .UNUSED → after.state q ≠ .UNUSED →
    (after.kernel.proc q).killed = false ∧ (after.kernel.proc q).pendingSignals = 0

theorem boot_clean : Clean boot where
  fits _ := ⟨fun _ => ⟨rfl, rfl⟩, fun used => absurd rfl used⟩
  nextpid := by decide

variable {table after : Table} {p np : Slot}

theorem Clean.change (clean : Clean table) (q : Slot) (proc : Proc)
    (changed : after.kernel.proc = Function.update table.kernel.proc q proc)
    (nextpid : 0 < after.kernel.nextpid) (fits : Fits proc)
    (fresh : table.state q = .UNUSED → proc.state ≠ .UNUSED →
      proc.killed = false ∧ proc.pendingSignals = 0) : Clean after ∧ Fresh table after := by
  refine ⟨⟨fun other => ?_, nextpid⟩, fun other unused used => ?_⟩
  · rw [changed]
    by_cases same : other = q
    · subst other
      rwa [Function.update_self]
    · rw [Function.update_of_ne same]
      exact clean.fits other
  · rw [Table.state, changed] at used
    rw [changed]
    by_cases same : other = q
    · subst other
      rw [Function.update_self] at used ⊢
      exact fresh unused used
    · rw [Function.update_of_ne same] at used
      exact absurd unused used

theorem Clean.unchanged (clean : Clean table) (same : after.kernel = table.kernel) :
    Clean after ∧ Fresh table after := by
  refine ⟨⟨fun q => ?_, ?_⟩, fun q unused used => ?_⟩
  · rw [same]
    exact clean.fits q
  · rw [same]
    exact clean.nextpid
  · rw [Table.state, same] at used
    exact absurd unused used

theorem allocproc_some {memory : Memory} (found : allocproc table memory = (after, some np)) :
    table.state np = .UNUSED ∧
      ∃ sigTf, after = { table with kernel := Signal.allocproc table.kernel np sigTf } := by
  rw [allocproc] at found
  split at found
  · simp at found
  · rename_i slot first
    have unused := List.find?_some first
    split at found
    · simp at found
    · rename_i sigTf
      simp only [Prod.mk.injEq, Option.some.injEq] at found
      obtain ⟨rfl, rfl⟩ := found
      exact ⟨by simpa using unused, sigTf, rfl⟩

def freed (proc : Proc) : Proc := { proc with pid := 0, killed := false, state := .UNUSED }

theorem Clean.freed (clean : Clean table) (q : Slot) (old : Proc)
    (changed : after.kernel.proc = Function.update table.kernel.proc q (freed old))
    (nextpid : 0 < after.kernel.nextpid) : Clean after ∧ Fresh table after :=
  clean.change q _ changed nextpid ⟨fun _ => ⟨rfl, rfl⟩, fun taken => absurd rfl taken⟩
    fun _ taken => absurd rfl taken

theorem Clean.freeproc (clean : Clean table) (q : Slot) :
    Clean (table.freeproc q) ∧ Fresh table (table.freeproc q) :=
  clean.freed q (table.kernel.proc q) rfl clean.nextpid

theorem Clean.exhausted {memory : Memory} (clean : Clean table)
    (failed : allocproc table memory = (after, none)) : Clean after ∧ Fresh table after := by
  have next := clean.nextpid
  rw [allocproc] at failed
  split at failed
  · simp only [Prod.mk.injEq, and_true] at failed
    exact clean.unchanged (by rw [failed])
  · rename_i slot _
    split at failed
    · simp only [Prod.mk.injEq, and_true] at failed
      subst after
      apply clean.freed slot (table.kernel.proc slot)
      · simp [Table.take, Table.freeproc, Signal.freeproc, Signal.State.setProc, KillReach.freed]
      · simp only [Table.take, Table.freeproc, Signal.freeproc, Signal.State.setProc]
        omega
    · simp at failed

theorem Clean.taken (clean : Clean table) (unused : table.state np = .UNUSED) (proc : Proc)
    (changed : after.kernel.proc = Function.update table.kernel.proc np proc)
    (nextpid : after.kernel.nextpid = table.kernel.nextpid + 1)
    (pid : proc.pid = table.kernel.nextpid) (used : proc.state ≠ .UNUSED)
    (killed : proc.killed = (table.kernel.proc np).killed) (pending : proc.pendingSignals = 0) :
    Clean after ∧ Fresh table after := by
  have off := ((clean.fits np).free unused).2
  have next := clean.nextpid
  apply clean.change np proc changed (by omega)
  · exact ⟨fun free => absurd free used, fun _ => by omega⟩
  · exact fun _ _ => ⟨by rw [killed, off], pending⟩

theorem Clean.allocproc (clean : Clean table) (memory : Memory) :
    Clean (allocproc table memory).1 ∧ Fresh table (allocproc table memory).1 := by
  cases result : KillReach.allocproc table memory with
  | mk after found =>
      cases found with
      | none => exact clean.exhausted result
      | some np =>
          obtain ⟨unused, sigTf, rfl⟩ := allocproc_some result
          apply clean.taken unused ((Signal.allocproc table.kernel np sigTf).proc np)
          all_goals simp [Signal.allocproc, Signal.State.setProc]

theorem Clean.spawn (clean : Clean table) (memory : Memory) (copied : Bool)
    (frame : Trapframe → Trapframe) :
    Clean (spawn table p memory copied frame).1 ∧
      Fresh table (spawn table p memory copied frame).1 := by
  rw [KillReach.spawn]
  split
  · rename_i after failed
    exact clean.exhausted failed
  · rename_i after np found
    obtain ⟨unused, sigTf, rfl⟩ := allocproc_some found
    let allocated := Signal.allocproc table.kernel np sigTf
    split
    · apply clean.taken unused
        ((startChild allocated np (frame (allocated.proc p).trapframe)).proc np)
      all_goals simp [allocated, startChild, Signal.allocproc, Signal.State.setProc]
    · apply clean.freed np (allocated.proc np)
      · simp [allocated, Table.freeproc, Signal.freeproc, Signal.allocproc, Signal.State.setProc,
          KillReach.freed]
      · exact Int.lt_add_one_of_le clean.nextpid.le

theorem Clean.kexit (clean : Clean table) (running : table.state p = .RUNNING)
    (exited : kexit table p = some after) : Clean after ∧ Fresh table after := by
  obtain ⟨kernel, zombie, rfl⟩ := Option.map_eq_some_iff.mp exited
  have alive : (table.kernel.proc p).state ≠ .UNUSED := by
    rw [← Table.state, running]
    simp
  rw [Signal.kexit] at zombie
  split at zombie
  · simp at zombie
  · obtain rfl := Option.some.inj zombie
    apply clean.change p ((table.kernel.proc p).setState .ZOMBIE)
    · rfl
    · exact clean.nextpid
    · exact ⟨by simp [Proc.setState], fun _ => (clean.fits p).taken alive⟩
    · exact fun unused => absurd unused alive

theorem Clean.reap {wanted : Slot → Bool} {addr : UInt64} {copied : Bool} {result : Int}
    (clean : Clean table) (reaped : reap table p wanted addr copied = some (after, result)) :
    Clean after ∧ Fresh table after := by
  rw [KillReach.reap] at reaped
  split at reaped
  · rename_i pp _
    split at reaped
    · simp only [Option.some.injEq, Prod.mk.injEq] at reaped
      exact clean.unchanged (by rw [reaped.1])
    · simp only [Option.some.injEq, Prod.mk.injEq] at reaped
      rw [← reaped.1]
      exact clean.freeproc pp
  · split at reaped
    · simp only [Option.some.injEq, Prod.mk.injEq] at reaped
      exact clean.unchanged (by rw [reaped.1])
    · simp at reaped

theorem Clean.schedule {before later : Procstate} {kernel : Signal.State} (clean : Clean table)
    (move : (before, later) ∈ moves)
    (moved : Signal.schedule table.kernel p before later = some kernel) :
    Clean { table with kernel } ∧ Fresh table { table with kernel } := by
  have alive : before ≠ .UNUSED ∧ later ≠ .UNUSED := by
    simp only [moves, List.mem_cons, Prod.mk.injEq, List.not_mem_nil, or_false] at move
    rcases move with ⟨rfl, rfl⟩ | ⟨rfl, rfl⟩ | ⟨rfl, rfl⟩ | ⟨rfl, rfl⟩ | ⟨rfl, rfl⟩ <;> simp
  rw [Signal.schedule] at moved
  split at moved
  · rename_i here
    obtain rfl := Option.some.inj moved
    have used : (table.kernel.proc p).state ≠ .UNUSED := by
      rw [here]
      exact alive.1
    apply clean.change p ((table.kernel.proc p).setState later)
    · rfl
    · exact clean.nextpid
    · exact ⟨fun unused => absurd unused alive.2, fun _ => (clean.fits p).taken used⟩
    · exact fun unused => absurd unused used
  · simp at moved

/-! ### `kkill` -/

theorem post_state (proc : Proc) (signum : Int) :
    (proc.post signum).state = .UNUSED ↔ proc.state = .UNUSED := by
  simp only [Proc.post]
  split
  · rename_i asleep
    simp [asleep]
  · exact Iff.rfl

theorem Clean.alive {pid signum : Int} {q : Slot} (clean : Clean table)
    (aimed : Aimed table (.kkill pid signum)) (low : 0 ≤ signum) (high : signum < NSIG)
    (found : (table.kernel.proc q).pid = pid) : table.state q ≠ .UNUSED := by
  intro unused
  have zero := ((clean.fits q).free unused).1
  rcases aimed with nonzero | negative | large | full
  · exact nonzero (by rw [← found, zero])
  · omega
  · omega
  · exact full q unused

theorem Clean.kkill {pid signum : Int} (clean : Clean table)
    (aimed : Aimed table (.kkill pid signum)) :
    Clean { table with kernel := (kkill table.kernel pid signum).1 } ∧
      Fresh table { table with kernel := (kkill table.kernel pid signum).1 } := by
  rcases kkill_cases table.kernel pid signum with missed | ⟨low, high, q, found, posted⟩
  · rw [missed]
    exact clean.unchanged rfl
  · rw [posted]
    have alive := clean.alive aimed low high found
    apply clean.change q ((table.kernel.proc q).post signum)
    · rfl
    · exact clean.nextpid
    · refine ⟨fun unused => absurd ((post_state _ _).mp unused) alive, fun _ => ?_⟩
      exact (clean.fits q).taken alive
    · exact fun unused => absurd unused alive

/-! ### Whole runs -/

theorem by_some {outcome : Option (Table × Int)} {result : Int}
    (taken : table.by p outcome = some (after, result)) :
    table.state p = .RUNNING ∧ outcome = some (after, result) := by
  rw [Table.by] at taken
  split at taken
  · rename_i running
    exact ⟨running, taken⟩
  · simp at taken

theorem Clean.run {call : Call} {result : Int} (clean : Clean table) (aimed : Aimed table call)
    (taken : run table call = some (after, result)) : Clean after ∧ Fresh table after := by
  cases call with
  | allocproc memory =>
      simp only [KillReach.run, Option.some.injEq, Prod.mk.injEq] at taken
      rw [← taken.1]
      exact clean.allocproc memory
  | kfork p memory copied =>
      have forked := Option.some.inj (by_some taken).2
      have result := clean.spawn (p := p) memory copied fun tf => { tf with a0 := 0 }
      rw [kfork] at forked
      rw [forked] at result
      exact result
  | kclone p memory copied fcn stack arg =>
      have cloned := Option.some.inj (by_some taken).2
      have result := clean.spawn (p := p) memory copied fun tf =>
        { tf with epc := fcn, sp := stack + 4096, a0 := arg }
      rw [kclone] at cloned
      rw [cloned] at result
      exact result
  | kexit p status =>
      obtain ⟨running, exited⟩ := by_some taken
      obtain ⟨next, gone, same⟩ := Option.map_eq_some_iff.mp exited
      obtain rfl : next = after := congrArg Prod.fst same
      exact clean.kexit running gone
  | kwait p addr copied => exact clean.reap (by_some taken).2
  | kjoin p tid addr copied => exact clean.reap (by_some taken).2
  | kkill pid signum =>
      simp only [KillReach.run, Option.some.injEq, Prod.mk.injEq] at taken
      rw [← taken.1]
      exact clean.kkill aimed
  | schedule p before later =>
      simp only [KillReach.run] at taken
      split at taken
      · rename_i move
        obtain ⟨kernel, moved, same⟩ := Option.map_eq_some_iff.mp taken
        obtain rfl : { table with kernel } = after := congrArg Prod.fst same
        exact clean.schedule move moved
      · simp at taken

theorem clean_of_aimed (reachable : (system.restrict Aimed).Reachable table) : Clean table := by
  induction reachable with
  | start initial =>
      subst initial
      exact boot_clean
  | step _ taken ih =>
      obtain ⟨aimed, result, taken⟩ := taken
      exact (ih.run aimed taken).1

/-- In a run of aimed calls, a call reaches only live processes and hands out only fresh slots
exactly if it is aimed too. -/
theorem kill_reaches_live (reachable : (system.restrict Aimed).Reachable table) {call : Call}
    {result : Int} (taken : run table call = some (after, result)) :
    Reaches table call after result ↔ Aimed table call := by
  have clean := clean_of_aimed reachable
  constructor
  · intro reaches
    cases call with
    | kkill pid signum =>
        by_contra stray
        simp only [Aimed, not_or, not_forall, not_not] at stray
        obtain ⟨zero, low, high, q, unused⟩ := stray
        simp only [run, Option.some.injEq, Prod.mk.injEq] at taken
        have success : result = 0 := by
          rw [← taken.2]
          exact kkill_succeeds (by omega) (by omega)
            (((clean.fits q).free unused).1.trans zero.symm)
        obtain ⟨found, used, same, -⟩ := reaches.live pid signum rfl success
        have positive := (clean.fits found).taken used
        omega
    | _ => trivial
  · intro aimed
    refine ⟨?_, ?_, (clean.run aimed taken).2⟩
    · rintro pid signum rfl success
      simp only [run, Option.some.injEq, Prod.mk.injEq] at taken
      rcases kkill_cases table.kernel pid signum with missed | ⟨low, high, q, found, posted⟩
      · rw [missed] at taken
        omega
      · refine ⟨q, clean.alive aimed low high found, found, fun other different => ?_⟩
        rw [← taken.1, posted]
        simp [Signal.State.setProc, different]
    · rintro pid signum rfl failure
      simp only [run, Option.some.injEq, Prod.mk.injEq] at taken
      rcases kkill_cases table.kernel pid signum with missed | ⟨low, high, q, found, posted⟩
      · rw [← taken.1, missed]
      · rw [posted] at taken
        exact absurd taken.2.symm failure

def first : Slot := ⟨0, Signal.NPROC_pos⟩

def second : Slot := ⟨1, Signal.one_lt_NPROC⟩

def family : List Call :=
  [.allocproc (.page default), .schedule first .USED .RUNNABLE,
    .schedule first .RUNNABLE .RUNNING, .kfork first (.page default) true]

def step (table : Table) (call : Call) : Option Table := (run table call).map Prod.fst

theorem step_sound (before : Table) (call : Call) (after : Table)
    (taken : step before call = some after) : system.step before call after := by
  obtain ⟨⟨next, result⟩, ran, rfl⟩ := Option.map_eq_some_iff.mp taken
  exact ⟨result, ran⟩

theorem kill_reaches_live_family : ∃ table : Table,
    (kkill table.kernel 2 SIGKILL).2 = 0 ∧
    Reaches table (.kkill 2 SIGKILL) { table with kernel := (kkill table.kernel 2 SIGKILL).1 } 0 := by
  have executed : (System.execute (System.guard Aimed step) boot family).map
      (fun table => (kkill table.kernel 2 SIGKILL).2) = some 0 := by decide +kernel
  obtain ⟨table, ran, success⟩ :=
    System.Run.existsOfExecute (System.guard_sound step_sound) executed
  have reachable := ran.reachable (.start rfl)
  refine ⟨table, success, (kill_reaches_live reachable ?_).mpr (.inl (by decide))⟩
  simp only [run, success]

/-- `kill(0, SIGKILL)` with only init alive succeeds on a free slot, and the next child of init,
which `allocproc` puts there, is killed from the start. -/
theorem stray_kill_marks_child : ∃ table killed after : Table, system.Reachable table ∧
    run table (.kkill 0 SIGKILL) = some (killed, 0) ∧
    ¬ Reaches table (.kkill 0 SIGKILL) killed 0 ∧
    run killed (.kfork first (.page default) true) = some (after, 2) ∧
    (after.kernel.proc second).killed = true ∧
    ¬ Reaches killed (.kfork first (.page default) true) after 2 := by
  have executed : ((System.execute step boot (family.take 3)).bind fun table =>
      (run table (.kkill 0 SIGKILL)).bind fun killed =>
        (run killed.1 (.kfork first (.page default) true)).map fun after =>
          (decide (∀ q, table.state q ≠ .UNUSED → (table.kernel.proc q).pid ≠ 0), killed.2,
            after.2, killed.1.state second, after.1.state second,
            (after.1.kernel.proc second).killed)) =
      some (true, 0, 2, .UNUSED, .RUNNABLE, true) := by decide +kernel
  obtain ⟨table, ran, rest⟩ := Option.bind_eq_some_iff.mp executed
  obtain ⟨⟨killed, hit⟩, shot, rest⟩ := Option.bind_eq_some_iff.mp rest
  obtain ⟨⟨after, pid⟩, forked, seen⟩ := Option.map_eq_some_iff.mp rest
  simp only [Prod.mk.injEq, decide_eq_true_eq] at seen
  obtain ⟨nobody, rfl, rfl, free, child, marked⟩ := seen
  have reachable := (System.Run.ofExecute step_sound ran).reachable (.start rfl)
  refine ⟨table, killed, after, reachable, shot, ?_, forked, marked, ?_⟩
  · intro reaches
    obtain ⟨q, used, zero, -⟩ := reaches.live 0 SIGKILL rfl rfl
    exact nobody q used zero
  · intro reaches
    have started := reaches.fresh second free (by simp [child])
    simp [marked] at started

end OsLab.Kernel.KillReach
