import OsLab.Kernel.BlockingInvariant

/-!
What a process killed in one of the waiting loops does next. Beside the kernel runs a
record of the processes that were killed when they last looked at their loop's condition.
-/

namespace OsLab.Kernel.Blocking

open OsLab.Library OsLab.Kernel.Threads
open OsLab.Kernel.Lifecycle (KernelInstr SIGKILL Stmt code_stmt)
open OsLab.Kernel.Semaphore (SemId semOf)

variable {n : ℕ}

def Point.head : Point n → Bool
  | .semTest _ | .pauseTest .. | .table (.waitScan _ 0 _) => true
  | _ => false

def looks (s : WaitState n) (q : Fin n) : Move n → Bool
  | .process p (.run _) => p = q && match s.pc q with
    | .main m => m.head
    | _ => false
  | _ => false

def atUser : WaitPc n → Bool
  | .main (.table .user) => true
  | _ => false

/-- `doomed` marks the processes that were killed when they last executed the head of a waiting
loop and have not returned from the call since. -/
structure Watched (n : ℕ) where
  kernel : WaitState n
  doomed : Fin n → Bool

def watch (before after : WaitState n) (doomed : Fin n → Bool) (move : Move n) (q : Fin n) : Bool :=
  if looks before q move then before.data.table.killed q else doomed q && !atUser (after.pc q)

def Watched.step (initproc : Fin n) (s : Watched n) (move : Move n) : Option (Watched n) :=
  (Blocking.step initproc s.kernel move).map fun after =>
    { kernel := after, doomed := watch s.kernel after s.doomed move }

def system (initproc : Fin n) : System (Watched n) (Move n) where
  init s := s = { kernel := boot initproc, doomed := fun _ => false }
  step before move after := before.step initproc move = some after

def sleeps : WaitPc n → Bool
  | .sleep .. => true
  | _ => false

def takes : WaitPc n → Bool
  | .main (.semTake _) => true
  | _ => false

/-- Nobody who was killed when it looked sleeps or takes a permit, and a killed process is asleep
nowhere but on `&ticks`, where the next tick wakes it. -/
structure Leaves (s : Watched n) : Prop where
  awake : ∀ p, s.doomed p = true →
    sleeps (s.kernel.pc p) = false ∧ takes (s.kernel.pc p) = false
  ticking : ∀ p, s.kernel.data.table.killed p = true → s.kernel.state p = .SLEEPING →
    s.kernel.chan p = some .ticks

/-- Inside the system call `sys_sem_wait`, between the test of `killed` in `usertrap` and a test
of the count that lets the process through. -/
def Point.awaits : Point n → Bool
  | .trapDone id false | .semWait id => (semOf id).isSome
  | .semAcquire _ | .semTest _ => true
  | _ => false

def site : WaitPc n → Option (Point n)
  | .main m | .yield _ m | .sleep _ _ _ m | .wakeup _ _ m | .wakeupTest _ _ m
  | .wakeupRelease _ _ m => some m
  | .dead => none

def awaits (pc : WaitPc n) : Bool := (site pc).any Point.awaits

/-- In the loop of `kwait` or `kjoin`, after `killed` has answered no. -/
def Point.decided : Point n → Bool
  | .table (.waitKilledDone _ false) | .table (.waitSleep _) => true
  | _ => false

def falls : SleepStage → Bool
  | .acquire | .release | .setChan | .setState | .sched => true
  | _ => false

def decided : WaitPc n → Bool
  | .main m | .yield _ m | .wakeup _ _ m | .wakeupTest _ _ m | .wakeupRelease _ _ m => m.decided
  | .sleep stage chan _ m => m.decided || falls stage && chan ≠ .ticks
  | .dead => false

def kills (s : WaitState n) : Move n → Option (Fin n)
  | .process p (.run _) => match s.pc p with
    | .main (.table (.killTest pid signum q)) =>
        if s.data.table.pid q = pid ∧ signum = SIGKILL then some q else none
    | _ => none
  | _ => none

/-- Nobody is sent SIGKILL inside `sys_sem_wait`, nor on its way from a negative answer of `killed`
to the sleep of `kwait` or `kjoin`. -/
def Spares (s : Watched n) (move : Move n) : Prop :=
  ∀ q, kills s.kernel move = some q →
    awaits (s.kernel.pc q) = false ∧ decided (s.kernel.pc q) = false

instance (s : Watched n) (move : Move n) : Decidable (Spares s move) :=
  inferInstanceAs (Decidable (∀ _, _ → _))

/-! ### Where a process is -/

def builds (pc : WaitPc n) : Option (Fin n) :=
  (site pc).bind fun
    | .table m => m.builds
    | _ => none

def idle : WaitPc n → Bool
  | .dead => true
  | .main (.table m) => m.zombie
  | _ => false

/-- On the way out of a waiting loop without going to sleep, for a process that is killed. -/
def Point.leaving : Point n → Bool
  | .table m => match m with
    | .waitScan .. | .waitTest .. | .waitNext .. | .waitFreed .. | .waitDone .. | .waitReturn ..
    | .waitCopyFail .. | .waitCheck .. | .waitKilled _ | .waitFail .. => true
    | .waitKilledDone _ killed => killed
    | _ => false
  | .pauseLock .. | .pauseKilled .. | .pauseRelease _ => true
  | .pauseKilledDone _ _ killed => killed
  | _ => false

def leaving : WaitPc n → Bool
  | .main m | .yield _ m => m.leaving
  | _ => false

variable {initproc p : Fin n} {s t : WaitState n}

/-- What an instruction of the waiting calls, or of `usertrap` before them, does at a point. -/
structure Own (data : Data n) (p : Fin n) (m : Point n) (instr : WaitInstr n) : Prop where
  table : (instr.data data).table = data.table
  state : ∀ state, instr.state state = state
  others : ∀ pc, instr.others pc = pc
  alive : idle (.main m) = false
  still : idle instr.next = false
  empty : builds instr.next = none
  awaits : awaits instr.next = true → m.awaits = true ∨ data.table.killed p = false
  decided : decided instr.next = true → m.awaits = true
  leaves : data.table.killed p = true → m.leaving = true →
    leaving instr.next = true ∨ instr.next = .main user
  head : data.table.killed p = true → m.head = true → leaving instr.next = true ∨ m.awaits = true

theorem embed_data (data : Data n) (instr : KernelInstr n) :
    ((embed data instr).data data).table = instr.data data.table := by
  cases instr <;> rfl

theorem embed_state (data : Data n) (instr : KernelInstr n) (state : Fin n → Procstate) :
    (embed data instr).state state = instr.state state := by
  cases instr <;> rfl

theorem enter_own {data : Data n} {input : Input} {instr : WaitInstr n}
    (ran : enter data input = some instr) : Own data p user instr := by
  cases input with
  | table input => simp [enter] at ran
  | semPost id =>
      obtain rfl := Option.some.inj ran
      cases valid : semOf id <;>
        refine ⟨rfl, fun _ => rfl, fun _ => rfl, rfl, rfl, rfl, ?_, ?_, ?_, ?_⟩ <;>
        simp [Instr.next, Blocking.awaits, Blocking.decided, Point.decided, site, user, Point.awaits, Point.leaving, Point.head]
  | _ =>
      obtain rfl := Option.some.inj ran
      refine ⟨rfl, fun _ => rfl, fun _ => rfl, rfl, rfl, rfl, ?_, ?_, ?_, ?_⟩ <;>
        simp [Instr.next, Blocking.awaits, Blocking.decided, Point.decided, site, user, Point.awaits, Point.leaving, Point.head]

theorem code_own {m : Point n} {state : Fin n → Procstate} {data : Data n} {input : Input}
    {instr : WaitInstr n} (other : ∀ point, m ≠ .table point)
    (ran : code initproc p m state data input = some instr) : Own data p m instr := by
  cases m with
  | table point => exact absurd rfl (other point)
  | trapKilled id =>
      obtain rfl := Option.some.inj ran
      refine ⟨rfl, fun _ => rfl, fun _ => rfl, rfl, rfl, rfl, ?_, ?_, ?_, ?_⟩ <;>
        cases data.table.killed p <;>
        simp [Instr.next, Blocking.awaits, Blocking.decided, Point.decided, site, Point.awaits, Point.leaving, Point.head]
  | trapDone id killed =>
      cases killed with
      | true =>
          by_cases init : p = initproc
          · simp [code, trapCode, semCode, pauseCode, init] at ran
          · obtain rfl : _ = instr := by simpa [code, trapCode, init] using ran
            refine ⟨rfl, fun _ => rfl, fun _ => rfl, rfl, rfl, rfl, ?_, ?_, ?_, ?_⟩ <;>
              simp [Instr.next, Blocking.awaits, Blocking.decided, Point.decided, site, Point.awaits, Point.leaving, Point.head]
      | false =>
          obtain rfl := Option.some.inj ran
          refine ⟨rfl, fun _ => rfl, fun _ => rfl, rfl, rfl, rfl, ?_, ?_, ?_, ?_⟩ <;>
            simp +contextual [Instr.next, Blocking.awaits, Blocking.decided, Point.decided, site, Point.awaits, Point.leaving, Point.head]
  | semWait id =>
      obtain rfl := Option.some.inj ran
      cases valid : semOf id <;>
        refine ⟨rfl, fun _ => rfl, fun _ => rfl, rfl, rfl, rfl, ?_, ?_, ?_, ?_⟩ <;>
        simp [Instr.next, Blocking.awaits, Blocking.decided, Point.decided, site, user, Point.awaits, Point.leaving, Point.head, valid]
  | semTest id =>
      by_cases empty : data.count id ≤ 0
      all_goals
        obtain rfl : _ = instr := by simpa [code, trapCode, semCode, empty] using ran
        refine ⟨rfl, fun _ => rfl, fun _ => rfl, rfl, rfl, rfl, ?_, ?_, ?_, ?_⟩ <;>
          simp [Point.awaits, Point.leaving]
  | pauseTest n ticks0 =>
      obtain rfl := Option.some.inj ran
      by_cases early : (data.ticks - ticks0).toNat < n <;>
        refine ⟨rfl, fun _ => rfl, fun _ => rfl, rfl, ?_, ?_, ?_, ?_, ?_, ?_⟩ <;>
        simp [Instr.next, early, idle, builds, leaving, Blocking.awaits, Blocking.decided, Point.decided, site, Point.awaits,
          Point.leaving]
  | pauseKilled n ticks0 =>
      obtain rfl := Option.some.inj ran
      refine ⟨rfl, fun _ => rfl, fun _ => rfl, rfl, rfl, rfl, ?_, ?_, ?_, ?_⟩ <;>
        simp +contextual [Instr.next, leaving, Blocking.awaits, Blocking.decided, Point.decided, site, Point.awaits, Point.leaving, Point.head]
  | pauseKilledDone n ticks0 killed =>
      obtain rfl := Option.some.inj ran
      cases killed <;> refine ⟨rfl, fun _ => rfl, fun _ => rfl, rfl, rfl, rfl, ?_, ?_, ?_, ?_⟩ <;>
        simp [Instr.next, leaving, Blocking.awaits, Blocking.decided, Point.decided, site, Point.awaits, Point.leaving, Point.head]
  | _ =>
      obtain rfl := Option.some.inj ran
      refine ⟨rfl, fun _ => rfl, fun _ => rfl, rfl, rfl, rfl, ?_, ?_, ?_, ?_⟩ <;>
        simp [Instr.next, leaving, user, Blocking.awaits, Blocking.decided, Point.decided, site, Point.awaits, Point.leaving, Point.head]

inductive Does (initproc p : Fin n) (s t : WaitState n) : Prop
  | table {m : Lifecycle.Point n} {input : Lifecycle.Input} {instr : KernelInstr n}
      (here : s.pc p = .main (.table m))
      (ran : Lifecycle.code initproc p m s.state s.data.table input = some instr)
      (data : t.data.table = instr.data s.data.table) (state : t.state = instr.state s.state)
      (pc : t.pc = Function.update ((embed s.data instr).others s.pc) p (embed s.data instr).next)
  | own {m : Point n} {instr : WaitInstr n} (here : s.pc p = .main m)
      (does : Own s.data p m instr) (data : t.data.table = s.data.table)
      (state : t.state = s.state) (pc : t.pc = Function.update s.pc p instr.next)

theorem does_of_perform {m : Point n} {input : Input} {instr : WaitInstr n}
    (here : s.pc p = .main m) (ran : code initproc p m s.state s.data input = some instr)
    (performed : perform s p instr = some t) : Does initproc p s t := by
  obtain ⟨data, state, pc⟩ := perform_effect performed
  have own : Own s.data p m instr → Does initproc p s t := fun does =>
    .own here does (by rw [data, does.table]) (by rw [state, does.state])
      (by rw [pc, does.others])
  cases m with
  | table m =>
      cases input with
      | table input =>
          obtain ⟨instr, code, rfl⟩ := Option.map_eq_some_iff.mp ran
          exact .table here code (by rw [data, embed_data]) (by rw [state, embed_state])
            pc
      | _ =>
          cases m <;> simp only [Blocking.code, reduceCtorEq] at ran
          exact own (enter_own ran)
  | _ => exact own (code_own (by simp) ran)

/-! ### The processes and the slots being filled -/

structure Table (state : Fin n → Procstate) (pc : Fin n → WaitPc n) : Prop where
  live : ∀ p, idle (pc p) = false → Live (state p)
  used : ∀ p np, builds (pc p) = some np → state np = .USED
  alone : ∀ p q np, builds (pc p) = some np → builds (pc q) = some np → p = q

def Rest (p : Fin n) (before after : Fin n → WaitPc n) : Prop :=
  ∀ q, q ≠ p → after q = before q ∨ after q = .yield .off user

section Table

variable {state state' : Fin n → Procstate} {pc pc' : Fin n → WaitPc n}

theorem Rest.builds (rest : Rest p pc pc') {q np : Fin n} (other : q ≠ p)
    (found : builds (pc' q) = some np) : builds (pc q) = some np := by
  rcases rest q other with same | started
  · rwa [same] at found
  · simp [started, Blocking.builds, site, user, Lifecycle.Point.builds] at found

theorem Table.step (table : Table state pc) (rest : Rest p pc pc')
    (live : ∀ q, idle (pc' q) = false → Live (state' q))
    (building : ∀ np, builds (pc' p) = some np → state' np = .USED ∧
      (builds (pc p) = some np ∨ state np = .UNUSED))
    (kept : ∀ np, state np = .USED → builds (pc p) ≠ some np → state' np = .USED) :
    Table state' pc' := by
  have clash : ∀ q np, q ≠ p → builds (pc q) = some np → builds (pc' p) ≠ some np := by
    intro q np other theirs mine
    rcases (building np mine).2 with before | unused
    · exact other (table.alone q p np theirs before)
    · simp [table.used q np theirs] at unused
  refine ⟨live, fun q np found => ?_, fun q r np one two => ?_⟩
  · by_cases same : q = p
    · subst same
      exact (building np found).1
    · have before := rest.builds same found
      exact kept np (table.used q np before) fun mine => same (table.alone q p np before mine)
  · by_cases first : q = p <;> by_cases second : r = p
    · rw [first, second]
    · subst first
      exact absurd one (clash r np second (rest.builds second two))
    · subst second
      exact absurd two (clash q np first (rest.builds first one))
    · exact table.alone q r np (rest.builds first one) (rest.builds second two)

theorem Table.keep (table : Table state pc) (rest : Rest p pc pc')
    (here : ∀ np, builds (pc' p) = some np → builds (pc p) = some np)
    (alive : idle (pc' p) = false → Live (state' p))
    (others : ∀ q, state' q = state q ∨ Live (state q) ∧ Live (state' q))
    (started : ∀ q, pc' q ≠ pc q → q ≠ p → Live (state' q)) : Table state' pc' := by
  have filled : ∀ np, state np = .USED → state' np = .USED := by
    intro np used
    rcases others np with same | ⟨before, -⟩
    · rwa [same]
    · simp [used, Live] at before
  refine table.step rest (fun q awake => ?_)
    (fun np found => ⟨filled np (table.used p np (here np found)), .inl (here np found)⟩)
    fun np used _ => filled np used
  by_cases same : q = p
  · subst same
    exact alive awake
  · by_cases still : pc' q = pc q
    · rw [still] at awake
      rcases others q with kept | ⟨-, after⟩
      · rw [kept]
        exact table.live q awake
      · exact after
    · exact started q still same

end Table

/-! ### Instructions of the process table -/

section Stmt

variable {state : Fin n → Procstate} {data : Data n} {input : Lifecycle.Input}
  {m : Lifecycle.Point n} {instr : KernelInstr n}

theorem embed_others (stmt : Stmt initproc p state data.table input m instr)
    (pc : Fin n → WaitPc n) (q : Fin n) :
    (embed data instr).others pc q = pc q ∨
      (embed data instr).others pc q = .yield .off user ∧ instr.state state q = .RUNNABLE ∧
        m.builds = some q := by
  cases stmt with
  | spawn kind np pid =>
      by_cases same : q = np
      · subst same
        exact .inr ⟨by simp [embed, Instr.others, user], by simp [Instr.state], rfl⟩
      · exact .inl (by simp [embed, Instr.others, same])
  | _ => exact .inl rfl

theorem stmt_state (stmt : Stmt initproc p state data.table input m instr)
    (used : ∀ np, m.builds = some np → state np = .USED) (q : Fin n) :
    instr.state state q = state q ∨ Live (instr.state state q) ∨ ¬ Live (state q) ∨
      q = p ∧ idle (embed data instr).next = true := by
  cases stmt with
  | allocproc kind np unused =>
      by_cases same : q = np
      · subst same
        exact .inr (.inr (.inl (by simp [unused, Live])))
      · exact .inl (by simp [Instr.state, same])
  | abandon kind np =>
      by_cases same : q = np
      · subst same
        exact .inr (.inr (.inl (by simp [used q rfl, Live])))
      · exact .inl (by simp [Instr.state, same])
  | reap call pp dead =>
      by_cases same : q = pp
      · subst same
        exact .inr (.inr (.inl (by simp [dead, Live])))
      · exact .inl (by simp [Instr.state, same])
  | spawn kind np pid | postWake pid signum np =>
      by_cases same : q = np
      · subst same
        exact .inr (.inl (by simp [Instr.state, Live]))
      · exact .inl (by simp [Instr.state, same])
  | zombie status parent =>
      by_cases same : q = p
      · exact .inr (.inr (.inr ⟨same, rfl⟩))
      · exact .inl (by simp [Instr.state, same])
  | _ => exact .inl rfl

theorem stmt_idle (stmt : Stmt initproc p state data.table input m instr)
    (gone : m.zombie = true) : idle (embed data instr).next = true := by
  cases stmt <;> first | rfl | simp [Lifecycle.Point.zombie] at gone

theorem stmt_builds (stmt : Stmt initproc p state data.table input m instr)
    (used : ∀ np, m.builds = some np → state np = .USED) {np : Fin n}
    (found : builds (embed data instr).next = some np) :
    instr.state state np = .USED ∧ (m.builds = some np ∨ state np = .UNUSED) := by
  cases stmt with
  | allocproc kind q unused =>
      obtain rfl : q = np := Option.some.inj found
      exact ⟨by simp [Instr.state], .inr unused⟩
  | mark kind q | forkUnlock kind q | forkWaitLock kind q pid | adopt kind q pid
  | forkWaitUnlock kind q pid | forkLock kind q pid =>
      obtain rfl : q = np := Option.some.inj found
      exact ⟨used q rfl, .inl rfl⟩
  | _ => exact absurd found.symm (Option.some_ne_none np)

theorem stmt_used (stmt : Stmt initproc p state data.table input m instr)
    (alive : Live (state p) ∨ m.zombie = true) {np : Fin n} (used : state np = .USED)
    (apart : m.builds ≠ some np) : instr.state state np = .USED := by
  cases stmt with
  | allocproc kind q unused =>
      have other : np ≠ q := by
        rintro rfl
        simp [used] at unused
      simpa [Instr.state, other] using used
  | abandon kind q | spawn kind q pid =>
      have other : np ≠ q := by
        rintro rfl
        exact apart rfl
      simpa [Instr.state, other] using used
  | reap call pp dead =>
      have other : np ≠ pp := by
        rintro rfl
        simp [used] at dead
      simpa [Instr.state, other] using used
  | postWake pid signum q sleeping =>
      have other : np ≠ q := by
        rintro rfl
        simp [used] at sleeping
      simpa [Instr.state, other] using used
  | zombie status parent =>
      have other : np ≠ p := by
        rintro rfl
        simp [used, Live, Lifecycle.Point.zombie] at alive
      simpa [Instr.state, other] using used
  | _ => exact used

end Stmt

/-! ### Steps -/

theorem flow_site {pc next : WaitPc n} (flow : (program initproc).Flow p pc next) :
    site next = site pc := by
  cases flow with
  | waking first second =>
      have waits : ∀ {chan ret} {pc : WaitPc n}, Pc.Waking chan ret pc → site pc = some ret := by
        intro chan ret pc waking
        cases pc <;> simp_all [Pc.Waking, site]
      rw [waits first, waits second]
  | _ => rfl

theorem flow_idle {pc next : WaitPc n} (flow : (program initproc).Flow p pc next) :
    idle pc = false := by
  cases flow with
  | waking first second => cases pc <;> simp_all [Pc.Waking, idle]
  | @preempt m unlocked =>
      cases m with
      | table m => cases m <;> simp_all [program, held, Lifecycle.held, idle, Lifecycle.Point.zombie]
      | _ => rfl
  | _ => rfl

theorem flow_leaving {pc next : WaitPc n} (flow : (program initproc).Flow p pc next)
    (leaves : leaving pc = true) : leaving next = true := by
  cases flow with
  | waking first second => cases pc <;> simp_all [Pc.Waking, leaving]
  | preempt | yield | resumed => exact leaves
  | _ => simp [leaving] at leaves

theorem does_rest (does : Does initproc p s t) : Rest p s.pc t.pc := by
  intro q other
  cases does with
  | table here ran data state pc =>
      rw [pc, Function.update_of_ne other]
      exact (embed_others (code_stmt ran) s.pc q).imp id And.left
  | own here does data state pc => exact .inl (by rw [pc, Function.update_of_ne other])

theorem Table.does (table : Table s.state s.pc) (does : Does initproc p s t) :
    Table t.state t.pc := by
  have rest := does_rest does
  cases does with
  | @table m input instr here ran data state pc =>
      have stmt := code_stmt ran
      have used : ∀ np, m.builds = some np → s.state np = .USED := by
        intro np found
        exact table.used p np (by simp [here, builds, site, found])
      have self : t.pc p = (embed s.data instr).next := by rw [pc, Function.update_self]
      refine table.step rest (fun q awake => ?_) (fun np found => ?_) fun np filled apart => ?_
      · rw [state]
        by_cases same : q = p
        · subst same
          rw [self] at awake
          have before : Live (s.state q) := by
            refine table.live q ?_
            rw [here]
            cases gone : m.zombie with
            | true => simp [stmt_idle stmt gone] at awake
            | false => exact gone
          rcases stmt_state stmt used q with kept | live | dead | ⟨-, gone⟩
          · rwa [kept]
          · exact live
          · exact absurd before dead
          · simp [gone] at awake
        · rw [pc, Function.update_of_ne same] at awake
          rcases embed_others stmt s.pc q with still | ⟨-, started, -⟩
          · rw [still] at awake
            rcases stmt_state stmt used q with kept | live | dead | ⟨own, -⟩
            · rw [kept]
              exact table.live q awake
            · exact live
            · exact absurd (table.live q awake) dead
            · exact absurd own same
          · rw [started]
            exact .inr (.inl rfl)
      · rw [self] at found
        rw [state]
        refine (stmt_builds stmt used found).imp id fun before => before.imp (fun mine => ?_) id
        simp [here, builds, site, mine]
      · rw [state]
        refine stmt_used stmt ?_ filled fun mine => apart (by simp [here, builds, site, mine])
        cases gone : m.zombie with
        | true => exact .inr rfl
        | false => exact .inl (table.live p (by simpa [here, idle] using gone))
  | own here own data state pc =>
      have self : ∀ np, builds (t.pc p) ≠ some np := by
        intro np found
        rw [pc, Function.update_self, own.empty] at found
        simp at found
      refine table.keep rest (fun np found => absurd found (self np)) (fun _ => ?_)
        (fun q => .inl (by rw [state])) fun q moved other => ?_
      · rw [state]
        exact table.live p (by rw [here]; exact own.alive)
      · exact absurd (by rw [pc, Function.update_of_ne other]) moved

theorem Table.internal (table : Table s.state s.pc)
    (internal : (program initproc).Internal s t p) : Table t.state t.pc := by
  obtain ⟨next, pc, flow⟩ := internal.pc
  have live : Live (s.state p) := table.live p (flow_idle flow)
  have others : ∀ q, t.state q = s.state q ∨ Live (s.state q) ∧ Live (t.state q) := by
    intro q
    by_cases same : q = p
    · subst same
      rcases internal.own with kept | ⟨after, -⟩ | after | after
      · exact .inl kept
      all_goals exact .inr ⟨live, by simp [after, Live]⟩
    · rcases internal.others q same with kept | ⟨before, after⟩
      · exact .inl kept
      · exact .inr ⟨by simp [before, Live], by simp [after, Live]⟩
  refine table.keep (p := p) (fun q other => .inl (by rw [pc, Function.update_of_ne other]))
    (fun np found => ?_) (fun _ => ?_) others fun q moved other => ?_
  · rw [pc, Function.update_self] at found
    rwa [builds, ← flow_site flow]
  · rcases others p with kept | ⟨-, after⟩
    · rwa [kept]
    · exact after
  · exact absurd (by rw [pc, Function.update_of_ne other]) moved

theorem clockintr_some (ticked : clockintr s = some t) :
    t.pc = s.pc ∧ t.data.table = s.data.table ∧
      ∀ q, t.state q = s.state q ∨ s.state q = .SLEEPING ∧ t.state q = .RUNNABLE := by
  rw [clockintr] at ticked
  split at ticked
  · obtain rfl := Option.some.inj ticked
    refine ⟨rfl, rfl, fun q => ?_⟩
    by_cases woken : s.state q = .SLEEPING ∧ s.chan q = some .ticks
    · exact .inr ⟨woken.1, by simp [woken]⟩
    · exact .inl (by simp [woken])
  · simp at ticked

theorem Table.clock (table : Table s.state s.pc) (ticked : clockintr s = some t) :
    Table t.state t.pc := by
  obtain ⟨pc, -, others⟩ := clockintr_some ticked
  rw [pc]
  refine ⟨fun q awake => ?_, fun p np found => ?_, table.alone⟩
  · rcases others q with kept | ⟨-, after⟩
    · rw [kept]
      exact table.live q awake
    · simp [after, Live]
  · have before := table.used p np found
    rcases others np with kept | ⟨asleep, -⟩
    · rwa [kept]
    · simp [before] at asleep

/-! ### Who is killed -/

section Killed

variable {state : Fin n → Procstate} {data : Data n} {input : Lifecycle.Input}
  {m : Lifecycle.Point n} {instr : KernelInstr n}

theorem stmt_killed (stmt : Stmt initproc p state data.table input m instr)
    (used : ∀ np, m.builds = some np → state np = .USED) {q : Fin n} (live : Live (state q))
    (set : data.table.killed q = true) : (instr.data data.table).killed q = true := by
  cases stmt with
  | abandon kind np =>
      have other : q ≠ np := by
        rintro rfl
        simp [used q rfl, Live] at live
      simpa [Instr.data, Lifecycle.Data.freeproc, other] using set
  | reap call pp dead =>
      have other : q ≠ pp := by
        rintro rfl
        simp [dead, Live] at live
      simpa [Instr.data, Lifecycle.Data.reap, Lifecycle.Data.freeproc, other] using set
  | post pid signum r | postWake pid signum r =>
      simp only [Instr.data, Lifecycle.Data.post]
      split
      · by_cases same : q = r
        · subst same
          simp
        · simpa [same] using set
      · exact set
  | mark kind np => cases kind <;> exact set
  | obtained kind pid => cases kind <;> exact set
  | joined call pid => cases call <;> exact set
  | _ => exact set

theorem code_killed (ran : Lifecycle.code initproc p m state data.table input = some instr)
    {q : Fin n} (set : (instr.data data.table).killed q = true) :
    data.table.killed q = true ∨
      ∃ pid, m = .killTest pid SIGKILL q ∧ data.table.pid q = pid := by
  have posted : ∀ pid signum r, data.table.pid r = pid →
      (data.table.post r signum).killed q = true → data.table.killed q = true ∨
        ∃ other, Lifecycle.Point.killTest pid signum r = .killTest other SIGKILL q ∧
          data.table.pid q = other := by
    intro pid signum r named set
    simp only [Lifecycle.Data.post] at set
    split at set
    · rename_i fatal
      by_cases same : q = r
      · subst same
        exact .inr ⟨pid, by rw [fatal], named⟩
      · exact .inl (by simpa [same] using set)
    · exact .inl set
  cases code_stmt ran with
  | post pid signum r =>
      by_cases named : data.table.pid r = pid
      · exact posted pid signum r named set
      · simp [Lifecycle.code, Lifecycle.forkCode, Lifecycle.exitCode, Lifecycle.waitCode,
          Lifecycle.killCode, named] at ran
  | postWake pid signum r sleeping =>
      by_cases named : data.table.pid r = pid
      · exact posted pid signum r named set
      · simp [Lifecycle.code, Lifecycle.forkCode, Lifecycle.exitCode, Lifecycle.waitCode,
          Lifecycle.killCode, named] at ran
  | abandon kind np =>
      by_cases same : q = np
      · simp [Instr.data, Lifecycle.Data.freeproc, same] at set
      · exact .inl (by simpa [Instr.data, Lifecycle.Data.freeproc, same] using set)
  | reap call pp dead =>
      by_cases same : q = pp
      · simp [Instr.data, Lifecycle.Data.reap, Lifecycle.Data.freeproc, same] at set
      · exact .inl (by simpa [Instr.data, Lifecycle.Data.reap, Lifecycle.Data.freeproc, same]
          using set)
  | mark kind np => cases kind <;> exact .inl set
  | obtained kind pid => cases kind <;> exact .inl set
  | joined call pid => cases call <;> exact .inl set
  | _ => exact .inl set

theorem embed_awaits (stmt : Stmt initproc p state data.table input m instr) :
    awaits (embed data instr).next = false := by
  cases stmt <;> rfl

theorem stmt_leaving (stmt : Stmt initproc p state data.table input m instr)
    (killed : data.table.killed p = true) (leaves : Point.leaving (.table m) = true) :
    leaving (embed data instr).next = true ∨ (embed data instr).next = .main user := by
  cases stmt <;> first
    | exact .inr rfl
    | exact .inl rfl
    | exact .inl killed
    | simp [Point.leaving] at leaves

theorem stmt_head (stmt : Stmt initproc p state data.table input m instr)
    (head : Point.head (.table m) = true) : leaving (embed data instr).next = true := by
  cases stmt <;> first | rfl | simp [Point.head] at head

theorem stmt_decided (stmt : Stmt initproc p state data.table input m instr)
    (next : decided (embed data instr).next = true) :
    Point.decided (.table m) = true ∨
      (∃ call, m = .waitKilled call) ∧ data.table.killed p = false := by
  cases stmt with
  | waitKilled call =>
      refine .inr ⟨⟨call, rfl⟩, ?_⟩
      cases set : data.table.killed p <;>
        simp [embed, Instr.next, decided, Point.decided, set] at next ⊢
  | _ => first | exact .inl rfl | simp [embed, Instr.next, decided, Point.decided] at next

theorem stmt_sleeping (stmt : Stmt initproc p state data.table input m instr) {q : Fin n}
    (sleeping : instr.state state q = .SLEEPING) : state q = .SLEEPING := by
  cases stmt with
  | allocproc kind np | abandon kind np | spawn kind np | reap call np | postWake pid signum np
  | zombie =>
      simp only [Instr.state, Function.update_apply] at sleeping
      split at sleeping
      · simp at sleeping
      · exact sleeping
  | _ => exact sleeping

theorem kill_wakes {pid signum : Int} {q : Fin n}
    (ran : Lifecycle.code initproc p (.killTest pid signum q) state data.table input = some instr)
    (named : data.table.pid q = pid) : instr.state state q ≠ .SLEEPING := by
  by_cases sleeping : state q = .SLEEPING
  · obtain rfl : _ = instr := by
      simpa [Lifecycle.code, Lifecycle.forkCode, Lifecycle.exitCode, Lifecycle.waitCode,
        Lifecycle.killCode, named, sleeping] using ran
    simp [Instr.state]
  · exact fun still => sleeping (stmt_sleeping (code_stmt ran) still)

end Killed

/-! ### Runs that spare the waiters -/

/-- The process is decided, or asleep on something else than `&ticks`. -/
def Stays (state : Procstate) (pc : WaitPc n) : Prop :=
  decided pc = true ∨
    state = .SLEEPING ∧ ∃ chan lk ret, pc = .sleep .asleep chan lk ret ∧ chan ≠ .ticks

theorem flow_decided {pc next : WaitPc n} (flow : (program initproc).Flow p pc next)
    (after : decided next = true) : decided pc = true := by
  cases flow with
  | @sleep stage later chan lk ret follows =>
      cases stage <;> simp only [SleepStage.next, Option.some.injEq, reduceCtorEq] at follows <;>
        subst later <;> simp_all [decided, falls]
  | waking first second =>
      have waits : ∀ {chan ret} {pc : WaitPc n}, Pc.Waking chan ret pc →
          decided pc = ret.decided := by
        intro chan ret pc waking
        cases pc <;> simp_all [Pc.Waking, decided]
      rwa [waits first, ← waits second]
  | slept | woken | preempt | yield | resumed => simp_all [decided]

theorem flow_stays {pc next : WaitPc n} {state later : Procstate}
    (flow : (program initproc).Flow p pc next) (stays : Stays later next) : Stays state pc := by
  rcases stays with after | ⟨-, chan, lk, ret, rfl, other⟩
  · exact .inl (flow_decided flow after)
  · left
    cases flow with
    | @sleep stage later chan lk ret follows =>
        cases stage <;> simp_all [SleepStage.next, decided, falls]
    | waking first second => simp [Pc.Waking] at second

theorem Stays.mono {state later : Procstate} {pc : WaitPc n} (stays : Stays later pc)
    (sleeping : later = .SLEEPING → state = .SLEEPING) : Stays state pc :=
  stays.imp id fun asleep => ⟨sleeping asleep.1, asleep.2⟩

structure Steady (initproc : Fin n) (s : Watched n) : Prop where
  threads : (policy initproc).Inv s.kernel
  table : Table s.kernel.state s.kernel.pc
  stays : ∀ p, Stays (s.kernel.state p) (s.kernel.pc p) → s.kernel.data.table.killed p = false
  spared : ∀ p, awaits (s.kernel.pc p) = true → s.kernel.data.table.killed p = false
  doomed : ∀ p, s.doomed p = true →
    leaving (s.kernel.pc p) = true ∧ s.kernel.data.table.killed p = true

theorem process_cases {event : Event Input}
    (taken : (program initproc).step s (p, event) = some t) :
    (Does initproc p s t ∧ ∃ input, event = .run input) ∨
      (program initproc).Internal s t p ∧ looks s p (.process p event) = false := by
  cases event with
  | run input =>
      cases here : s.pc p with
      | main m =>
          simp only [Program.step, Program.run, here] at taken
          obtain ⟨instr, ran, performed⟩ := Option.bind_eq_some_iff.mp taken
          exact .inl ⟨does_of_perform here ran performed, input, rfl⟩
      | _ =>
          rcases Program.step_cases taken with ⟨m, -, -, main, -⟩ | internal
          · simp [here] at main
          · exact .inr ⟨internal, by simp [looks, here]⟩
  | _ =>
      rcases Program.step_cases taken with ⟨_, _, _, _, run, _⟩ | internal
      · simp at run
      · exact .inr ⟨internal, rfl⟩

theorem watch_other {doomed : Fin n → Bool} {event : Event Input} {q : Fin n} (other : q ≠ p) :
    watch s t doomed (.process p event) q = (doomed q && !atUser (t.pc q)) := by
  cases event <;> simp [watch, looks, other.symm]

theorem idle_of_leaving {pc : WaitPc n} (leaves : leaving pc = true) : idle pc = false := by
  cases pc with
  | main m =>
      cases m with
      | table m => cases m <;> simp_all [leaving, Point.leaving, idle, Lifecycle.Point.zombie]
      | _ => rfl
  | dead => simp [leaving] at leaves
  | _ => rfl

theorem started_used (table : Table s.state s.pc) (does : Does initproc p s t) {q : Fin n}
    (other : q ≠ p) : t.pc q = s.pc q ∨ t.pc q = .yield .off user ∧ s.state q = .USED := by
  cases does with
  | table here ran data state pc =>
      rw [pc, Function.update_of_ne other]
      refine (embed_others (code_stmt ran) s.pc q).imp id fun started => ⟨started.1, ?_⟩
      exact table.used p q (by simp [here, builds, site, started.2.2])
  | own here does data state pc => exact .inl (by rw [pc, Function.update_of_ne other])

theorem does_killed (table : Table s.state s.pc) (does : Does initproc p s t) {q : Fin n}
    (live : Live (s.state q)) (set : s.data.table.killed q = true) :
    t.data.table.killed q = true := by
  cases does with
  | table here ran data state pc =>
      rw [data]
      refine stmt_killed (code_stmt ran) (fun np found => ?_) live set
      exact table.used p np (by simp [here, builds, site, found])
  | own here does data state pc => rwa [data]

theorem Steady.spares {s : Watched n} {event : Event Input} (steady : Steady initproc s)
    (does : Does initproc p s.kernel t) (spares : Spares s (.process p event))
    (ran : ∃ input, event = .run input) {q : Fin n} (waits : awaits (t.pc q) = true) :
    t.data.table.killed q = false := by
  obtain ⟨input, rfl⟩ := ran
  by_contra set
  rw [Bool.not_eq_false] at set
  by_cases same : q = p
  · subst same
    cases does with
    | table here ran data state pc =>
        rw [pc, Function.update_self, embed_awaits (code_stmt ran)] at waits
        simp at waits
    | @own m instr here own data state pc =>
        rw [pc, Function.update_self] at waits
        rw [data] at set
        rcases own.awaits waits with before | unset
        · simp [steady.spared q (by rw [here]; exact before)] at set
        · simp [unset] at set
  · rcases started_used steady.table does same with still | ⟨started, -⟩
    · have before : awaits (s.kernel.pc q) = true := by rwa [← still]
      have unset := steady.spared q before
      cases does with
      | table here ran data state pc =>
          rw [data] at set
          rcases code_killed ran set with old | ⟨pid, rfl, named⟩
          · simp [unset] at old
          · have untouched := spares q (by simp [kills, here, named])
            simp [untouched] at before
      | own here own data state pc => simp [data, unset] at set
    · simp [started, awaits, site, user, Point.awaits] at waits

theorem Steady.leaves {s : Watched n} {event : Event Input} (steady : Steady initproc s)
    (does : Does initproc p s.kernel t)
    (doomed : watch s.kernel t s.doomed (.process p event) p = true) :
    s.kernel.data.table.killed p = true ∧ leaving (t.pc p) = true := by
  rw [watch] at doomed
  split at doomed
  · rename_i looked
    refine ⟨doomed, ?_⟩
    cases does with
    | table here ran data state pc =>
        rw [pc, Function.update_self]
        refine stmt_head (code_stmt ran) ?_
        cases event <;> simp_all [looks]
    | @own m instr here own data state pc =>
        have head : m.head = true := by
          cases event <;> simp_all [looks]
        rw [pc, Function.update_self]
        rcases own.head doomed head with leaves | waits
        · exact leaves
        · simp [steady.spared p (by rw [here]; exact waits)] at doomed
  · rw [Bool.and_eq_true, Bool.not_eq_true'] at doomed
    obtain ⟨before, inside⟩ := doomed
    obtain ⟨leaves, killed⟩ := steady.doomed p before
    refine ⟨killed, ?_⟩
    cases does with
    | table here ran data state pc =>
        rw [here] at leaves
        rw [pc, Function.update_self] at inside ⊢
        rcases stmt_leaving (code_stmt ran) killed leaves with still | home
        · exact still
        · simp [home, atUser, user] at inside
    | own here own data state pc =>
        rw [here] at leaves
        rw [pc, Function.update_self] at inside ⊢
        rcases own.leaves killed leaves with still | home
        · exact still
        · simp [home, atUser, user] at inside

/-- Nobody is killed who will sleep, or sleeps, in `kwait` or `kjoin`. -/
theorem Steady.staying {s : Watched n} {event : Event Input} (steady : Steady initproc s)
    (does : Does initproc p s.kernel t) (spares : Spares s (.process p event))
    (ran : ∃ input, event = .run input) {q : Fin n} (stays : Stays (t.state q) (t.pc q)) :
    t.data.table.killed q = false := by
  obtain ⟨input, rfl⟩ := ran
  by_contra set
  rw [Bool.not_eq_false] at set
  by_cases same : q = p
  · subst same
    cases does with
    | @table m input instr here ran data state pc =>
        rw [pc, Function.update_self] at stays
        rw [data] at set
        rcases stays with next | ⟨-, chan, lk, ret, asleep, -⟩
        · have unset : s.kernel.data.table.killed q = false ∧ ∀ pid, m ≠ .killTest pid SIGKILL q := by
            rcases stmt_decided (code_stmt ran) next with before | ⟨⟨call, rfl⟩, unset⟩
            · refine ⟨steady.stays q (.inl (by rw [here]; exact before)), ?_⟩
              rintro pid rfl
              simp [Point.decided] at before
            · exact ⟨unset, by simp⟩
          rcases code_killed ran set with old | ⟨pid, named, -⟩
          · simp [unset.1] at old
          · exact unset.2 pid named
        · cases instr <;> simp [embed, Instr.next] at asleep
    | @own m instr here own data state pc =>
        rw [pc, Function.update_self] at stays
        rw [data] at set
        rcases stays with next | ⟨-, chan, lk, ret, asleep, -⟩
        · simp [steady.spared q (by rw [here]; exact own.decided next)] at set
        · cases instr <;> simp [Instr.next] at asleep
  · rcases started_used steady.table does same with still | ⟨started, -⟩
    · rw [still] at stays
      cases does with
      | table here ran data state pc =>
          rw [data] at set
          rw [state] at stays
          have before := stays.mono (stmt_sleeping (code_stmt ran))
          have unset := steady.stays q before
          rcases code_killed ran set with old | ⟨pid, rfl, named⟩
          · simp [unset] at old
          · have untouched := spares q (by simp [kills, here, named])
            rcases stays with decided | ⟨sleeping, -⟩
            · simp [untouched.2] at decided
            · exact kill_wakes ran named sleeping
      | own here own data state pc =>
          rw [state] at stays
          simp [data, steady.stays q stays] at set
    · rw [started] at stays
      rcases stays with decided | ⟨-, chan, lk, ret, asleep, -⟩
      · simp [Blocking.decided, Point.decided, user] at decided
      · simp at asleep

theorem Steady.allows {s : Watched n} (steady : Steady initproc s) (m : Point n) (input : Input)
    (instr : WaitInstr n) (here : s.kernel.pc p = .main m)
    (ran : (program initproc).code p m s.kernel.state s.kernel.data input = some instr) :
    (policy initproc).Allowed s.kernel p m instr := by
  refine allowed steady.threads (fun np found => ?_) here ran
  refine steady.table.used p np ?_
  cases m <;> simp_all [Point.builds, builds, site]

theorem Steady.does {s : Watched n} {event : Event Input} (steady : Steady initproc s)
    (threads : (policy initproc).Inv t) (does : Does initproc p s.kernel t)
    (spares : Spares s (.process p event)) (ran : ∃ input, event = .run input) :
    Steady initproc { kernel := t, doomed := watch s.kernel t s.doomed (.process p event) } := by
  refine ⟨threads, steady.table.does does, fun q => steady.staying does spares ran,
    fun q => steady.spares does spares ran, fun q doomed => ?_⟩
  change watch s.kernel t s.doomed (.process p event) q = true at doomed
  by_cases same : q = p
  · subst same
    obtain ⟨killed, leaves⟩ := steady.leaves does doomed
    refine ⟨leaves, does_killed steady.table does ?_ killed⟩
    refine steady.table.live q ?_
    cases does with
    | @table m input instr here ran data state pc =>
        rw [here]
        cases gone : m.zombie with
        | true =>
            rw [pc, Function.update_self] at leaves
            have idles := stmt_idle (code_stmt ran) gone
            simp [idle_of_leaving leaves] at idles
        | false => exact gone
    | own here own data state pc =>
        rw [here]
        exact own.alive
  · rw [watch_other same, Bool.and_eq_true] at doomed
    obtain ⟨leaves, killed⟩ := steady.doomed q doomed.1
    have live := steady.table.live q (idle_of_leaving leaves)
    refine ⟨?_, does_killed steady.table does live killed⟩
    rcases started_used steady.table does same with still | ⟨-, used⟩
    · rwa [still]
    · simp [used, Live] at live

theorem Steady.internal {s : Watched n} {event : Event Input} (steady : Steady initproc s)
    (threads : (policy initproc).Inv t) (internal : (program initproc).Internal s.kernel t p)
    (blind : looks s.kernel p (.process p event) = false) :
    Steady initproc { kernel := t, doomed := watch s.kernel t s.doomed (.process p event) } := by
  obtain ⟨next, pc, flow⟩ := internal.pc
  refine ⟨threads, steady.table.internal internal, fun q stays => ?_, fun q waits => ?_,
    fun q doomed => ?_⟩
  · rw [internal.data]
    refine steady.stays q ?_
    by_cases same : q = p
    · subst same
      rw [pc, Function.update_self] at stays
      exact flow_stays flow stays
    · rw [pc, Function.update_of_ne same] at stays
      refine stays.mono fun sleeping => ?_
      rcases internal.others q same with kept | ⟨before, -⟩
      · rwa [← kept]
      · exact before
  · rw [internal.data]
    refine steady.spared q ?_
    by_cases same : q = p
    · subst same
      rw [pc, Function.update_self, awaits, flow_site flow] at waits
      exact waits
    · rwa [pc, Function.update_of_ne same] at waits
  · change watch s.kernel t s.doomed (.process p event) q = true at doomed
    rw [internal.data]
    by_cases same : q = p
    · subst same
      rw [watch, if_neg (by simp [blind]), Bool.and_eq_true] at doomed
      obtain ⟨leaves, killed⟩ := steady.doomed q doomed.1
      refine ⟨?_, killed⟩
      rw [pc, Function.update_self]
      exact flow_leaving flow leaves
    · rw [watch_other same, Bool.and_eq_true] at doomed
      rw [pc, Function.update_of_ne same]
      exact steady.doomed q doomed.1

theorem Steady.step {s after : Watched n} {move : Move n} (steady : Steady initproc s)
    (spares : Spares s move) (taken : s.step initproc move = some after) :
    Steady initproc after := by
  obtain ⟨t, stepped, rfl⟩ := Option.map_eq_some_iff.mp taken
  cases move with
  | process p event =>
      have threads := steady.threads.step
        (fun m input instr here _ ran => steady.allows m input instr here ran) stepped
      rcases process_cases stepped with ⟨does, ran⟩ | ⟨internal, blind⟩
      · exact steady.does threads does spares ran
      · exact steady.internal threads internal blind
  | clock =>
      obtain ⟨pc, data, states⟩ := clockintr_some stepped
      refine ⟨clock_inv steady.threads stepped, steady.table.clock stepped, fun q stays => ?_,
        fun q waits => ?_, fun q doomed => ?_⟩
      · rw [pc] at stays
        rw [data]
        refine steady.stays q (stays.mono fun sleeping => ?_)
        rcases states q with kept | ⟨-, woken⟩
        · rwa [← kept]
        · simp [woken] at sleeping
      · rw [pc] at waits
        rw [data]
        exact steady.spared q waits
      · change watch s.kernel t s.doomed .clock q = true at doomed
        rw [watch, if_neg (by simp [looks]), Bool.and_eq_true] at doomed
        rw [pc, data]
        exact steady.doomed q doomed.1

theorem boot_steady (initproc : Fin n) :
    Steady initproc { kernel := boot initproc, doomed := fun _ => false } := by
  have nobody : ∀ p np, builds ((boot initproc).pc p) ≠ some np := by
    intro p np
    by_cases same : p = initproc <;>
      simp [boot, same, builds, site, user, Lifecycle.Point.builds]
  refine ⟨boot_inv initproc, ⟨fun p awake => ?_, fun p np found => absurd found (nobody p np),
    fun p q np found => absurd found (nobody p np)⟩, fun p _ => rfl, fun p _ => rfl,
    fun p doomed => ?_⟩
  · by_cases same : p = initproc
    · simp [boot, Lifecycle.boot, same, Live]
    · simp [boot, same, idle] at awake
  · simp at doomed

theorem leaves_of_steady {s : Watched n} (steady : Steady initproc s) : Leaves s := by
  constructor
  · intro p doomed
    obtain ⟨leaves, -⟩ := steady.doomed p doomed
    cases here : s.kernel.pc p with
    | main m => cases m <;> simp_all [leaving, Point.leaving, sleeps, takes]
    | sleep => simp [here, leaving] at leaves
    | _ => exact ⟨rfl, rfl⟩
  · intro p killed sleeping
    have fits := steady.threads.fits p
    have channel := steady.threads.channel p
    have stays := steady.stays p
    rw [sleeping] at fits stays
    cases here : s.kernel.pc p with
    | sleep stage chan lk ret =>
        rw [here] at fits channel stays
        cases stage with
        | sched =>
            by_cases ticks : chan = .ticks
            · exact ticks ▸ channel
            · simp [stays (.inl (by simp [decided, falls, ticks]))] at killed
        | asleep =>
            by_cases ticks : chan = .ticks
            · exact ticks ▸ channel
            · simp [stays (.inr ⟨rfl, chan, lk, ret, rfl, ticks⟩)] at killed
        | _ => simp [Pc.Fits] at fits
    | main m =>
        rw [here] at fits
        simp only [Pc.Fits] at fits
        split at fits <;> simp at fits
    | yield stage m => cases stage <;> simp [here, Pc.Fits] at fits
    | _ => simp [here, Pc.Fits] at fits

/-- As long as SIGKILL spares whoever is inside `sys_sem_wait` or about to sleep in `kwait` or
`kjoin`, whoever is killed when it looks at the condition of its loop leaves the call without going
to sleep and without a permit, and no killed process is asleep but until the next tick. -/
theorem killed_leave_waits {initproc : Fin n} {s : Watched n}
    (reachable : ((system initproc).restrict Spares).Reachable s) : Leaves s := by
  have steady : Steady initproc s := by
    induction reachable with
    | start initial =>
        subst initial
        exact boot_steady initproc
    | step _ taken ih => exact ih.step taken.1 taken.2
  exact leaves_of_steady steady

/-- The other direction, for one step: a killed process that executes the head of the loop of
`sys_sem_wait` goes to sleep or is let through. -/
theorem killed_waiter_stays {initproc p : Fin n} {s after : Watched n} {id : SemId}
    {input : Input} (here : s.kernel.pc p = .main (.semTest id))
    (killed : s.kernel.data.table.killed p = true)
    (taken : s.step initproc (.process p (.run input)) = some after) : ¬ Leaves after := by
  obtain ⟨t, stepped, rfl⟩ := Option.map_eq_some_iff.mp taken
  have looked : looks s.kernel p (.process p (.run input)) = true := by
    simp [looks, here, Point.head]
  intro leaves
  have doomed : watch s.kernel t s.doomed (.process p (.run input)) p = true := by
    rw [watch, if_pos looked]
    exact killed
  obtain ⟨awake, refused⟩ := leaves.awake p doomed
  simp only [step, Program.step, Program.run, here] at stepped
  obtain ⟨instr, ran, performed⟩ := Option.bind_eq_some_iff.mp stepped
  obtain ⟨-, -, pc⟩ := perform_effect performed
  rw [pc, Function.update_self] at awake refused
  by_cases empty : s.kernel.data.count id ≤ 0
  · obtain rfl : _ = instr := by simpa [program, code, trapCode, semCode, empty] using ran
    simp [Instr.next, sleeps] at awake
  · obtain rfl : _ = instr := by simpa [program, code, trapCode, semCode, empty] using ran
    simp [Instr.next, takes] at refused

/-! ### Two runs -/

def runs (p : Fin n) (input : Input) (steps : ℕ) : List (Move n) :=
  .process p (.run input) :: List.replicate steps (.process p (.run (.table .succeed)))

def forked (init child : Fin n) : List (Move n) :=
  [.process init .dispatch, .process init (.run (.table .succeed))] ++
    runs init (.table (.call (.spawn .fork))) 14 ++
    [.process child .dispatch, .process child (.run (.table .succeed))]

/-- The child sleeps in a call, init sends it SIGKILL, and the child looks again. -/
def killedAsleep (init child : Fin n) (input : Input) (steps : ℕ) : List (Move n) :=
  runs child input steps ++ runs init (.table (.call (.kill 2 9))) 6 ++
    .process child .dispatch :: List.replicate 4 (.process child (.run (.table .succeed)))

def fresh (init : Fin n) : Watched n := { kernel := boot init, doomed := fun _ => false }

theorem fresh_reachable (init : Fin n) : (system init).Reachable (fresh init) := .start rfl

/-- The child looks at the condition of `sys_pause` after it was killed; and it is killed before
it falls asleep there. -/
theorem killed_leave_waits_paused : ∃ looking asleep : Watched 2,
    looking.doomed 1 = true ∧ Leaves looking ∧
      (asleep.kernel.data.table.killed 1 = true ∧ asleep.kernel.state 1 = .SLEEPING) ∧
        Leaves asleep := by
  have sound : ∀ before move after,
      System.guard Spares (Watched.step (0 : Fin 2)) before move = some after →
      ((system 0).restrict Spares).step before move after :=
    System.guard_sound fun _ _ _ taken => taken
  have looks : (System.execute (System.guard Spares (Watched.step 0)) (fresh (0 : Fin 2))
      (forked 0 1 ++ killedAsleep 0 1 (.pause 5) 12)).map (fun s => s.doomed 1) = some true := by
    decide +kernel
  have falls : (System.execute (System.guard Spares (Watched.step 0)) (fresh (0 : Fin 2))
      (forked 0 1 ++ runs 1 (.pause 5) 6 ++ runs 0 (.table (.call (.kill 2 9))) 6 ++
        List.replicate 6 (.process 1 (.run (.table .succeed))))).map
      (fun s => (s.kernel.data.table.killed 1, s.kernel.state 1)) = some (true, .SLEEPING) := by
    decide +kernel
  obtain ⟨looking, first, doomed⟩ := System.Run.existsOfExecute sound looks
  obtain ⟨asleep, second, killed⟩ := System.Run.existsOfExecute sound falls
  simp only [Prod.mk.injEq] at killed
  exact ⟨looking, asleep, doomed, killed_leave_waits (first.reachable (.start rfl)), killed,
    killed_leave_waits (second.reachable (.start rfl))⟩

/-- init holds the permit and the child waits for it. Killed, the child goes to sleep again; and
when init posts after that, it takes the permit. A child that is killed between `killed` and
`sleep` in `kwait` is asleep until its own child exits. -/
theorem killed_waiter_blocks : (∃ asleep taking : Watched 2,
    (system 0).Reachable asleep ∧ asleep.doomed 1 = true ∧
      asleep.kernel.state 1 = .SLEEPING ∧ ¬ Leaves asleep ∧
    (system 0).Reachable taking ∧ taking.doomed 1 = true ∧ takes (taking.kernel.pc 1) = true ∧
      ¬ Leaves taking) ∧
    ∃ waiting : Watched 3, (system 0).Reachable waiting ∧
      waiting.kernel.data.table.killed 1 = true ∧ waiting.kernel.state 1 = .SLEEPING ∧
      waiting.kernel.chan 1 = some (.proc 1) ∧ ¬ Leaves waiting := by
  have sound : ∀ {n : ℕ} (init : Fin n) before move after, before.step init move = some after →
      (system init).step before move after := fun _ _ _ _ taken => taken
  have slept : (System.execute (Watched.step 0) (fresh (0 : Fin 2))
      (forked 0 1 ++ runs 0 (.semWait 0) 8 ++ killedAsleep 0 1 (.semWait 0) 11 ++
        List.replicate 5 (.process 1 (.run (.table .succeed))))).map
      (fun s => (s.doomed 1, s.kernel.state 1, sleeps (s.kernel.pc 1))) =
      some (true, .SLEEPING, true) := by decide +kernel
  have took : (System.execute (Watched.step 0) (fresh (0 : Fin 2))
      (forked 0 1 ++ runs 0 (.semWait 0) 8 ++ killedAsleep 0 1 (.semWait 0) 11 ++
        List.replicate 5 (.process 1 (.run (.table .succeed))) ++ runs 0 (.semPost 0) 9 ++
        .process 1 .dispatch :: List.replicate 4 (.process 1 (.run (.table .succeed))))).map
      (fun s => (s.doomed 1, takes (s.kernel.pc 1))) = some (true, true) := by decide +kernel
  have waited : (System.execute (Watched.step 0) (fresh (0 : Fin 3))
      (forked 0 1 ++ runs 1 (.table (.call (.spawn .fork))) 17 ++
        runs 1 (.table (.call (.wait .wait))) 10 ++ runs 0 (.table (.call (.kill 2 9))) 6 ++
        List.replicate 6 (.process 1 (.run (.table .succeed))))).map
      (fun s => (s.kernel.data.table.killed 1, s.kernel.state 1, s.kernel.chan 1)) =
      some (true, .SLEEPING, some (.proc 1)) := by decide +kernel
  obtain ⟨asleep, first, seen⟩ := System.Run.existsOfExecute (sound 0) slept
  obtain ⟨taking, second, permit⟩ := System.Run.existsOfExecute (sound 0) took
  obtain ⟨waiting, third, held⟩ := System.Run.existsOfExecute (sound 0) waited
  simp only [Prod.mk.injEq] at seen permit held
  refine ⟨⟨asleep, taking, first.reachable (fresh_reachable 0), seen.1, seen.2.1,
    fun leaves => ?_, second.reachable (fresh_reachable 0), permit.1, permit.2, fun leaves => ?_⟩,
    waiting, third.reachable (fresh_reachable 0), held.1, held.2.1, held.2.2, fun leaves => ?_⟩
  · exact absurd (leaves.awake 1 seen.1).1 (by simp [seen.2.2])
  · exact absurd (leaves.awake 1 permit.1).2 (by simp [permit.2])
  · exact absurd (leaves.ticking 1 held.1 held.2.1) (by simp [held.2.2])

end OsLab.Kernel.Blocking
