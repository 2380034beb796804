import OsLab.Kernel.LifecycleInvariant

/-!
`kwait` and `kjoin` against `kexit`: a child is reaped once, by its parent, and no
parent sleeps through the exit it waits for.
-/

namespace OsLab.Kernel.Lifecycle

open OsLab.Library OsLab.Kernel.Threads

variable {n : ℕ} {initproc p : Fin n} {s t : KernelState n}

/-! ### What a process knows at each point -/

def Point.matched : Point n → Option (WaitCall × Fin n)
  | .waitTest call pp | .waitNext call pp | .waitCopyFail call pp => some (call, pp)
  | _ => none

/-- The slots a waiting call has found not to hold a ZOMBIE of its own. -/
def Point.scanned : Point n → Option (WaitCall × ℕ)
  | .waitScan call i _ => some (call, i)
  | .waitTest call pp => some (call, pp.val)
  | .waitNext call pp => some (call, pp.val + 1)
  | .waitCheck call _ | .waitKilled call | .waitKilledDone call _ | .waitSleep call =>
      some (call, n)
  | _ => none

def Point.kidless : Point n → Option (WaitCall × ℕ)
  | .waitScan call i false => some (call, i)
  | .waitCheck call false | .waitFail call .noKids => some (call, n)
  | _ => none

def Point.woken : Point n → Option (Option (Fin n))
  | .exitAcquire _ parent | .exitZombie _ parent => some parent
  | _ => none

def Point.sawKilled : Point n → Bool
  | .waitKilledDone _ killed => killed
  | .waitFail _ .killed => true
  | _ => false

def Point.scanning : Point n → Option WaitCall
  | .waitScan call _ _ => some call
  | _ => none

def sleeper : KernelPc n → Option WaitCall
  | .sleep _ _ _ ret => ret.scanning
  | _ => none

def matched : KernelPc n → Option (WaitCall × Fin n)
  | .main m => m.matched
  | _ => none

/-- Inside `sleep` the scan that led there still stands until `wait_lock` is released. -/
def scanned : KernelPc n → Option (WaitCall × ℕ)
  | .main m => m.scanned
  | .sleep .acquire _ _ (.waitScan call _ _) | .sleep .release _ _ (.waitScan call _ _) =>
      some (call, n)
  | _ => none

def kidless : KernelPc n → Option (WaitCall × ℕ)
  | .main m => m.kidless
  | _ => none

def woken : KernelPc n → Option (Option (Fin n))
  | .main m | .wakeup _ _ m | .wakeupTest _ _ m | .wakeupRelease _ _ m => m.woken
  | _ => none

structure Knows (initproc : Fin n) (state : Fin n → Procstate) (data : Data n) (p : Fin n)
    (pc : KernelPc n) : Prop where
  sleeps : ∀ stage chan lk ret, pc = .sleep stage chan lk ret →
    chan = p ∧ ∃ call, ret = .waitScan call 0 false
  wakes : ∀ chan ret, pc.Waking chan ret →
    (∃ status, ∃ pp : Fin n, chan = initproc ∧ ret = .reparent status (pp.val + 1)) ∨
      ∃ status, ret = .exitAcquire status (some chan)
  matched : ∀ call pp, matched pc = some (call, pp) → call.Matches data p pp
  scanned : ∀ call k, scanned pc = some (call, k) → ∀ i, i.val < k → call.Matches data p i →
    state i ≠ .ZOMBIE
  kidless : ∀ call k, kidless pc = some (call, k) → ∀ i, i.val < k → ¬ call.Matches data p i
  parent : ∀ q, woken pc = some q → data.parent p = q
  killed : ∀ m, pc = .main m → m.sawKilled = true → data.killed p = true

theorem waitLock_held {pc : KernelPc n}
    (returns : (policy initproc).Returns p pc)
    (knows : matched pc ≠ none ∨ scanned pc ≠ none ∨ kidless pc ≠ none ∨ woken pc ≠ none) :
    (program initproc).holds p pc waitLock := by
  cases pc with
  | main m =>
      cases m <;> simp_all [matched, scanned, kidless, woken, Point.matched, Point.scanned,
        Point.kidless, Point.woken, Program.holds, program, held]
  | sleep stage chan lk ret =>
      cases stage <;> simp_all [matched, scanned, kidless, woken, Program.holds, waitLock, policy,
        Policy.Returns]
  | wakeup | wakeupTest | wakeupRelease =>
      have guard := returns.1
      simp_all [Program.holds, waitLock, policy]
  | _ => simp [matched, scanned, kidless, woken] at knows

/-- Slots change parent only under `wait_lock`, become ZOMBIE only under it, and change pid
only while they have no parent. -/
structure Calm (state state' : Fin n → Procstate) (data data' : Data n) : Prop where
  parent : data'.parent = data.parent
  pid : ∀ i q, data.parent i = some q → data'.pid i = data.pid i
  zombie : ∀ i, state' i = .ZOMBIE ↔ state i = .ZOMBIE

variable {state state' : Fin n → Procstate} {data data' : Data n}

theorem Calm.matches (calm : Calm state state' data data') (call : WaitCall) (q i : Fin n) :
    call.Matches data' q i ↔ call.Matches data q i := by
  unfold WaitCall.Matches
  rw [calm.parent]
  refine and_congr_right fun child => ?_
  rw [calm.pid i q child]

theorem Knows.calm {pc : KernelPc n} (knows : Knows initproc state data p pc)
    (calm : Calm state state' data data')
    (killed : data.killed p = true → data'.killed p = true) :
    Knows initproc state' data' p pc :=
  ⟨knows.sleeps, knows.wakes, fun call pp found => (calm.matches call p pp).mpr
      (knows.matched call pp found),
    fun call k found i below own => (not_congr (calm.zombie i)).mpr
      (knows.scanned call k found i below ((calm.matches call p i).mp own)),
    fun call k found i below own => knows.kidless call k found i below
      ((calm.matches call p i).mp own),
    fun q found => calm.parent ▸ knows.parent q found,
    fun m here saw => killed (knows.killed m here saw)⟩

theorem Knows.unlocked {pc : KernelPc n} (knows : Knows initproc state data p pc)
    (returns : (policy initproc).Returns p pc)
    (free : ¬ (program initproc).holds p pc waitLock)
    (killed : data.killed p = true → data'.killed p = true) :
    Knows initproc state' data' p pc := by
  have none : ∀ {α : Type} {x : Option α} {y : α}, x = some y →
      (x ≠ none → (program initproc).holds p pc waitLock) → False := by
    rintro α x y rfl holds
    exact free (holds (by simp))
  refine ⟨knows.sleeps, knows.wakes, fun call pp found => ?_, fun call k found => ?_,
    fun call k found => ?_, fun q found => ?_, fun m here saw => killed (knows.killed m here saw)⟩
  · exact (none found fun some => waitLock_held returns (.inl some)).elim
  · exact (none found fun some => waitLock_held returns (.inr (.inl some))).elim
  · exact (none found fun some => waitLock_held returns (.inr (.inr (.inl some)))).elim
  · exact (none found fun some => waitLock_held returns (.inr (.inr (.inr some)))).elim

def Rousing (initproc q : Fin n) (pc : KernelPc n) : Prop :=
  (q = initproc ∧ ∃ status pp, pc = .main (.reparentWakeup status pp)) ∨
    ∃ ret, pc.Waking q ret

/-- What every process knows, and that a ZOMBIE somebody sleeps for is being announced. -/
structure Waits (initproc : Fin n) (state : Fin n → Procstate) (data : Data n)
    (pc : Fin n → KernelPc n) : Prop where
  knows : ∀ p, Knows initproc state data p (pc p)
  wake : ∀ q call, (pc q).Commits (state q) q → sleeper (pc q) = some call →
    ∀ i, call.Matches data q i → state i = .ZOMBIE → ∃ h, Rousing initproc q (pc h)

theorem Knows.idle (pc : KernelPc n) (awake : ∀ stage chan lk ret, pc ≠ .sleep stage chan lk ret)
    (quiet : ∀ chan ret, ¬ pc.Waking chan ret)
    (nothing : Lifecycle.matched pc = none ∧ Lifecycle.scanned pc = none ∧
      Lifecycle.kidless pc = none ∧ woken pc = none)
    (unseen : ∀ m, pc = .main m → m.sawKilled = false) : Knows initproc state data p pc := by
  obtain ⟨unmatched, unscanned, kids, asleep⟩ := nothing
  refine ⟨fun stage chan lk ret here => absurd here (awake stage chan lk ret),
    fun chan ret waking => absurd waking (quiet chan ret), ?_, ?_, ?_, ?_, fun m here saw => ?_⟩
  · simp [unmatched]
  · simp [unscanned]
  · simp [kids]
  · simp [asleep]
  · simp [unseen m here] at saw

section Waits

variable {pc pc' : Fin n → KernelPc n}

theorem Waits.step (waits : Waits initproc state data pc)
    (returns : ∀ q, (policy initproc).Returns q (pc q))
    (owner : ∀ q, (program initproc).holds p (pc p) waitLock →
      (program initproc).holds q (pc q) waitLock → q = p)
    (others : Others p pc pc')
    (killed : ∀ q, q ≠ p → pc q ≠ .dead → data.killed q = true → data'.killed q = true)
    (steady : Calm state state' data data' ∨ (program initproc).holds p (pc p) waitLock)
    (self : Knows initproc state' data' p (pc' p))
    (wake : ∀ q call, (pc' q).Commits (state' q) q → sleeper (pc' q) = some call →
      ∀ i, call.Matches data' q i → state' i = .ZOMBIE → ∃ h, Rousing initproc q (pc' h)) :
    Waits initproc state' data' pc' := by
  refine ⟨fun q => ?_, wake⟩
  by_cases same : q = p
  · subst q
    exact self
  · rcases others q same with kept | ⟨-, started⟩
    · rw [kept]
      by_cases dead : pc q = .dead
      · rw [dead]
        exact .idle _ (by simp) (by simp [Pc.Waking]) ⟨rfl, rfl, rfl, rfl⟩ (by simp)
      · rcases steady with calm | mine
        · exact (waits.knows q).calm calm (killed q same dead)
        · refine (waits.knows q).unlocked (returns q) (fun theirs => same (owner q mine theirs))
            (killed q same dead)
    · rw [started]
      exact .idle _ (by simp) (by simp [Pc.Waking]) ⟨rfl, rfl, rfl, rfl⟩ (by simp)

/-- Who sleeps keeps being announced to while only `p` moves and no exit is newly relevant. -/
theorem Waits.still (waits : Waits initproc state data pc) (others : Others p pc pc')
    (rousing : ∀ q, Rousing initproc q (pc p) → Rousing initproc q (pc' p) ∨
      ¬ (pc q).Commits (state q) q)
    {q : Fin n} {call : WaitCall} {i : Fin n} (committed : (pc q).Commits (state q) q)
    (sleeps : sleeper (pc q) = some call) (own : call.Matches data q i)
    (zombie : state i = .ZOMBIE) : ∃ h, Rousing initproc q (pc' h) := by
  obtain ⟨h, before⟩ := waits.wake q call committed sleeps i own zombie
  by_cases same : h = p
  · subst h
    rcases rousing q before with now | awake
    · exact ⟨p, now⟩
    · exact absurd committed awake
  · rcases others h same with kept | ⟨dead, -⟩
    · exact ⟨h, by rwa [kept]⟩
    · rw [dead] at before
      simp [Rousing, Pc.Waking] at before

end Waits

/-! ### Moves outside the functions -/

theorem Knows.flow {state : Fin n → Procstate} {data : Data n} {pc next : KernelPc n}
    (knows : Knows initproc state data p pc) (flow : (program initproc).Flow p pc next)
    (returns : (policy initproc).Returns p pc) : Knows initproc state data p next := by
  cases flow with
  | @sleep stage next chan lk ret follows =>
      refine ⟨?_, by simp [Pc.Waking], by simp [Lifecycle.matched], fun call k found => ?_,
        by simp [Lifecycle.kidless], by simp [woken], by simp⟩
      · rintro _ _ _ _ ⟨⟩
        exact knows.sleeps _ _ _ _ rfl
      · obtain ⟨-, other, rfl⟩ := knows.sleeps _ _ _ _ rfl
        cases stage with
        | acquire =>
            cases follows
            exact knows.scanned call k found
        | reacquire => cases follows
        | _ =>
            cases follows
            simp [Lifecycle.scanned] at found
  | slept =>
      obtain ⟨-, call, rfl⟩ := knows.sleeps _ _ _ _ rfl
      refine ⟨by simp, by simp [Pc.Waking], ?_, ?_, ?_, ?_, ?_⟩ <;>
        simp [Lifecycle.matched, Lifecycle.scanned, Lifecycle.kidless, woken, Point.matched,
          Point.scanned, Point.kidless, Point.woken, Point.sawKilled]
  | @waking before after chan ret first second =>
      have same : woken next = woken pc := by
        cases pc <;> cases next <;> simp_all [Pc.Waking, woken]
      have nothing : Lifecycle.matched next = none ∧ Lifecycle.scanned next = none ∧
          Lifecycle.kidless next = none := by
        cases next <;> simp_all [Pc.Waking, Lifecycle.matched, Lifecycle.scanned,
          Lifecycle.kidless]
      obtain ⟨unmatched, unscanned, kids⟩ := nothing
      refine ⟨?_, fun c r again => ?_, by simp [unmatched], by simp [unscanned], by simp [kids],
        fun q found => knows.parent q (same ▸ found), ?_⟩
      · rintro _ _ _ _ rfl
        simp [Pc.Waking] at second
      · obtain ⟨rfl, rfl⟩ := second.unique again
        exact knows.wakes _ _ first
      · rintro m rfl
        simp [Pc.Waking] at second
  | woken past =>
      have parent := knows.parent
      rcases knows.wakes _ _ ⟨rfl, rfl⟩ with ⟨status, pp, -, rfl⟩ | ⟨status, rfl⟩
      · exact .idle _ (by simp) (by simp [Pc.Waking]) ⟨rfl, rfl, rfl, rfl⟩
          (by simp [Point.sawKilled])
      · exact ⟨by simp, by simp [Pc.Waking], by simp [Lifecycle.matched, Point.matched],
          by simp [Lifecycle.scanned, Point.scanned], by simp [Lifecycle.kidless, Point.kidless],
          parent, by simp [Point.sawKilled]⟩
  | preempt | yield => exact .idle _ (by simp) (by simp [Pc.Waking]) ⟨rfl, rfl, rfl, rfl⟩ (by simp)
  | @resumed ret =>
      have free : ¬ (program initproc).holds p (.main ret) waitLock := by
        simp [Program.holds, returns.1]
      have nothing : ∀ {α : Type} {x : Option α},
          (x ≠ none → (program initproc).holds p (.main ret) waitLock) → x = none := by
        intro α x holds
        by_contra some
        exact free (holds some)
      refine .idle _ (by simp) (by simp [Pc.Waking])
        ⟨nothing fun some => waitLock_held trivial (.inl some),
          nothing fun some => waitLock_held trivial (.inr (.inl some)),
          nothing fun some => waitLock_held trivial (.inr (.inr (.inl some))),
          nothing fun some => waitLock_held trivial (.inr (.inr (.inr some)))⟩ ?_
      rintro m ⟨⟩
      by_contra saw
      have unlocked := returns.1
      cases ret <;> simp_all [Point.sawKilled, program, held]

theorem Rousing.flow {pc next : KernelPc n} {q : Fin n} (rousing : Rousing initproc q pc)
    (flow : (program initproc).Flow p pc next) :
    Rousing initproc q next ∨ pc.Sweeps (policy initproc).swept q q := by
  rcases rousing with ⟨rfl, status, pp, rfl⟩ | ⟨ret, waking⟩
  · cases flow with
    | waking first => simp [Pc.Waking] at first
    | preempt unlocked => simp [program, held] at unlocked
  · cases flow with
    | waking first second =>
        obtain ⟨rfl, rfl⟩ := first.unique waking
        exact .inl (.inr ⟨_, second⟩)
    | woken past =>
        obtain ⟨rfl, -⟩ := waking
        exact .inr ⟨rfl, by omega⟩
    | _ => simp [Pc.Waking] at waking

theorem calm_of_internal (internal : (program initproc).Internal s t p)
    (inv : (policy initproc).Inv s) : Calm s.state t.state s.data t.data := by
  refine ⟨by rw [internal.data], fun _ _ _ => by rw [internal.data], fun i => ?_⟩
  rcases internal.live inv i with same | ⟨before, after⟩
  · rw [same]
  · rcases before with before | before | before <;> rcases after with after | after | after <;>
      simp [before, after]

theorem Waits.internal (waits : Waits initproc s.state s.data s.pc)
    (inv : (policy initproc).Inv s) (internal : (program initproc).Internal s t p)
    (commits : ∀ q chan, (t.pc q).Commits (t.state q) chan → (s.pc q).Commits (s.state q) chan ∨
      q = p ∧ ∃ lk ret, s.pc p = .sleep .release chan lk ret) :
    Waits initproc t.state t.data t.pc := by
  obtain ⟨next, moved, flow⟩ := internal.pc
  have self : t.pc p = next := by rw [moved, Function.update_self]
  have others : Others p s.pc t.pc := moved ▸ others_update s.pc p next
  have calm := calm_of_internal internal inv
  have killed : ∀ q, s.data.killed q = true → t.data.killed q = true := by
    intro q set
    rwa [internal.data]
  refine waits.step inv.returns (fun q mine theirs => inv.owned.exclusive theirs mine) others
    (fun q _ _ => killed q) (.inl calm) ?_ fun q call committed sleeps i own zombie => ?_
  · rw [self]
    exact ((waits.knows p).flow flow (inv.returns p)).calm calm (killed p)
  · rw [calm.matches] at own
    rw [calm.zombie] at zombie
    rcases commits q q committed with before | ⟨rfl, lk, ret, here⟩
    · refine waits.still others (fun r rousing => ?_) before ?_ own zombie
      · rw [self]
        exact (rousing.flow flow).imp id (inv.swept p r r)
      · by_cases same : q = p
        · subst q
          rw [self] at sleeps committed
          generalize s.pc p = before' at flow before
          cases flow with
          | sleep => exact sleeps
          | waking first second => cases next <;> simp [Pc.Waking, Pc.Commits] at second committed
          | _ => simp [Pc.Commits] at committed
        · rwa [moved, Function.update_of_ne same] at sleeps
    · exfalso
      have knows := waits.knows q
      rw [self] at sleeps
      rw [here] at flow knows
      obtain ⟨-, other, rfl⟩ := knows.sleeps _ _ _ _ rfl
      refine knows.scanned call n ?_ i i.isLt own zombie
      cases flow with
      | sleep =>
          obtain rfl : other = call := by simpa [sleeper, Point.scanning] using sleeps
          rfl
      | waking first => simp [Pc.Waking] at first

/-! ### The statements of the functions -/

structure Reads (state : Fin n → Procstate) (data : Data n) (p : Fin n) (m : Point n) : Prop where
  matched : ∀ call pp, m.matched = some (call, pp) → call.Matches data p pp := by
    simp [Point.matched]
  scanned : ∀ call k, m.scanned = some (call, k) → ∀ i, i.val < k → call.Matches data p i →
      state i ≠ .ZOMBIE := by
    simp [Point.scanned]
  kidless : ∀ call k, m.kidless = some (call, k) → ∀ i, i.val < k → ¬ call.Matches data p i := by
    simp [Point.kidless]
  parent : ∀ q, m.woken = some q → data.parent p = q := by simp [Point.woken]
  killed : m.sawKilled = true → data.killed p = true := by simp [Point.sawKilled]

theorem Reads.knows {state : Fin n → Procstate} {data : Data n} {m : Point n}
    (reads : Reads state data p m) : Knows initproc state data p (.main m) := by
  refine ⟨by simp, by simp [Pc.Waking], reads.matched, reads.scanned, reads.kidless, reads.parent,
    ?_⟩
  rintro m ⟨⟩
  exact reads.killed

theorem below_succ {i pp : Fin n} (less : i.val < pp.val + 1) : i = pp ∨ i.val < pp.val := by
  by_cases same : i.val = pp.val
  · exact .inl (Fin.ext same)
  · exact .inr (by omega)

theorem Knows.advance {state : Fin n → Procstate} {data : Data n} {input : Input} {m : Point n}
    {instr : KernelInstr n} (knows : Knows initproc state data p (.main m))
    (stmt : Stmt initproc p state data input m instr) :
    Knows initproc state data p instr.next := by
  cases stmt with
  | waitMatch call pp havekids found =>
      refine Reads.knows { matched := ?_, scanned := ?_ }
      · rintro _ _ ⟨⟩
        exact found
      · rintro _ _ ⟨⟩
        exact knows.scanned call pp rfl
  | waitSkip call pp havekids other =>
      refine Reads.knows { scanned := ?_, kidless := ?_ }
      · rintro _ _ ⟨⟩ i less own
        rcases below_succ less with rfl | before
        · exact absurd own other
        · exact knows.scanned call pp rfl i before own
      · cases havekids with
        | true => simp [Point.kidless]
        | false =>
            rintro _ _ ⟨⟩ i less
            rcases below_succ less with rfl | before
            · exact other
            · exact knows.kidless call pp rfl i before
  | waitEnd call i havekids past =>
      refine Reads.knows { scanned := ?_, kidless := ?_ }
      · rintro _ _ ⟨⟩ j -
        exact knows.scanned call i rfl j (by omega)
      · cases havekids with
        | true => simp [Point.kidless]
        | false =>
            rintro _ _ ⟨⟩ j -
            exact knows.kidless call i rfl j (by omega)
  | copyFail call pp =>
      refine Reads.knows { matched := ?_ }
      rintro _ _ ⟨⟩
      exact knows.matched call pp rfl
  | waitAlive call pp alive =>
      refine Reads.knows { matched := ?_, scanned := ?_ }
      · rintro _ _ ⟨⟩
        exact knows.matched call pp rfl
      · rintro _ _ ⟨⟩ i less own
        rcases below_succ less with rfl | before
        · exact alive
        · exact knows.scanned call pp rfl i before own
  | waitAcquire call =>
      refine Reads.knows { scanned := ?_, kidless := ?_ }
      · rintro _ _ ⟨⟩ i less
        omega
      · rintro _ _ ⟨⟩ i less
        omega
  | waitNext call | waitKids call | waitStay call =>
      refine Reads.knows { scanned := ?_ }
      rintro _ _ ⟨⟩
      exact knows.scanned call _ rfl
  | waitNoKids call =>
      refine Reads.knows { kidless := ?_ }
      rintro _ _ ⟨⟩
      exact knows.kidless call _ rfl
  | waitKilled call =>
      refine Reads.knows { scanned := ?_, killed := id }
      rintro _ _ ⟨⟩
      exact knows.scanned call _ rfl
  | waitDie call => exact Reads.knows { killed := fun _ => knows.killed _ rfl rfl }
  | waitSleep call =>
      refine ⟨?_, by simp [Instr.next, Pc.Waking],
        by simp [Instr.next, Lifecycle.matched], ?_, by simp [Instr.next, Lifecycle.kidless],
        by simp [Instr.next, woken], by simp [Instr.next]⟩
      · rintro _ _ _ _ ⟨⟩
        exact ⟨rfl, call, rfl⟩
      · rintro _ _ ⟨⟩
        exact knows.scanned call _ rfl
  | reparentWakeup status pp =>
      refine ⟨by simp [Instr.next], ?_, by simp [Instr.next, Lifecycle.matched],
        by simp [Instr.next, Lifecycle.scanned], by simp [Instr.next, Lifecycle.kidless],
        by simp [Instr.next, woken, Point.woken], by simp [Instr.next]⟩
      rintro _ _ ⟨rfl, rfl⟩
      exact .inl ⟨status, pp, rfl, rfl⟩
  | exitWakeup status parent child =>
      refine ⟨by simp [Instr.next], ?_, by simp [Instr.next, Lifecycle.matched],
        by simp [Instr.next, Lifecycle.scanned], by simp [Instr.next, Lifecycle.kidless], ?_,
        by simp [Instr.next]⟩
      · rintro _ _ ⟨rfl, rfl⟩
        exact .inr ⟨status, rfl⟩
      · rintro _ ⟨⟩
        exact child
  | exitOrphan status orphan =>
      refine Reads.knows { parent := ?_ }
      rintro _ ⟨⟩
      exact orphan
  | exitAcquire status parent =>
      refine Reads.knows { parent := ?_ }
      rintro _ ⟨⟩
      exact knows.parent _ rfl
  | exitSched =>
      exact .idle _ (by simp [Instr.next]) (by simp [Instr.next, Pc.Waking]) ⟨rfl, rfl, rfl, rfl⟩
        (by simp [Instr.next])
  | _ => exact Reads.knows {}

/-- A statement leaves parents and ZOMBIEs alone, or is made under `wait_lock` and is announced:
a child that is newly a ZOMBIE of `q` has had `q` woken, or `q` is about to be. -/
theorem stmt_steady {state : Fin n → Procstate} {data : Data n} {input : Input} {m : Point n}
    {instr : KernelInstr n} (knows : Knows initproc state data p (.main m))
    (unparented : ∀ i, state i = .UNUSED → data.parent i = none)
    (used : ∀ np, m.builds = some np → state np = .USED)
    (orphan : ∀ np, m.fresh = some np → data.parent np = none)
    (stmt : Stmt initproc p state data input m instr) :
    Calm state (instr.state state) data (instr.data data) ∨
      (program initproc).holds p (.main m) waitLock ∧
      (∀ state data, Knows initproc state data p instr.next) ∧
      ∀ (q : Fin n) (call : WaitCall) (i : Fin n), q ≠ p →
        call.Matches (instr.data data) q i → instr.state state i = .ZOMBIE →
        call.Matches data q i ∧ state i = .ZOMBIE ∨ Rousing initproc q instr.next ∨ m.swept q := by
  have zombie : ∀ {q later}, state q ≠ .ZOMBIE → later ≠ .ZOMBIE → ∀ i,
      Function.update state q later i = .ZOMBIE ↔ state i = .ZOMBIE := by
    intro q later before after i
    by_cases same : i = q
    · subst i
      simp [before, after]
    · rw [Function.update_of_ne same]
  cases stmt with
  | allocproc kind np unused =>
      refine .inl ⟨rfl, fun i q child => ?_, zombie (by simp [unused]) (by simp)⟩
      have other : i ≠ np := by
        rintro rfl
        simp [unparented i unused] at child
      simp [Instr.data, Data.allocproc, other]
  | abandon kind np =>
      have none := orphan np rfl
      refine .inl ⟨?_, fun i q child => ?_, zombie (by simp [used np rfl]) (by simp)⟩
      · simp [Instr.data, Data.freeproc, ← none]
      · have other : i ≠ np := by
          rintro rfl
          simp [none] at child
        simp [Instr.data, Data.freeproc, other]
  | spawn kind np pid =>
      exact .inl ⟨rfl, fun _ _ _ => rfl, zombie (by simp [used np rfl]) (by simp)⟩
  | postWake pid signum q sleeping =>
      exact .inl ⟨rfl, fun _ _ _ => rfl, zombie (by simp [sleeping]) (by simp)⟩
  | adopt kind np pid =>
      refine .inr ⟨by simp [Program.holds, program, held], fun _ _ => Reads.knows {},
        fun q call i other own dead => .inl ⟨?_, dead⟩⟩
      have apart : i ≠ np := by
        rintro rfl
        exact other (by simpa [Instr.data, Data.adopt] using own.1.symm)
      exact ⟨by simpa [Instr.data, Data.adopt, apart] using own.1, own.2⟩
  | reparent status pp child =>
      refine .inr ⟨by simp [Program.holds, program, held], fun _ _ => Reads.knows {},
        fun q call i other own dead => ?_⟩
      by_cases same : i = pp
      · subst i
        refine .inr (.inl (.inl ⟨?_, status, pp, rfl⟩))
        simpa [Instr.data] using own.1.symm
      · exact .inl ⟨⟨by simpa [Instr.data, same] using own.1, own.2⟩, dead⟩
  | zombie status parent =>
      refine .inr ⟨by simp [Program.holds, program, held], fun _ _ => Reads.knows {},
        fun q call i other own dead => ?_⟩
      by_cases same : i = p
      · subst i
        refine .inr (.inr ?_)
        exact (knows.parent parent rfl).symm.trans own.1
      · exact .inl ⟨own, by simpa [Instr.state, same] using dead⟩
  | reap call pp dead =>
      refine .inr ⟨by simp [Program.holds, program, held], fun _ _ => Reads.knows {},
        fun q call i other own zombie => .inl ?_⟩
      have apart : i ≠ pp := by
        rintro rfl
        simp [Instr.state] at zombie
      refine ⟨⟨?_, fun tid joins => ?_⟩, by simpa [Instr.state, apart] using zombie⟩
      · simpa [Instr.data, Data.reap, Data.freeproc, apart] using own.1
      · simpa [Instr.data, Data.reap, Data.freeproc, apart] using own.2 tid joins
  | mark kind np => cases kind <;> exact .inl ⟨rfl, fun _ _ _ => rfl, fun _ => Iff.rfl⟩
  | obtained kind pid => cases kind <;> exact .inl ⟨rfl, fun _ _ _ => rfl, fun _ => Iff.rfl⟩
  | joined call pid => cases call <;> exact .inl ⟨rfl, fun _ _ _ => rfl, fun _ => Iff.rfl⟩
  | _ => exact .inl ⟨rfl, fun _ _ _ => rfl, fun _ => Iff.rfl⟩

theorem stmt_killed {state : Fin n → Procstate} {data : Data n} {pc : Fin n → KernelPc n}
    {input : Input} {m : Point n} {instr : KernelInstr n}
    (built : ∀ np, m.builds = some np → pc np = .dead)
    (freed : ∀ call pp, m = .waitTest call pp → state pp = .ZOMBIE → pc pp = .dead)
    (stmt : Stmt initproc p state data input m instr) {q : Fin n} (alive : pc q ≠ .dead)
    (set : data.killed q = true) : (instr.data data).killed q = true := by
  cases stmt with
  | abandon kind np =>
      have other : q ≠ np := by
        rintro rfl
        exact alive (built q rfl)
      simpa [Instr.data, Data.freeproc, other] using set
  | reap call pp dead =>
      have other : q ≠ pp := by
        rintro rfl
        exact alive (freed call q rfl dead)
      simpa [Instr.data, Data.reap, Data.freeproc, other] using set
  | post pid signum r | postWake pid signum r =>
      simp only [Instr.data, Data.post]
      split
      · by_cases same : q = r
        · subst q
          simp
        · simpa [same] using set
      · exact set
  | mark kind np => cases kind <;> exact set
  | obtained kind pid => cases kind <;> exact set
  | joined call pid => cases call <;> exact set
  | _ => exact set

theorem Rousing.stmt {state : Fin n → Procstate} {data : Data n} {input : Input} {m : Point n}
    {instr : KernelInstr n} {q : Fin n} (rousing : Rousing initproc q (.main m))
    (stmt : Stmt initproc p state data input m instr) : Rousing initproc q instr.next := by
  rcases rousing with ⟨rfl, status, pp, ⟨⟩⟩ | ⟨ret, waking⟩
  · cases stmt
    exact .inr ⟨_, rfl, rfl⟩
  · simp [Pc.Waking] at waking

theorem dead_of_tested (inv : (policy initproc).Inv s) {call : WaitCall} {pp : Fin n}
    (here : s.pc p = .main (.waitTest call pp)) (zombie : s.state pp = .ZOMBIE) :
    s.pc pp = .dead := by
  have mine : (program initproc).holds p (s.pc p) (.proc pp) := by
    simp [here, Program.holds, program, held]
  refine inv.dead_of_zombie ?_ mine zombie
  rintro rfl
  have fits := inv.fits pp
  simp [here, Pc.Fits, policy, Point.zombie, zombie] at fits

theorem Waits.stmt (waits : Waits initproc s.state s.data s.pc) (inv : (policy initproc).Inv s)
    (building : Building s.state s.data.pid s.data.parent s.pc)
    (family : Family initproc s.state s.data s.pc) {input : Input} {m : Point n}
    {instr : KernelInstr n} (here : s.pc p = .main m)
    (stmt : Stmt initproc p s.state s.data input m instr) (others : Others p s.pc t.pc)
    (performed : perform s p instr = some t)
    (commits : ∀ q chan, (t.pc q).Commits (t.state q) chan → (s.pc q).Commits (s.state q) chan) :
    Waits initproc t.state t.data t.pc := by
  obtain ⟨data, state, moved⟩ := perform_effect performed
  have self : t.pc p = instr.next := by rw [moved, Function.update_self]
  have knows := waits.knows p
  rw [here] at knows
  have filled : ∀ np, m.builds = some np → s.state np = .USED := by
    intro np builds
    exact building.used p np (by rw [here]; exact builds)
  have freed : ∀ call pp, m = .waitTest call pp → s.state pp = .ZOMBIE → s.pc pp = .dead := by
    rintro call pp rfl
    exact dead_of_tested inv here
  have killed : ∀ q, s.pc q ≠ .dead → s.data.killed q = true → t.data.killed q = true := by
    rw [data]
    exact fun q => stmt_killed (fun np builds => inv.dead_of_unstarted (.inr (filled np builds)))
      freed stmt
  have steady := stmt_steady knows family.unparented filled
    (fun np fresh => building.orphan p np (by rw [here]; exact fresh)) stmt
  refine waits.step inv.returns (fun q mine theirs => inv.owned.exclusive theirs mine) others
    (fun q _ => killed q) ?_ ?_ fun q call committed sleeps i own zombie => ?_
  · rw [data, state, here]
    exact steady.imp id fun known => known.1
  · rw [self, data, state]
    rcases steady with calm | ⟨-, known, -⟩
    · exact (knows.advance stmt).calm calm (data ▸ killed p (by simp [here]))
    · exact known _ _
  · have before := commits q q committed
    have other : q ≠ p := by
      rintro rfl
      simp [here, Pc.Commits] at before
    have sleeps' : sleeper (s.pc q) = some call := by
      rcases others q other with kept | ⟨-, started⟩
      · rwa [← kept]
      · simp [started, sleeper] at sleeps
    have still : call.Matches s.data q i ∧ s.state i = .ZOMBIE →
        ∃ h, Rousing initproc q (t.pc h) := by
      rintro ⟨own, zombie⟩
      refine waits.still others (fun r rousing => .inl ?_) before sleeps' own zombie
      rw [self]
      exact (here ▸ rousing).stmt stmt
    rw [data] at own
    rw [state] at zombie
    rcases steady with calm | ⟨-, -, announced⟩
    · exact still ⟨(calm.matches call q i).mp own, (calm.zombie i).mp zombie⟩
    · rcases announced q call i other own zombie with same | rousing | swept
      · exact still same
      · exact ⟨p, by rwa [self]⟩
      · refine absurd before (inv.swept p q q ?_)
        rw [here]
        exact swept

end OsLab.Kernel.Lifecycle
