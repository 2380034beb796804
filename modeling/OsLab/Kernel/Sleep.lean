import OsLab.Kernel.Threads

/-!
The hand-over between a condition's lock and `p->lock` in `sleep`, and the scan of
`wakeup`: a process on its way to sleep is found by every scan made under the same
lock. Stated for any program that keeps a `Policy`.
-/

namespace OsLab.Kernel.Threads

open OsLab.Library

variable {n : ℕ} {L C M D I : Type}

/-- What a program promises: `zombie` marks the points after a process has set its own state to
ZOMBIE, `guard` is the lock under which a channel's condition is tested and changed, and
`swept` marks the points where `wakeup` on a channel has run since its guard was taken. -/
structure Policy (program : Program n L C M D I) where
  zombie : M → Bool
  guard : C → L
  swept : M → C → Prop
  zombie_held : ∀ p m, zombie m = true → .proc p ∈ program.held p m
  swept_held : ∀ p m chan, swept m chan → .named (guard chan) ∈ program.held p m

def Program.holds (program : Program n L C M D I) (p : Fin n) : Pc n L C M → Lock n L → Prop
  | .main m, lock => lock ∈ program.held p m
  | .sleep .acquire _ lk _, lock => lock = .named lk
  | .sleep .release _ lk _, lock => lock = .proc p ∨ lock = .named lk
  | .sleep .asleep .., _ | .sleep .reacquire .., _ => False
  | .sleep .., lock => lock = .proc p
  | .wakeup _ _ ret, lock => lock ∈ program.held p ret
  | .wakeupTest q _ ret, lock | .wakeupRelease q _ ret, lock =>
      lock = .proc q ∨ lock ∈ program.held p ret
  | .yield .acquire _, _ | .yield .off _, _ => False
  | .yield .., lock => lock = .proc p
  | .dead, _ => False

def Pc.Fits (zombie : M → Bool) : Pc n L C M → Procstate → Prop
  | .main m, state => state = if zombie m then .ZOMBIE else .RUNNING
  | .sleep .sched .., state => state = .SLEEPING
  | .sleep .asleep .., state => state = .SLEEPING ∨ state = .RUNNABLE
  | .yield .sched _, state | .yield .off _, state => state = .RUNNABLE
  | .dead, state => state = .UNUSED ∨ state = .USED ∨ state = .ZOMBIE
  | _, state => state = .RUNNING

/-- `p->chan` from its assignment in `sleep` to its reset there. -/
def Pc.OnChannel : Pc n L C M → Option C → Prop
  | .sleep .setState chan _ _, current | .sleep .sched chan _ _, current
  | .sleep .asleep chan _ _, current | .sleep .clearChan chan _ _, current => current = some chan
  | _, _ => True

/-- The process has released the condition's lock and not been woken: it sleeps on the channel
or will. -/
def Pc.Commits (state : Procstate) (chan : C) : Pc n L C M → Prop
  | .sleep .setChan c _ _ | .sleep .setState c _ _ | .sleep .sched c _ _ => c = chan
  | .sleep .asleep c _ _ => c = chan ∧ state = .SLEEPING
  | _ => False

/-- At this point `wakeup` on the channel has already looked at `q`. -/
def Pc.Sweeps (swept : M → C → Prop) (chan : C) (q : Fin n) : Pc n L C M → Prop
  | .main m => swept m chan
  | .wakeup i c _ => c = chan ∧ q.val < i
  | .wakeupTest r c _ => c = chan ∧ q.val < r.val
  | .wakeupRelease r c _ => c = chan ∧ q.val ≤ r.val
  | _ => False

variable {program : Program n L C M D I}

/-- What a call of `sleep`, `wakeup` or `yield` knows of the point it returns to. -/
def Policy.Returns (policy : Policy program) (p : Fin n) : Pc n L C M → Prop
  | .sleep _ chan lk ret =>
      lk = policy.guard chan ∧ program.held p ret = [.named lk] ∧ policy.zombie ret = false ∧
        ∀ other, ¬ policy.swept ret other
  | .wakeup _ chan ret | .wakeupTest _ chan ret | .wakeupRelease _ chan ret =>
      .named (policy.guard chan) ∈ program.held p ret ∧ (∀ q, .proc q ∉ program.held p ret) ∧
        policy.zombie ret = false ∧ ∀ other, policy.swept ret other → other = chan
  | .yield _ ret => program.held p ret = [] ∧ policy.zombie ret = false
  | _ => True

/-- The invariant of the threads of a program that keeps the policy. -/
structure Policy.Inv (policy : Policy program) (s : State n L C M D) : Prop where
  owned : Owned program.holds s.owner s.pc
  fits : ∀ p, (s.pc p).Fits policy.zombie (s.state p)
  channel : ∀ p, (s.pc p).OnChannel (s.chan p)
  returns : ∀ p, policy.Returns p (s.pc p)
  swept : ∀ p chan q, (s.pc p).Sweeps policy.swept chan q → ¬ (s.pc q).Commits (s.state q) chan

/-- The promises of the program at one point, for the instruction it executes there. -/
def Policy.Allowed (policy : Policy program) (s : State n L C M D) (p : Fin n) (m : M) :
    Instr n L C M D → Prop
  | .goto _ next =>
      (∀ lock, lock ∈ program.held p next ↔ lock ∈ program.held p m) ∧
        policy.zombie next = policy.zombie m ∧ ∀ chan, policy.swept next chan → policy.swept m chan
  | .acquire lock next =>
      (∀ other, other ∈ program.held p next ↔ other = lock ∨ other ∈ program.held p m) ∧
        policy.zombie next = policy.zombie m ∧ ∀ chan, policy.swept next chan → policy.swept m chan
  | .release lock next =>
      lock ∈ program.held p m ∧
        (∀ other, other ∈ program.held p next ↔ other ≠ lock ∧ other ∈ program.held p m) ∧
        policy.zombie next = policy.zombie m ∧ ∀ chan, policy.swept next chan → policy.swept m chan
  | .setState q later _ next =>
      .proc q ∈ program.held p m ∧
        (∀ lock, lock ∈ program.held p next ↔ lock ∈ program.held p m) ∧
        (∀ chan, policy.swept next chan → policy.swept m chan) ∧
        (q = p ∧ later = .ZOMBIE ∧ policy.zombie next = true ∨
          q ≠ p ∧ policy.zombie next = policy.zombie m ∧
            (s.state q = .SLEEPING ∧ later = .RUNNABLE ∨
              s.pc q = .dead ∧ (later = .UNUSED ∨ later = .USED)))
  | .spawn q start _ next =>
      q ≠ p ∧ s.pc q = .dead ∧ program.held q start = [] ∧ policy.zombie start = false ∧
        (∀ lock, lock ∈ program.held p next ↔ lock ∈ program.held p m) ∧
        policy.zombie next = policy.zombie m ∧ ∀ chan, policy.swept next chan → policy.swept m chan
  | .sleep chan lk next =>
      lk = policy.guard chan ∧ program.held p m = [.named lk] ∧ program.held p next = [.named lk] ∧
        policy.zombie m = false ∧ policy.zombie next = false ∧ ∀ other, ¬ policy.swept next other
  | .wakeup chan next =>
      .named (policy.guard chan) ∈ program.held p next ∧
        (∀ lock, lock ∈ program.held p next ↔ lock ∈ program.held p m) ∧
        (∀ q, .proc q ∉ program.held p next) ∧ policy.zombie m = false ∧
        policy.zombie next = false ∧ ∀ other, policy.swept next other → other = chan
  | .exit => program.held p m = [.proc p] ∧ policy.zombie m = true

theorem Pc.Sweeps.not_commits {swept : M → C → Prop} {chan other : C} {q : Fin n}
    {pc : Pc n L C M} (sweeps : pc.Sweeps swept chan q) (state : Procstate) :
    ¬ pc.Commits state other := by
  cases pc <;> simp_all [Pc.Sweeps, Pc.Commits]

theorem Pc.Commits.mono {before after : Procstate} {chan : C} {pc : Pc n L C M}
    (commits : pc.Commits after chan) (sleeping : after = .SLEEPING → before = .SLEEPING) :
    pc.Commits before chan := by
  cases pc with
  | sleep stage c lk ret => cases stage <;> simp_all [Pc.Commits]
  | _ => simp_all [Pc.Commits]

namespace Policy.Inv

variable {policy : Policy program} {s t : State n L C M D} {p : Fin n}

theorem sweeps_holds (inv : policy.Inv s) {chan : C} {q : Fin n}
    (sweeps : (s.pc p).Sweeps policy.swept chan q) :
    program.holds p (s.pc p) (.named (policy.guard chan)) := by
  have returns := inv.returns p
  cases here : s.pc p with
  | main m =>
      rw [here] at sweeps
      exact policy.swept_held p m chan sweeps
  | wakeup | wakeupTest | wakeupRelease =>
      rw [here] at sweeps returns
      obtain ⟨rfl, -⟩ := sweeps
      simp [Program.holds, returns.1]
  | _ => simp [here, Pc.Sweeps] at sweeps

/-- The frame rule: process `p` moves to `next`, and the state of another process changes only
to one that fits where it is. -/
theorem advance (inv : policy.Inv s) {next : Pc n L C M}
    (moved : t.pc = Function.update s.pc p next) (owned : Owned program.holds t.owner t.pc)
    (others : ∀ q, q ≠ p → (s.pc q).Fits policy.zombie (t.state q) ∧ t.chan q = s.chan q ∧
      (t.state q = .SLEEPING → s.state q = .SLEEPING))
    (fits : next.Fits policy.zombie (t.state p)) (channel : next.OnChannel (t.chan p))
    (returns : policy.Returns p next)
    (commits : ∀ chan, next.Commits (t.state p) chan → (s.pc p).Commits (s.state p) chan ∨
      program.holds p (s.pc p) (.named (policy.guard chan)))
    (sweeps : ∀ chan q, q ≠ p → next.Sweeps policy.swept chan q →
      (s.pc p).Sweeps policy.swept chan q ∨ ¬ (s.pc q).Commits (t.state q) chan) :
    policy.Inv t := by
  have self : t.pc p = next := by rw [moved, Function.update_self]
  have rest : ∀ q, q ≠ p → t.pc q = s.pc q := fun q other => by
    rw [moved, Function.update_of_ne other]
  refine ⟨owned, fun q => ?_, fun q => ?_, fun q => ?_, fun r chan q sweeping committed => ?_⟩
  · by_cases same : q = p
    · subst q
      rwa [self]
    · rw [rest q same]
      exact (others q same).1
  · by_cases same : q = p
    · subst q
      rwa [self]
    · rw [rest q same, (others q same).2.1]
      exact inv.channel q
  · by_cases same : q = p
    · subst q
      rwa [self]
    · rw [rest q same]
      exact inv.returns q
  · by_cases scanner : r = p
    · subst r
      rw [self] at sweeping
      by_cases same : q = p
      · subst q
        rw [self] at committed
        exact sweeping.not_commits _ committed
      · rw [rest q same] at committed
        rcases sweeps chan q same sweeping with before | clear
        · exact inv.swept p chan q before (committed.mono (others q same).2.2)
        · exact clear committed
    · rw [rest r scanner] at sweeping
      by_cases same : q = p
      · subst q
        rw [self] at committed
        rcases commits chan committed with before | holds
        · exact inv.swept r chan p sweeping before
        · exact scanner (inv.owned.exclusive (inv.sweeps_holds sweeping) holds)
      · rw [rest q same] at committed
        exact inv.swept r chan q sweeping (committed.mono (others q same).2.2)

theorem unchanged (inv : policy.Inv s) (q : Fin n) :
    (s.pc q).Fits policy.zombie (s.state q) ∧ s.chan q = s.chan q ∧
      (s.state q = .SLEEPING → s.state q = .SLEEPING) := ⟨inv.fits q, rfl, id⟩

theorem goto (inv : policy.Inv s) {next : Pc n L C M}
    (keeps : ∀ lock, program.holds p next lock ↔ program.holds p (s.pc p) lock)
    (fits : next.Fits policy.zombie (s.state p)) (channel : next.OnChannel (s.chan p))
    (returns : policy.Returns p next)
    (commits : ∀ chan, next.Commits (s.state p) chan → (s.pc p).Commits (s.state p) chan)
    (sweeps : ∀ chan q, q ≠ p → next.Sweeps policy.swept chan q →
      (s.pc p).Sweeps policy.swept chan q ∨ ¬ (s.pc q).Commits (s.state q) chan) :
    policy.Inv (s.goto p next) :=
  inv.advance rfl (inv.owned.move keeps) (fun q _ => inv.unchanged q) fits channel returns
    (fun chan committed => .inl (commits chan committed)) sweeps

theorem asleep_of_sleeping (inv : policy.Inv s) {q : Fin n} (other : q ≠ p)
    (mine : program.holds p (s.pc p) (.proc q)) (sleeping : s.state q = .SLEEPING) :
    ∃ chan lk ret, s.pc q = .sleep .asleep chan lk ret ∧ s.chan q = some chan := by
  have fits := inv.fits q
  have channel := inv.channel q
  cases there : s.pc q with
  | sleep stage chan lk ret =>
      rw [there, sleeping] at fits
      rw [there] at channel
      cases stage <;> simp only [Pc.Fits, reduceCtorEq] at fits
      case sched =>
        have theirs : program.holds q (s.pc q) (.proc q) := by simp [Program.holds, there]
        exact absurd (inv.owned.exclusive theirs mine) other
      case asleep => exact ⟨chan, lk, ret, rfl, channel⟩
  | main m =>
      cases zombie : policy.zombie m <;> simp [there, sleeping, Pc.Fits, zombie] at fits
  | yield stage ret => cases stage <;> simp [there, sleeping, Pc.Fits] at fits
  | _ => simp [there, sleeping, Pc.Fits] at fits

theorem dead_of_unstarted (inv : policy.Inv s) {q : Fin n}
    (unstarted : s.state q = .UNUSED ∨ s.state q = .USED) : s.pc q = .dead := by
  have fits := inv.fits q
  cases there : s.pc q with
  | dead => rfl
  | main m =>
      rw [there] at fits
      cases zombie : policy.zombie m <;> rcases unstarted with state | state <;>
        simp [state, Pc.Fits, zombie] at fits
  | sleep stage =>
      rw [there] at fits
      cases stage <;> rcases unstarted with state | state <;> simp [state, Pc.Fits] at fits
  | yield stage =>
      rw [there] at fits
      cases stage <;> rcases unstarted with state | state <;> simp [state, Pc.Fits] at fits
  | _ =>
      rw [there] at fits
      rcases unstarted with state | state <;> simp [state, Pc.Fits] at fits

theorem dead_of_zombie (inv : policy.Inv s) {q : Fin n} (other : q ≠ p)
    (mine : program.holds p (s.pc p) (.proc q)) (zombie : s.state q = .ZOMBIE) :
    s.pc q = .dead := by
  have fits := inv.fits q
  cases there : s.pc q with
  | dead => rfl
  | main m =>
      rw [there, zombie] at fits
      have dead : policy.zombie m = true := by
        cases last : policy.zombie m
        · simp [Pc.Fits, last] at fits
        · rfl
      have theirs : program.holds q (s.pc q) (.proc q) := by
        simpa [Program.holds, there] using policy.zombie_held q m dead
      exact absurd (inv.owned.exclusive theirs mine) other
  | sleep stage =>
      rw [there] at fits
      cases stage <;> simp [zombie, Pc.Fits] at fits
  | yield stage =>
      rw [there] at fits
      cases stage <;> simp [zombie, Pc.Fits] at fits
  | _ =>
      rw [there] at fits
      simp [zombie, Pc.Fits] at fits

theorem commits_of_sleeping (inv : policy.Inv s) {q : Fin n} {chan : C}
    (sleeping : s.state q = .SLEEPING) (on : s.chan q = some chan) :
    (s.pc q).Commits (s.state q) chan := by
  have fits := inv.fits q
  have channel := inv.channel q
  cases there : s.pc q with
  | sleep stage c lk ret =>
      rw [there, sleeping] at fits
      rw [there, on] at channel
      cases stage <;> simp only [Pc.Fits, reduceCtorEq] at fits
      case sched => exact (Option.some.inj channel).symm
      case asleep => exact ⟨(Option.some.inj channel).symm, sleeping⟩
  | main m =>
      cases zombie : policy.zombie m <;> simp [there, sleeping, Pc.Fits, zombie] at fits
  | yield stage ret => cases stage <;> simp [there, sleeping, Pc.Fits] at fits
  | _ => simp [there, sleeping, Pc.Fits] at fits

theorem sleeping_of_commits (inv : policy.Inv s) {q : Fin n} {chan : C} (other : q ≠ p)
    (mine : program.holds p (s.pc p) (.proc q))
    (committed : (s.pc q).Commits (s.state q) chan) :
    s.state q = .SLEEPING ∧ s.chan q = some chan := by
  cases there : s.pc q with
  | sleep stage c lk ret =>
      rw [there] at committed
      have channel := inv.channel q
      rw [there] at channel
      cases stage <;> simp only [Pc.Commits] at committed
      case asleep => exact ⟨committed.2, channel.trans (congrArg some committed.1)⟩
      all_goals
        have theirs : program.holds q (s.pc q) (.proc q) := by simp [Program.holds, there]
        exact absurd (inv.owned.exclusive theirs mine) other
  | _ => simp [there, Pc.Commits] at committed

theorem preempt (inv : policy.Inv s) (taken : program.preempt s p = some t) : policy.Inv t := by
  have fits := inv.fits p
  rw [Program.preempt] at taken
  split at taken
  · rename_i m here
    split at taken
    · rename_i unlocked
      obtain rfl := Option.some.inj taken
      have awake : policy.zombie m = false := by
        by_contra dead
        have own := policy.zombie_held p m (by simpa using dead)
        simp [unlocked] at own
      rw [here] at fits
      exact inv.goto (by simp [Program.holds, here, unlocked]) (by simpa [Pc.Fits, awake] using fits)
        trivial ⟨unlocked, awake⟩ (by simp [Pc.Commits]) (by simp [Pc.Sweeps])
    · simp at taken
  · simp at taken

/-- The test of `wakeup` wakes the process it looks at when that has committed to sleep: it
cannot be on its way while the scan holds its lock. -/
theorem wakeupTestStep [DecidableEq C] (inv : policy.Inv s) {q : Fin n} {chan : C} {ret : M}
    (here : s.pc p = .wakeupTest q chan ret) : policy.Inv (wakeupTestStep s p q chan ret) := by
  have fits := inv.fits p
  have returns := inv.returns p
  rw [here] at fits returns
  have mine : program.holds p (s.pc p) (.proc q) := by simp [Program.holds, here]
  have before : ∀ c r, r ≠ q → chan = c ∧ r.val ≤ q.val →
      (s.pc p).Sweeps policy.swept c r := by
    rintro c r different ⟨same, below⟩
    have apart : r.val ≠ q.val := fun equal => different (Fin.ext equal)
    rw [here]
    exact ⟨same, by omega⟩
  rw [Threads.wakeupTestStep]
  split
  · rename_i sleeping
    have elsewhere : p ≠ q := by
      rintro rfl
      simp [Pc.Fits, sleeping.1] at fits
    refine inv.advance rfl (inv.owned.move (by simp [Program.holds, here])) (fun r other => ?_)
      (by simpa [Pc.Fits, State.goto, State.setState, elsewhere] using fits) trivial returns
      (by simp [Pc.Commits]) fun c r other sweeping => ?_
    · by_cases same : r = q
      · subst r
        obtain ⟨c, lk, r, there, -⟩ := inv.asleep_of_sleeping other mine sleeping.1
        simp [there, Pc.Fits, State.goto, State.setState]
      · simpa [State.goto, State.setState, same] using inv.unchanged r
    · by_cases same : r = q
      · subst r
        refine .inr fun committed => ?_
        obtain ⟨c', lk, ret', there, -⟩ := inv.asleep_of_sleeping other mine sleeping.1
        simp [there, Pc.Commits, State.goto, State.setState] at committed
      · exact .inl (before c r same sweeping)
  · rename_i awake
    refine inv.goto (by simp [Program.holds, here]) fits trivial returns (by simp [Pc.Commits])
      fun c r other sweeping => ?_
    by_cases same : r = q
    · subst r
      refine .inr fun committed => awake ?_
      rw [sweeping.1]
      exact inv.sleeping_of_commits other mine committed
    · exact .inl (before c r same sweeping)

theorem setData (inv : policy.Inv s) (data : D) : policy.Inv { s with data := data } :=
  ⟨inv.owned, inv.fits, inv.channel, inv.returns, inv.swept⟩

theorem performSetState (inv : policy.Inv s) {m : M} {q : Fin n} {later : Procstate} {data : D}
    {next : M} (here : s.pc p = .main m)
    (allowed : policy.Allowed s p m (.setState q later data next)) :
    policy.Inv (({ s with data := data }.setState q later).goto p (.main next)) := by
  obtain ⟨holds, same, swept, change⟩ := allowed
  have fits := inv.fits p
  rw [here] at fits
  have mine : program.holds p (s.pc p) (.proc q) := by simpa [Program.holds, here] using holds
  refine inv.advance rfl (inv.owned.move (by simpa [Program.holds, here] using same))
    (fun r other => ?_) ?_ trivial trivial (by simp [Pc.Commits])
    fun chan r _ sweeping => .inl (by rw [here]; exact swept chan sweeping)
  · by_cases target : r = q
    · subst r
      rcases change with ⟨self, -⟩ | ⟨-, -, ⟨sleeping, rfl⟩ | ⟨gone, fresh⟩⟩
      · exact absurd self other
      · obtain ⟨chan, lk, ret, there, -⟩ := inv.asleep_of_sleeping other mine sleeping
        simp [there, Pc.Fits, State.goto, State.setState]
      · rcases fresh with rfl | rfl <;> simp [gone, Pc.Fits, State.goto, State.setState]
    · simpa [State.goto, State.setState, target] using inv.unchanged r
  · rcases change with ⟨rfl, rfl, dead⟩ | ⟨other, alike, -⟩
    · simp [Pc.Fits, State.goto, State.setState, dead]
    · simpa [Pc.Fits, State.goto, State.setState, Ne.symm other, alike] using fits

theorem performSpawn (inv : policy.Inv s) {m : M} {q : Fin n} {start : M} {data : D} {next : M}
    (here : s.pc p = .main m) (allowed : policy.Allowed s p m (.spawn q start data next)) :
    policy.Inv ((({ s with data := data }.setState q .RUNNABLE).goto q (.yield .off start)).goto p
      (.main next)) := by
  obtain ⟨other, gone, unlocked, awake, same, alike, swept⟩ := allowed
  have started : policy.Inv
      (({ s with data := data }.setState q .RUNNABLE).goto q (.yield .off start)) := by
    refine inv.advance rfl (inv.owned.move (by simp [Program.holds, gone])) (fun r different => ?_)
      (by simp [Pc.Fits, State.goto, State.setState]) trivial ⟨unlocked, awake⟩
      (by simp [Pc.Commits]) (by simp [Pc.Sweeps])
    simpa [State.goto, State.setState, different] using inv.unchanged r
  have kept : (({ s with data := data }.setState q .RUNNABLE).goto q (.yield .off start)).pc p =
      .main m := by simpa [State.goto, State.setState, Ne.symm other] using here
  have fits := started.fits p
  rw [kept] at fits
  refine started.goto (by simpa [Program.holds, kept] using same) (by simpa [Pc.Fits, alike] using fits)
    trivial trivial (by simp [Pc.Commits]) fun chan r _ sweeping => .inl ?_
  rw [kept]
  exact swept chan sweeping

variable [DecidableEq L]

theorem acquire (inv : policy.Inv s) {lock : Lock n L} {next : Pc n L C M}
    (taken : s.acquire p lock next = some t)
    (gains : ∀ other, program.holds p next other ↔ other = lock ∨ program.holds p (s.pc p) other)
    (fits : next.Fits policy.zombie (s.state p)) (channel : next.OnChannel (s.chan p))
    (returns : policy.Returns p next)
    (commits : ∀ chan, next.Commits (s.state p) chan → (s.pc p).Commits (s.state p) chan)
    (sweeps : ∀ chan q, next.Sweeps policy.swept chan q → (s.pc p).Sweeps policy.swept chan q) :
    policy.Inv t := by
  rw [State.acquire] at taken
  split at taken
  · rename_i free
    obtain rfl := Option.some.inj taken
    exact inv.advance rfl (inv.owned.acquire free gains) (fun q _ => inv.unchanged q) fits channel
      returns (fun chan committed => .inl (commits chan committed))
      fun chan q _ sweeping => .inl (sweeps chan q sweeping)
  · simp at taken

theorem release (inv : policy.Inv s) {lock : Lock n L} {next : Pc n L C M}
    (mine : program.holds p (s.pc p) lock)
    (loses : ∀ other, program.holds p next other ↔
      other ≠ lock ∧ program.holds p (s.pc p) other)
    (fits : next.Fits policy.zombie (s.state p)) (channel : next.OnChannel (s.chan p))
    (returns : policy.Returns p next)
    (commits : ∀ chan, next.Commits (s.state p) chan → (s.pc p).Commits (s.state p) chan ∨
      program.holds p (s.pc p) (.named (policy.guard chan)))
    (sweeps : ∀ chan q, next.Sweeps policy.swept chan q → (s.pc p).Sweeps policy.swept chan q) :
    policy.Inv (s.release p lock next) :=
  inv.advance rfl (inv.owned.release mine loses) (fun q _ => inv.unchanged q) fits channel returns
    commits fun chan q _ sweeping => .inl (sweeps chan q sweeping)

theorem sleepStep (inv : policy.Inv s) {stage : SleepStage} {chan : C} {lk : L} {ret : M}
    (here : s.pc p = .sleep stage chan lk ret)
    (taken : sleepStep s p chan lk ret stage = some t) : policy.Inv t := by
  have fits := inv.fits p
  have channel := inv.channel p
  have returns := inv.returns p
  rw [here] at fits channel returns
  obtain ⟨rfl, held, awake, unswept⟩ := id returns
  cases stage <;> simp only [Threads.sleepStep, Option.some.injEq, reduceCtorEq] at taken
  case acquire =>
    exact inv.acquire taken (by simp [Program.holds, here]) fits trivial returns
      (by simp [Pc.Commits]) (by simp [Pc.Sweeps])
  case release =>
    subst t
    exact inv.release (by simp [Program.holds, here]) (by simp [Program.holds, here]; grind) fits
      trivial returns (by simp [Pc.Commits, here, Program.holds]) (by simp [Pc.Sweeps])
  case setChan =>
    subst t
    refine inv.advance rfl (inv.owned.move (by simp [Program.holds, here])) (fun q other => ?_) fits
      (by simp [Pc.OnChannel, State.goto, State.setChan]) returns
      (by simp [Pc.Commits, here]) (by simp [Pc.Sweeps])
    exact ⟨inv.fits q, by simp [State.goto, State.setChan, other], id⟩
  case setState =>
    subst t
    refine inv.advance rfl (inv.owned.move (by simp [Program.holds, here])) (fun q other => ?_)
      (by simp [Pc.Fits, State.goto, State.setState]) channel returns
      (by simp [Pc.Commits, here]) (by simp [Pc.Sweeps])
    simpa [State.goto, State.setState, other] using inv.unchanged q
  case sched =>
    subst t
    exact inv.release (by simp [Program.holds, here]) (by simp [Program.holds, here])
      (.inl fits) channel returns (by simp [Pc.Commits, here]) (by simp [Pc.Sweeps])
  case clearChan =>
    subst t
    refine inv.advance rfl (inv.owned.move (by simp [Program.holds, here])) (fun q other => ?_) fits
      trivial returns (by simp [Pc.Commits]) (by simp [Pc.Sweeps])
    exact ⟨inv.fits q, by simp [State.goto, State.setChan, other], id⟩
  case unlock =>
    subst t
    exact inv.release (by simp [Program.holds, here]) (by simp [Program.holds, here]) fits trivial
      returns (by simp [Pc.Commits]) (by simp [Pc.Sweeps])
  case reacquire =>
    exact inv.acquire taken (by simp [Program.holds, here, held]) (by simpa [Pc.Fits, awake]) trivial
      trivial (by simp [Pc.Commits]) (by simp [Pc.Sweeps, unswept])

theorem yieldStep (inv : policy.Inv s) {stage : YieldStage} {ret : M}
    (here : s.pc p = .yield stage ret) (taken : yieldStep s p ret stage = some t) :
    policy.Inv t := by
  have fits := inv.fits p
  have returns := inv.returns p
  rw [here] at fits returns
  obtain ⟨held, awake⟩ := id returns
  cases stage <;> simp only [Threads.yieldStep, Option.some.injEq, reduceCtorEq] at taken
  case acquire =>
    exact inv.acquire taken (by simp [Program.holds, here]) fits trivial returns
      (by simp [Pc.Commits]) (by simp [Pc.Sweeps])
  case setState =>
    subst t
    refine inv.advance rfl (inv.owned.move (by simp [Program.holds, here])) (fun q other => ?_)
      (by simp [Pc.Fits, State.goto, State.setState]) trivial returns
      (by simp [Pc.Commits]) (by simp [Pc.Sweeps])
    simpa [State.goto, State.setState, other] using inv.unchanged q
  case sched =>
    subst t
    exact inv.release (by simp [Program.holds, here]) (by simp [Program.holds, here]) fits trivial
      returns (by simp [Pc.Commits]) (by simp [Pc.Sweeps])
  case resumed =>
    subst t
    refine inv.release (by simp [Program.holds, here]) (by simp [Program.holds, here, held])
      (by simpa [Pc.Fits, awake]) trivial trivial (by simp [Pc.Commits]) fun chan q sweeping => ?_
    have guard := policy.swept_held p ret chan sweeping
    simp [held] at guard

theorem wakeupStep (inv : policy.Inv s) {i : ℕ} {chan : C} {ret : M}
    (here : s.pc p = .wakeup i chan ret) (taken : wakeupStep s p i chan ret = some t) :
    policy.Inv t := by
  have fits := inv.fits p
  have returns := inv.returns p
  rw [here] at fits returns
  obtain ⟨guard, free, awake, swept⟩ := id returns
  rw [Threads.wakeupStep] at taken
  split at taken
  · split at taken
    · rename_i bound self
      obtain rfl := Option.some.inj taken
      refine inv.goto (by simp [Program.holds, here]) fits trivial returns (by simp [Pc.Commits]) ?_
      rintro other q different ⟨same, below⟩
      have earlier : q.val ≠ i := by
        intro equal
        exact different (by rw [← self]; exact Fin.ext equal)
      exact .inl (by rw [here]; exact ⟨same, by omega⟩)
    · refine inv.acquire taken (by simp [Program.holds, here]) fits trivial returns
        (by simp [Pc.Commits]) (by simp [Pc.Sweeps, here])
  · rename_i past
    obtain rfl := Option.some.inj taken
    refine inv.goto (by simp [Program.holds, here]) (by simpa [Pc.Fits, awake]) trivial trivial
      (by simp [Pc.Commits]) fun other q _ sweeping => .inl ?_
    rw [here]
    exact ⟨(swept other sweeping).symm, by omega⟩

theorem wakeupRelease (inv : policy.Inv s) {q : Fin n} {chan : C} {ret : M}
    (here : s.pc p = .wakeupRelease q chan ret) :
    policy.Inv (s.release p (.proc q) (.wakeup (q.val + 1) chan ret)) := by
  have fits := inv.fits p
  have returns := inv.returns p
  rw [here] at fits returns
  refine inv.release (by simp [Program.holds, here]) (fun lock => ?_) fits trivial returns
    (by simp [Pc.Commits]) ?_
  · simp only [Program.holds, here]
    refine ⟨fun held => ⟨?_, .inr held⟩, fun held => held.2.resolve_left held.1⟩
    rintro rfl
    exact returns.2.1 q held
  · rintro c r ⟨same, below⟩
    rw [here]
    exact ⟨same, by omega⟩

theorem dispatch (inv : policy.Inv s) (taken : dispatch s p = some t) : policy.Inv t := by
  have fits := inv.fits p
  have channel := inv.channel p
  have returns := inv.returns p
  rw [Threads.dispatch] at taken
  split at taken
  · split at taken
    · rename_i chan lk ret here
      rw [State.acquire] at taken
      split at taken
      · rename_i free
        obtain rfl := Option.some.inj taken
        rw [here] at channel returns
        refine inv.advance rfl (inv.owned.acquire free (by simp [Program.holds, here]))
          (fun q other => ?_) (by simp [Pc.Fits, State.goto, State.setState]) channel returns
          (by simp [Pc.Commits]) (by simp [Pc.Sweeps])
        simpa [State.goto, State.setState, other] using inv.unchanged q
      · simp at taken
    · rename_i ret here
      rw [State.acquire] at taken
      split at taken
      · rename_i free
        obtain rfl := Option.some.inj taken
        rw [here] at returns
        refine inv.advance rfl (inv.owned.acquire free (by simp [Program.holds, here]))
          (fun q other => ?_) (by simp [Pc.Fits, State.goto, State.setState]) trivial returns
          (by simp [Pc.Commits]) (by simp [Pc.Sweeps])
        simpa [State.goto, State.setState, other] using inv.unchanged q
      · simp at taken
    · simp at taken
  · simp at taken

theorem perform (inv : policy.Inv s) {m : M} {instr : Instr n L C M D} (here : s.pc p = .main m)
    (allowed : policy.Allowed s p m instr) (taken : perform s p instr = some t) :
    policy.Inv t := by
  have fits := inv.fits p
  rw [here] at fits
  cases instr with
  | goto data next =>
      obtain rfl := Option.some.inj taken
      obtain ⟨same, alike, swept⟩ := allowed
      refine (inv.setData data).goto (by simpa [Program.holds, here] using same)
        (by simpa [Pc.Fits, alike] using fits) trivial trivial (by simp [Pc.Commits])
        fun chan r _ sweeping => .inl ?_
      rw [here]
      exact swept chan sweeping
  | acquire lock next =>
      obtain ⟨gains, alike, swept⟩ := allowed
      refine inv.acquire taken (by simpa [Program.holds, here] using gains)
        (by simpa [Pc.Fits, alike] using fits) trivial trivial (by simp [Pc.Commits])
        fun chan r sweeping => ?_
      rw [here]
      exact swept chan sweeping
  | release lock next =>
      obtain rfl := Option.some.inj taken
      obtain ⟨mine, loses, alike, swept⟩ := allowed
      refine inv.release (by simpa [Program.holds, here] using mine)
        (by simpa [Program.holds, here] using loses)
        (by simpa [Pc.Fits, alike] using fits) trivial trivial (by simp [Pc.Commits])
        fun chan r sweeping => ?_
      rw [here]
      exact swept chan sweeping
  | setState q later data next =>
      obtain rfl := Option.some.inj taken
      exact inv.performSetState here allowed
  | spawn q start data next =>
      obtain rfl := Option.some.inj taken
      exact inv.performSpawn here allowed
  | sleep chan lk next =>
      obtain rfl := Option.some.inj taken
      obtain ⟨rfl, before, after, dozing, awake, unswept⟩ := allowed
      exact inv.goto (by simp [Program.holds, here, before]) (by simpa [Pc.Fits, dozing] using fits)
        trivial ⟨rfl, after, awake, unswept⟩ (by simp [Pc.Commits]) (by simp [Pc.Sweeps])
  | wakeup chan next =>
      obtain rfl := Option.some.inj taken
      obtain ⟨guard, same, free, waking, awake, swept⟩ := allowed
      exact inv.goto (by simpa [Program.holds, here] using same)
        (by simpa [Pc.Fits, waking] using fits) trivial ⟨guard, free, awake, swept⟩
        (by simp [Pc.Commits]) (by simp [Pc.Sweeps])
  | exit =>
      obtain rfl := Option.some.inj taken
      obtain ⟨own, dead⟩ := allowed
      refine inv.release (by simp [Program.holds, here, own]) (by simp [Program.holds, here, own]) ?_
        trivial trivial (by simp [Pc.Commits]) (by simp [Pc.Sweeps])
      exact .inr (.inr (by simpa [Pc.Fits, dead] using fits))

/-- One step of any process. The program's promises are asked for only where it is at one of
its own points. -/
theorem step [DecidableEq C] (inv : policy.Inv s) {event : Event I}
    (allowed : ∀ m input instr, s.pc p = .main m → event = .run input →
      program.code p m s.state s.data input = some instr → policy.Allowed s p m instr)
    (taken : program.step s (p, event) = some t) : policy.Inv t := by
  cases event with
  | dispatch => exact inv.dispatch taken
  | preempt => exact inv.preempt taken
  | run input =>
      simp only [Program.step, Program.run] at taken
      split at taken
      · rename_i m here
        obtain ⟨instr, code, performed⟩ := Option.bind_eq_some_iff.mp taken
        exact inv.perform here (allowed m input instr here rfl code) performed
      · exact inv.sleepStep (by assumption) taken
      · exact inv.wakeupStep (by assumption) taken
      · obtain rfl := Option.some.inj taken
        exact inv.wakeupTestStep (by assumption)
      · obtain rfl := Option.some.inj taken
        exact inv.wakeupRelease (by assumption)
      · exact inv.yieldStep (by assumption) taken
      · simp at taken

end Policy.Inv

theorem Policy.commits_of_step [DecidableEq L] [DecidableEq C] {policy : Policy program}
    {s t : State n L C M D} {p : Fin n} {event : Event I}
    (allowed : ∀ m input instr, s.pc p = .main m → event = .run input →
      program.code p m s.state s.data input = some instr → policy.Allowed s p m instr)
    (taken : program.step s (p, event) = some t) {q : Fin n} {chan : C}
    (committed : (t.pc q).Commits (t.state q) chan) :
    (s.pc q).Commits (s.state q) chan ∨
      q = p ∧ ∃ lk ret, s.pc p = .sleep .release chan lk ret := by
  rcases program.step_cases taken with ⟨m, input, instr, here, ran, code, performed⟩ | internal
  · have promises := allowed m input instr here ran code
    left
    by_cases same : q = p
    · subst q
      cases instr <;> simp only [Threads.perform, Option.some.injEq] at performed
      case acquire =>
        obtain ⟨-, rfl⟩ := acquire_eq_some performed
        simp [State.goto, Pc.Commits] at committed
      all_goals
        subst t
        simp [State.goto, State.release, Pc.Commits] at committed
    · cases instr <;> simp only [Threads.perform, Option.some.injEq] at performed
      case acquire =>
        obtain ⟨-, rfl⟩ := acquire_eq_some performed
        simpa [State.goto, same] using committed
      case setState r later data next =>
        subst t
        simp only [State.goto, State.setState, Function.update_of_ne same] at committed
        refine committed.mono fun sleeping => ?_
        by_cases target : q = r
        · subst r
          rw [Function.update_self] at sleeping
          rcases promises.2.2.2 with ⟨self, -⟩ | ⟨-, -, ⟨-, rfl⟩ | ⟨-, rfl | rfl⟩⟩
          · exact absurd self same
          all_goals simp at sleeping
        · rwa [Function.update_of_ne target] at sleeping
      case spawn r start data next =>
        subst t
        by_cases target : q = r
        · subst r
          simp [State.goto, State.setState, same, Pc.Commits] at committed
        · simpa [State.goto, State.setState, same, target] using committed
      all_goals
        subst t
        simpa [State.goto, State.release, same] using committed
  · obtain ⟨next, pc, flow⟩ := internal.pc
    by_cases same : q = p
    · subst q
      rw [pc, Function.update_self] at committed
      generalize position : s.pc p = before at flow
      cases flow with
      | @sleep stage next chan' lk ret follows =>
          cases stage with
          | release =>
              cases follows
              exact .inr ⟨rfl, lk, ret, by rw [← show chan' = chan from committed]⟩
          | sched =>
              cases follows
              exact .inl committed.1
          | setChan | setState =>
              cases follows
              exact .inl committed
          | acquire | asleep | clearChan | unlock =>
              cases follows
              simp [Pc.Commits] at committed
          | reacquire => cases follows
      | @waking before after c ret first second =>
          cases next <;> simp [Pc.Waking, Pc.Commits] at second committed
      | _ => simp [Pc.Commits] at committed
    · rw [pc, Function.update_of_ne same] at committed
      refine .inl (committed.mono fun sleeping => ?_)
      rcases internal.others q same with kept | ⟨before, after⟩
      · rwa [← kept]
      · exact before

def Live (state : Procstate) : Prop := state = .SLEEPING ∨ state = .RUNNABLE ∨ state = .RUNNING

theorem Program.Internal.live {policy : Policy program} {s t : State n L C M D} {p : Fin n}
    (internal : program.Internal s t p) (inv : policy.Inv s) (q : Fin n) :
    t.state q = s.state q ∨ Live (s.state q) ∧ Live (t.state q) := by
  by_cases same : q = p
  · subst q
    have fits := inv.fits p
    obtain ⟨next, -, flow⟩ := internal.pc
    have before : Live (s.state p) := by
      generalize position : s.pc p = pc at flow fits
      cases flow with
      | @sleep stage => cases stage <;> grind [Pc.Fits, Live]
      | slept | woken | resumed => simp_all [Pc.Fits, Live]
      | waking first second => cases pc <;> simp_all [Pc.Waking, Pc.Fits, Live]
      | @preempt m unlocked =>
          cases dead : policy.zombie m
          · simp_all [Pc.Fits, Live]
          · have own := policy.zombie_held p m dead
            simp [unlocked] at own
      | @yield stage => cases stage <;> simp_all [Pc.Fits, Live]
    rcases internal.own with kept | ⟨after, -⟩ | after | after
    · exact .inl kept
    all_goals exact .inr ⟨before, by simp [after, Live]⟩
  · rcases internal.others q same with kept | ⟨before, after⟩
    · exact .inl kept
    · exact .inr ⟨.inl before, .inr (.inl after)⟩

end OsLab.Kernel.Threads
