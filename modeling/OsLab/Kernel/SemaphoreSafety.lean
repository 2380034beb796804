import OsLab.Kernel.Semaphore
import Mathlib.Algebra.Order.BigOperators.Group.Finset

/-!
What the semaphores guarantee: the counts are exact and never negative, no wakeup is
lost, and processes that post only after their own wait exclude each other.
-/

namespace OsLab.Kernel.Semaphore

open OsLab.Library OsLab.Kernel.Threads

variable {n : ℕ}

abbrev SemState (n : ℕ) := State n SemId SemId (Point n) (Data n)

def totalPosts (data : Data n) (id : SemId) : ℕ := ∑ p, data.posts p id

def totalWaits (data : Data n) (id : SemId) : ℕ := ∑ p, data.waits p id

theorem allowed {s : SemState n} (inv : policy.Inv s) {p : Fin n} {m : Point n} {call : Call}
    {instr : Instr n SemId SemId (Point n) (Data n)} (here : s.pc p = .main m)
    (ran : program.code p m s.state s.data call = some instr) : policy.Allowed s p m instr := by
  cases m with
  | user =>
      cases call with
      | semWait id =>
          obtain rfl := Option.some.inj ran
          cases semOf id <;> simp [Policy.Allowed, program, held, policy]
      | semPost id =>
          obtain rfl := Option.some.inj ran
          cases semOf id <;> simp [Policy.Allowed, program, held, policy]
      | kkill pid =>
          obtain rfl := Option.some.inj ran
          simp [Policy.Allowed, program, held, policy]
  | waitTest id =>
      simp only [program, code] at ran
      split at ran <;> obtain rfl := Option.some.inj ran <;>
        simp [Policy.Allowed, program, held, policy]
  | kill pid i =>
      simp only [program, code] at ran
      split at ran <;> obtain rfl := Option.some.inj ran <;>
        simp [Policy.Allowed, program, held, policy]
  | killTest pid q =>
      have fits := inv.fits p
      simp only [here, Pc.Fits, policy] at fits
      simp only [program, code] at ran
      split at ran
      · split at ran
        · rename_i sleeping
          obtain rfl := Option.some.inj ran
          refine ⟨by simp [program, held], by simp [program, held], by simp [policy], .inr ⟨?_, rfl, ?_⟩⟩
          · rintro rfl
            simp [sleeping] at fits
          · exact .inl ⟨sleeping, rfl⟩
        · obtain rfl := Option.some.inj ran
          simp [Policy.Allowed, program, held, policy]
      · obtain rfl := Option.some.inj ran
        simp [Policy.Allowed, program, held, policy]
  | _ =>
      obtain rfl := Option.some.inj ran
      simp [Policy.Allowed, program, held, policy]

def Posting (id : SemId) (pc : Pc n SemId SemId (Point n)) : Prop :=
  pc = .main (.postWakeup id) ∨ pc.Waking id (.postRelease id)

structure Shape (pc : Pc n SemId SemId (Point n)) : Prop where
  sleeps : ∀ stage chan lk ret, pc = .sleep stage chan lk ret → ret = .waitTest chan
  wakes : ∀ chan ret, pc.Waking chan ret → ret = .postRelease chan

theorem Shape.main (m : Point n) : Shape (.main m) := ⟨by simp, by simp [Pc.Waking]⟩

/-- The process has tested the count and still holds the lock it tested it under. -/
def Drained (id : SemId) (pc : Pc n SemId SemId (Point n)) : Prop :=
  ∃ lk ret, pc = .sleep .acquire id lk ret ∨ pc = .sleep .release id lk ret

structure Sound (s : SemState n) : Prop where
  threads : policy.Inv s
  shape : ∀ p, Shape (s.pc p)
  take : ∀ p id, s.pc p = .main (.waitTake id) → 0 < s.data.count id
  drained : ∀ p id, Drained id (s.pc p) → s.data.count id ≤ 0
  wake : ∀ q id, (s.pc q).Commits (s.state q) id → 0 < s.data.count id →
    ∃ poster, Posting id (s.pc poster)
  tally : ∀ id, totalPosts s.data id < 2 ^ 31 - 1 →
    s.data.count id = 1 + totalPosts s.data id - totalWaits s.data id ∧ 0 ≤ s.data.count id

theorem Drained.holds {id : SemId} {p : Fin n} {pc : Pc n SemId SemId (Point n)}
    (returns : policy.Returns p pc) (drained : Drained id pc) :
    program.holds p pc (.named id) := by
  obtain ⟨lk, ret, rfl | rfl⟩ := drained <;> simp [Program.holds, returns.1, policy]

theorem Posting.holds {id : SemId} {p : Fin n} {pc : Pc n SemId SemId (Point n)}
    (posting : Posting id pc) : program.holds p pc (.named id) := by
  rcases posting with rfl | waking
  · simp [Program.holds, program, held]
  · cases pc <;> simp only [Pc.Waking] at waking
    all_goals
      obtain ⟨rfl, rfl⟩ := waking
      simp [Program.holds, program, held]

theorem Sound.quiet {s t : SemState n} (sound : Sound s) {p : Fin n}
    {next : Pc n SemId SemId (Point n)} (threads : policy.Inv t) (data : t.data = s.data)
    (moved : t.pc = Function.update s.pc p next)
    (commits : ∀ q id, (t.pc q).Commits (t.state q) id → (s.pc q).Commits (s.state q) id ∨
      q = p ∧ ∃ lk ret, s.pc p = .sleep .release id lk ret)
    (shape : Shape next) (take : ∀ id, next = .main (.waitTake id) → 0 < s.data.count id)
    (drained : ∀ id, Drained id next → s.data.count id ≤ 0)
    (posting : ∀ id, Posting id (s.pc p) → Posting id next ∨
      ∀ q, ¬ (s.pc q).Commits (s.state q) id) : Sound t := by
  have self : t.pc p = next := by rw [moved, Function.update_self]
  have rest : ∀ q, q ≠ p → t.pc q = s.pc q := fun q other => by
    rw [moved, Function.update_of_ne other]
  refine ⟨threads, fun q => ?_, fun q id => ?_, fun q id => ?_, fun q id committed positive => ?_,
    by rw [data]; exact sound.tally⟩
  · by_cases same : q = p
    · subst q
      rwa [self]
    · rw [rest q same]
      exact sound.shape q
  · rw [data]
    by_cases same : q = p
    · subst q
      rw [self]
      exact take id
    · rw [rest q same]
      exact sound.take q id
  · rw [data]
    by_cases same : q = p
    · subst q
      rw [self]
      exact drained id
    · rw [rest q same]
      exact sound.drained q id
  · rw [data] at positive
    rcases commits q id committed with before | ⟨-, lk, ret, here⟩
    · obtain ⟨poster, still⟩ := sound.wake q id before positive
      by_cases same : poster = p
      · subst poster
        rcases posting id still with later | clear
        · exact ⟨p, by rwa [self]⟩
        · exact absurd before (clear q)
      · exact ⟨poster, by rwa [rest poster same]⟩
    · have empty := sound.drained p id ⟨lk, ret, .inr here⟩
      omega

theorem Sound.internal {s t : SemState n} (sound : Sound s) {p : Fin n} (threads : policy.Inv t)
    (commits : ∀ q id, (t.pc q).Commits (t.state q) id → (s.pc q).Commits (s.state q) id ∨
      q = p ∧ ∃ lk ret, s.pc p = .sleep .release id lk ret)
    (internal : program.Internal s t p) : Sound t := by
  obtain ⟨next, moved, flow⟩ := internal.pc
  have shape := sound.shape p
  have swept := sound.threads.swept p
  have drained := sound.drained p
  have returns := sound.threads.returns p
  refine sound.quiet threads internal.data moved commits ?_ ?_ ?_ ?_
  all_goals generalize s.pc p = before at flow shape swept drained returns
  · cases flow with
    | sleep =>
        refine ⟨?_, by simp [Pc.Waking]⟩
        rintro _ _ _ _ ⟨⟩
        exact shape.sleeps _ _ _ _ rfl
    | waking first second =>
        refine ⟨?_, fun chan ret again => ?_⟩
        · rintro _ _ _ _ rfl
          simp [Pc.Waking] at second
        · obtain ⟨rfl, rfl⟩ := second.unique again
          exact shape.wakes _ _ first
    | slept | woken | resumed => exact .main _
    | preempt | yield => exact ⟨by simp, by simp [Pc.Waking]⟩
  · intro id here
    cases flow with
    | slept => simp [shape.sleeps _ _ _ _ rfl] at here
    | woken => simp [shape.wakes _ _ ⟨rfl, rfl⟩] at here
    | waking first second =>
        subst next
        simp [Pc.Waking] at second
    | resumed =>
        cases here
        simp [Policy.Returns, program, held] at returns
    | _ => simp at here
  · intro id later
    cases flow with
    | @sleep stage _ _ _ _ follows =>
        obtain ⟨lk, ret, early | early⟩ := later
        · cases early
          cases stage <;> simp [SleepStage.next] at follows
        · cases early
          cases stage <;> simp [SleepStage.next] at follows
          exact drained id ⟨_, _, .inl rfl⟩
    | waking first second =>
        obtain ⟨lk, ret, rfl | rfl⟩ := later <;> simp [Pc.Waking] at second
    | _ => simp [Drained] at later
  · intro id posting
    cases flow with
    | waking first second =>
        rcases posting with rfl | again
        · simp [Pc.Waking] at first
        · obtain ⟨rfl, rfl⟩ := first.unique again
          exact .inl (.inr second)
    | @woken i chan ret past =>
        refine .inr fun q => swept id q ⟨?_, by omega⟩
        rcases posting with impossible | waking
        · simp at impossible
        · exact waking.1
    | preempt unlocked =>
        rcases posting with here | waking
        · cases here
          simp [program, held] at unlocked
        · simp [Pc.Waking] at waking
    | _ => simp [Posting, Pc.Waking] at posting

theorem Sound.plain {s t : SemState n} (sound : Sound s) {p : Fin n} {m next : Point n}
    (here : s.pc p = .main m) (threads : policy.Inv t) (data : t.data = s.data)
    (moved : t.pc = Function.update s.pc p (.main next))
    (commits : ∀ q id, (t.pc q).Commits (t.state q) id → (s.pc q).Commits (s.state q) id ∨
      q = p ∧ ∃ lk ret, s.pc p = .sleep .release id lk ret)
    (before : ∀ id, m ≠ .postWakeup id) (after : ∀ id, next ≠ .waitTake id) : Sound t := by
  refine sound.quiet threads data moved commits (.main next) (fun id into => ?_)
    (fun id later => ?_) fun id posting => ?_
  · exact absurd (Pc.main.inj into) (after id)
  · simp [Drained] at later
  · rw [here] at posting
    rcases posting with start | waking
    · exact absurd (Pc.main.inj start) (before id)
    · simp [Pc.Waking] at waking

theorem bump_apply (record : Fin n → SemId → ℕ) (p q : Fin n) (id other : SemId) :
    Data.bump record p id q other = record q other + if q = p ∧ other = id then 1 else 0 := by
  by_cases same : q = p
  · subst q
    by_cases target : other = id
    · subst other
      simp [Data.bump]
    · simp [Data.bump, target]
  · simp [Data.bump, same]

theorem sum_bump (record : Fin n → SemId → ℕ) (p : Fin n) (id other : SemId) :
    ∑ q, Data.bump record p id q other = (∑ q, record q other) + if other = id then 1 else 0 := by
  simp only [bump_apply, Finset.sum_add_distrib]
  by_cases target : other = id <;> simp [target]

theorem totalPosts_add (data : Data n) (p : Fin n) (id other : SemId) :
    totalPosts (data.add p id) other = totalPosts data other + if other = id then 1 else 0 :=
  sum_bump data.posts p id other

theorem totalWaits_take (data : Data n) (p : Fin n) (id other : SemId) :
    totalWaits (data.take p id) other = totalWaits data other + if other = id then 1 else 0 :=
  sum_bump data.waits p id other

theorem wrap_eq {x : Int} (low : -2 ^ 31 ≤ x) (high : x < 2 ^ 31) : wrap x = x := by
  unfold wrap
  rw [Int.bmod_def]
  omega

theorem Sound.changed {s : SemState n} (sound : Sound s) {p : Fin n} {m next : Point n}
    {id : SemId} {data : Data n} (here : s.pc p = .main m)
    (holds : program.holds p (s.pc p) (.named id))
    (threads : policy.Inv ({ s with data := data }.goto p (.main next)))
    (others : ∀ other, other ≠ id → data.count other = s.data.count other)
    (after : ∀ other, next ≠ .waitTake other)
    (wake : ∀ q, (s.pc q).Commits (s.state q) id → 0 < data.count id → next = .postWakeup id)
    (still : ∀ other, other ≠ id → m ≠ .postWakeup other)
    (tally : ∀ other, totalPosts data other < 2 ^ 31 - 1 →
      data.count other = 1 + totalPosts data other - totalWaits data other ∧
        0 ≤ data.count other) :
    Sound ({ s with data := data }.goto p (.main next)) := by
  have rest : ∀ q, q ≠ p → ({ s with data := data }.goto p (.main next)).pc q = s.pc q :=
    fun q other => Function.update_of_ne other _ _
  have self : ({ s with data := data }.goto p (.main next)).pc p = .main next :=
    Function.update_self ..
  refine ⟨threads, fun q => ?_, fun q other => ?_, fun q other => ?_,
    fun q other committed positive => ?_, tally⟩
  · by_cases same : q = p
    · subst q
      rw [self]
      exact .main next
    · rw [rest q same]
      exact sound.shape q
  · by_cases same : q = p
    · subst q
      rw [self]
      exact fun into => absurd (Pc.main.inj into) (after other)
    · rw [rest q same]
      intro into
      have theirs : program.holds q (s.pc q) (.named other) := by
        simp [into, Program.holds, program, held]
      have different : other ≠ id := by
        rintro rfl
        exact same (sound.threads.owned.exclusive theirs holds)
      exact (others other different).symm ▸ sound.take q other into
  · by_cases same : q = p
    · subst q
      rw [self]
      exact fun later => by simp [Drained] at later
    · rw [rest q same]
      intro later
      have theirs := later.holds (sound.threads.returns q)
      have different : other ≠ id := by
        rintro rfl
        exact same (sound.threads.owned.exclusive theirs holds)
      exact (others other different).symm ▸ sound.drained q other later
  · have awake : q ≠ p := by
      rintro rfl
      rw [self] at committed
      exact committed
    rw [rest q awake] at committed
    by_cases target : other = id
    · subst other
      exact ⟨p, .inl (by rw [self, wake q committed positive])⟩
    · obtain ⟨poster, posting⟩ := sound.wake q other committed
        (by rwa [← others other target])
      have elsewhere : poster ≠ p := by
        rintro rfl
        rw [here] at posting
        rcases posting with start | waking
        · exact still other target (Pc.main.inj start)
        · exact waking
      exact ⟨poster, by rwa [rest poster elsewhere]⟩

theorem take_count_other (data : Data n) (p : Fin n) {id other : SemId} (different : other ≠ id) :
    (data.take p id).count other = data.count other := by simp [Data.take, different]

theorem add_count_other (data : Data n) (p : Fin n) {id other : SemId} (different : other ≠ id) :
    (data.add p id).count other = data.count other := by simp [Data.add, different]

theorem Sound.decrement {s : SemState n} (sound : Sound s) {p : Fin n} {id : SemId}
    (here : s.pc p = .main (.waitTake id))
    (threads : policy.Inv ({ s with data := s.data.take p id }.goto p (.main (.waitRelease id)))) :
    Sound ({ s with data := s.data.take p id }.goto p (.main (.waitRelease id))) := by
  have holds : program.holds p (s.pc p) (.named id) := by
    simp [here, Program.holds, program, held]
  have positive := sound.take p id here
  refine sound.changed here holds threads (fun other => take_count_other s.data p) (by simp)
    (fun q committed _ => ?_) (by simp) fun other bound => ?_
  · obtain ⟨poster, posting⟩ := sound.wake q id committed positive
    obtain rfl := sound.threads.owned.exclusive posting.holds holds
    rw [here] at posting
    rcases posting with start | waking
    · simp at start
    · exact absurd waking (by simp [Pc.Waking])
  · rw [totalWaits_take]
    have kept : totalPosts (s.data.take p id) other = totalPosts s.data other := rfl
    rw [kept] at bound ⊢
    obtain ⟨exact, nonneg⟩ := sound.tally other bound
    by_cases target : other = id
    · subst other
      have count : (s.data.take p id).count id = s.data.count id - 1 := by
        simp only [Data.take, Function.update_self]
        exact wrap_eq (by omega) (by omega)
      rw [count, if_pos rfl]
      push_cast
      omega
    · rw [take_count_other s.data p target, if_neg target]
      exact ⟨exact, nonneg⟩

theorem Sound.increment {s : SemState n} (sound : Sound s) {p : Fin n} {id : SemId}
    (here : s.pc p = .main (.postAdd id))
    (threads : policy.Inv ({ s with data := s.data.add p id }.goto p (.main (.postWakeup id)))) :
    Sound ({ s with data := s.data.add p id }.goto p (.main (.postWakeup id))) := by
  have holds : program.holds p (s.pc p) (.named id) := by
    simp [here, Program.holds, program, held]
  refine sound.changed here holds threads (fun other => add_count_other s.data p) (by simp)
    (fun _ _ _ => rfl) (by simp) fun other bound => ?_
  have kept : totalWaits (s.data.add p id) other = totalWaits s.data other := rfl
  rw [totalPosts_add] at bound ⊢
  rw [kept]
  by_cases target : other = id
  · subst other
    rw [if_pos rfl] at bound ⊢
    obtain ⟨exact, nonneg⟩ := sound.tally id (by omega)
    have count : (s.data.add p id).count id = s.data.count id + 1 := by
      simp only [Data.add, Function.update_self]
      exact wrap_eq (by omega) (by omega)
    rw [count]
    push_cast
    omega
  · rw [if_neg target] at bound ⊢
    rw [add_count_other s.data p target]
    exact sound.tally other (by omega)

theorem Sound.perform {s t : SemState n} (sound : Sound s) {p : Fin n} {m : Point n} {call : Call}
    {instr : Instr n SemId SemId (Point n) (Data n)} (here : s.pc p = .main m)
    (ran : program.code p m s.state s.data call = some instr)
    (performed : perform s p instr = some t) (threads : policy.Inv t)
    (commits : ∀ q id, (t.pc q).Commits (t.state q) id → (s.pc q).Commits (s.state q) id ∨
      q = p ∧ ∃ lk ret, s.pc p = .sleep .release id lk ret) : Sound t := by
  cases m with
  | user =>
      cases call <;> obtain rfl := Option.some.inj ran <;> obtain rfl := Option.some.inj performed
      case semWait id =>
        refine sound.plain here threads rfl rfl commits (by simp) ?_
        cases semOf id <;> simp
      case semPost id =>
        refine sound.plain here threads rfl rfl commits (by simp) ?_
        cases semOf id <;> simp
      case kkill pid => exact sound.plain here threads rfl rfl commits (by simp) (by simp)
  | waitAcquire id | postAcquire id =>
      obtain rfl := Option.some.inj ran
      obtain ⟨-, rfl⟩ := acquire_eq_some performed
      exact sound.plain here threads rfl rfl commits (by simp) (by simp)
  | waitRelease id | postRelease id | killNext pid q | killDone q =>
      obtain rfl := Option.some.inj ran
      obtain rfl := Option.some.inj performed
      exact sound.plain here threads rfl rfl commits (by simp) (by simp)
  | waitTest id =>
      simp only [program, code] at ran
      have quiet : ∀ other, ¬ Posting other (s.pc p) := by
        simp [here, Posting, Pc.Waking]
      split at ran
      · rename_i empty
        obtain rfl := Option.some.inj ran
        obtain rfl := Option.some.inj performed
        refine sound.quiet threads rfl rfl commits ⟨?_, by simp [Pc.Waking]⟩ (by simp) ?_
          fun other posting => absurd posting (quiet other)
        · rintro _ _ _ _ ⟨⟩
          rfl
        · rintro other ⟨lk, ret, start | start⟩
          · cases start
            exact empty
          · simp at start
      · rename_i filled
        obtain rfl := Option.some.inj ran
        obtain rfl := Option.some.inj performed
        refine sound.quiet threads rfl rfl commits (.main _) ?_ (by simp [Drained])
          fun other posting => absurd posting (quiet other)
        rintro other into
        cases into
        omega
  | waitTake id =>
      obtain rfl := Option.some.inj ran
      obtain rfl := Option.some.inj performed
      exact sound.decrement here threads
  | postAdd id =>
      obtain rfl := Option.some.inj ran
      obtain rfl := Option.some.inj performed
      exact sound.increment here threads
  | postWakeup id =>
      obtain rfl := Option.some.inj ran
      obtain rfl := Option.some.inj performed
      refine sound.quiet threads rfl rfl commits ⟨by simp, fun chan ret waking => ?_⟩ (by simp)
        (by simp [Drained]) fun other posting => .inl (.inr ?_)
      · obtain ⟨rfl, rfl⟩ := waking
        rfl
      · rw [here] at posting
        rcases posting with start | waking
        · cases start
          exact ⟨rfl, rfl⟩
        · exact absurd waking (by simp [Pc.Waking])
  | kill pid i =>
      simp only [program, code] at ran
      split at ran
      · obtain rfl := Option.some.inj ran
        obtain ⟨-, rfl⟩ := acquire_eq_some performed
        exact sound.plain here threads rfl rfl commits (by simp) (by simp)
      · obtain rfl := Option.some.inj ran
        obtain rfl := Option.some.inj performed
        exact sound.plain here threads rfl rfl commits (by simp) (by simp)
  | killTest pid q =>
      simp only [program, code] at ran
      split at ran
      · split at ran <;> obtain rfl := Option.some.inj ran <;>
          obtain rfl := Option.some.inj performed
        all_goals exact sound.plain here threads rfl rfl commits (by simp) (by simp)
      · obtain rfl := Option.some.inj ran
        obtain rfl := Option.some.inj performed
        exact sound.plain here threads rfl rfl commits (by simp) (by simp)

theorem step_sound {s t : SemState n} {p : Fin n} {event : Event Call} (sound : Sound s)
    (taken : program.step s (p, event) = some t) : Sound t := by
  have promises : ∀ m call instr, s.pc p = .main m → event = .run call →
      program.code p m s.state s.data call = some instr → policy.Allowed s p m instr :=
    fun m call instr here _ ran => allowed sound.threads here ran
  have threads := sound.threads.step promises taken
  have commits : ∀ q id, (t.pc q).Commits (t.state q) id →
      (s.pc q).Commits (s.state q) id ∨ q = p ∧ ∃ lk ret, s.pc p = .sleep .release id lk ret :=
    fun q id committed => Policy.commits_of_step promises taken committed
  rcases program.step_cases taken with ⟨m, call, instr, here, -, ran, performed⟩ | internal
  · exact sound.perform here ran performed threads commits
  · exact sound.internal threads commits internal

theorem start_sound (pid : Fin n → Int) : Sound (start pid) := by
  refine ⟨⟨?_, ?_, ?_, ?_, ?_⟩, ?_, ?_, ?_, ?_, ?_⟩
  · intro lock p
    simp [start, Program.holds]
  · simp [start, Pc.Fits]
  · simp [start, Pc.OnChannel]
  · simp [start, Policy.Returns, program, held, policy]
  · simp [start, Pc.Commits]
  · exact fun p => ⟨by simp [start], by simp [start, Pc.Waking]⟩
  · simp [start]
  · simp [start, Drained]
  · simp [start, Pc.Commits]
  · simp [start, totalPosts, totalWaits]

theorem sound_of_reachable {s : SemState n} (reachable : system.Reachable s) : Sound s := by
  refine System.Reachable.invariant ?_ ?_ reachable
  · rintro _ ⟨pid, rfl⟩
    exact start_sound pid
  · rintro before ⟨p, event⟩ after sound taken
    exact step_sound sound taken

/-! ### Mutual exclusion -/

/-- A process calls `sys_sem_post` only with a completed wait of its own outstanding. -/
def PostsAfterWait (s : SemState n) : Fin n × Event Call → Prop
  | (p, .run (.semPost id)) => s.pc p = .main .user → ∀ sem, semOf id = some sem →
      s.data.posts p sem < s.data.waits p sem
  | _ => True

/-- From the decrement that completes a wait to the increment of the post. -/
def Inside (data : Data n) (id : SemId) (p : Fin n) : Prop := data.posts p id < data.waits p id

/-- The process is about to return from `sys_sem_wait`, or in a `sys_sem_post` that has not
incremented yet. -/
def Owes (id : SemId) (pc : Pc n SemId SemId (Point n)) : Prop :=
  pc = .main (.waitRelease id) ∨ pc = .main (.postAcquire id) ∨ pc = .main (.postAdd id) ∨
    ∃ stage, pc = .yield stage (.postAcquire id)

structure Fair (s : SemState n) : Prop where
  balance : ∀ p id, s.data.posts p id ≤ s.data.waits p id
  owes : ∀ p id, Owes id (s.pc p) → Inside s.data id p

theorem Fair.quiet {s t : SemState n} (fair : Fair s) {p : Fin n}
    {next : Pc n SemId SemId (Point n)} (data : t.data = s.data)
    (moved : t.pc = Function.update s.pc p next)
    (owes : ∀ id, Owes id next → Owes id (s.pc p) ∨ Inside s.data id p) : Fair t := by
  refine ⟨by rw [data]; exact fair.balance, fun q id => ?_⟩
  rw [data, moved]
  by_cases same : q = p
  · subst q
    rw [Function.update_self]
    intro due
    rcases owes id due with before | inside
    · exact fair.owes p id before
    · exact inside
  · rw [Function.update_of_ne same]
    exact fair.owes q id

theorem Fair.internal {s t : SemState n} (fair : Fair s) {p : Fin n} (sound : Sound s)
    (internal : program.Internal s t p) : Fair t := by
  obtain ⟨next, moved, flow⟩ := internal.pc
  have shape := sound.shape p
  have returns := sound.threads.returns p
  refine fair.quiet internal.data moved fun id due => .inl ?_
  generalize s.pc p = before at flow shape returns
  cases flow with
  | sleep => simp [Owes] at due
  | slept => simp [shape.sleeps _ _ _ _ rfl, Owes] at due
  | woken => simp [shape.wakes _ _ ⟨rfl, rfl⟩, Owes] at due
  | waking first second =>
      rcases due with rfl | rfl | rfl | ⟨stage, rfl⟩ <;> simp [Pc.Waking] at second
  | preempt unlocked =>
      rcases due with into | into | into | ⟨stage, into⟩
      · simp at into
      · simp at into
      · simp at into
      · exact .inr (.inl (by rw [(Pc.yield.inj into).2]))
  | yield =>
      rcases due with into | into | into | ⟨stage, into⟩
      · simp at into
      · simp at into
      · simp at into
      · exact .inr (.inr (.inr ⟨_, by rw [(Pc.yield.inj into).2]⟩))
  | resumed =>
      rcases due with into | into | into | ⟨stage, into⟩
      · simp [Pc.main.inj into, Policy.Returns, program, held] at returns
      · exact .inr (.inr (.inr ⟨_, by rw [Pc.main.inj into]⟩))
      · simp [Pc.main.inj into, Policy.Returns, program, held] at returns
      · simp at into

theorem Fair.perform {s t : SemState n} (fair : Fair s) {p : Fin n} {m : Point n} {call : Call}
    {instr : Instr n SemId SemId (Point n) (Data n)} (here : s.pc p = .main m)
    (disciplined : PostsAfterWait s (p, .run call))
    (ran : program.code p m s.state s.data call = some instr)
    (performed : perform s p instr = some t) : Fair t := by
  cases m with
  | user =>
      cases call <;> obtain rfl := Option.some.inj ran <;> obtain rfl := Option.some.inj performed
      case semWait id =>
        refine fair.quiet rfl rfl fun other due => ?_
        cases sem : semOf id <;> simp [sem, Owes] at due
      case semPost id =>
        refine fair.quiet rfl rfl fun other due => .inr ?_
        cases sem : semOf id with
        | none => simp [sem, Owes] at due
        | some target =>
            obtain rfl : target = other := by simpa [sem, Owes] using due
            exact disciplined here target sem
      case kkill pid => exact fair.quiet rfl rfl (by simp [Owes])
  | waitAcquire id =>
      obtain rfl := Option.some.inj ran
      obtain ⟨-, rfl⟩ := acquire_eq_some performed
      exact fair.quiet rfl rfl (by simp [Owes])
  | postAcquire id =>
      obtain rfl := Option.some.inj ran
      obtain ⟨-, rfl⟩ := acquire_eq_some performed
      refine fair.quiet rfl rfl fun other due => .inl ?_
      obtain rfl : id = other := by simpa [Owes] using due
      exact .inr (.inl here)
  | waitTest id =>
      simp only [program, code] at ran
      split at ran <;> obtain rfl := Option.some.inj ran <;>
        obtain rfl := Option.some.inj performed
      all_goals exact fair.quiet rfl rfl (by simp [Owes])
  | waitTake id =>
      obtain rfl := Option.some.inj ran
      obtain rfl := Option.some.inj performed
      have more : ∀ q other, s.data.waits q other ≤ (s.data.take p id).waits q other := by
        intro q other
        simp [Data.take, bump_apply]
      refine ⟨fun q other => (fair.balance q other).trans (more q other), fun q other due => ?_⟩
      by_cases same : q = p
      · subst same
        obtain rfl : id = other := by simpa [State.goto, Owes] using due
        have before := fair.balance q id
        have once : (s.data.take q id).waits q id = s.data.waits q id + 1 := by
          simp [Data.take, bump_apply]
        exact (Nat.lt_succ_of_le before).trans_eq once.symm
      · refine (?_ : Inside s.data other q).trans_le (more q other)
        exact fair.owes q other (by simpa [State.goto, same] using due)
  | postAdd id =>
      obtain rfl := Option.some.inj ran
      obtain rfl := Option.some.inj performed
      have inside : Inside s.data id p := fair.owes p id (.inr (.inr (.inl here)))
      have kept : ∀ q other, q ≠ p → (s.data.add p id).posts q other = s.data.posts q other := by
        intro q other different
        simp [Data.add, bump_apply, different]
      refine ⟨fun q other => ?_, fun q other due => ?_⟩
      · change (s.data.add p id).posts q other ≤ s.data.waits q other
        simp only [Data.add, bump_apply]
        split
        · rename_i target
          obtain ⟨rfl, rfl⟩ := target
          exact inside
        · exact fair.balance q other
      · by_cases same : q = p
        · subst q
          simp [State.goto, Owes] at due
        · change (s.data.add p id).posts q other < s.data.waits q other
          rw [kept q other same]
          exact fair.owes q other (by simpa [State.goto, same] using due)
  | waitRelease id | postRelease id | postWakeup id | killNext pid q | killDone q =>
      obtain rfl := Option.some.inj ran
      obtain rfl := Option.some.inj performed
      exact fair.quiet rfl rfl (by simp [Owes])
  | kill pid i =>
      simp only [program, code] at ran
      split at ran
      · obtain rfl := Option.some.inj ran
        obtain ⟨-, rfl⟩ := acquire_eq_some performed
        exact fair.quiet rfl rfl (by simp [Owes])
      · obtain rfl := Option.some.inj ran
        obtain rfl := Option.some.inj performed
        exact fair.quiet rfl rfl (by simp [Owes])
  | killTest pid q =>
      simp only [program, code] at ran
      split at ran
      · split at ran <;> obtain rfl := Option.some.inj ran <;>
          obtain rfl := Option.some.inj performed
        all_goals exact fair.quiet rfl rfl (by simp [Owes])
      · obtain rfl := Option.some.inj ran
        obtain rfl := Option.some.inj performed
        exact fair.quiet rfl rfl (by simp [Owes])

theorem fair_of_reachable {s : SemState n}
    (reachable : (system.restrict PostsAfterWait).Reachable s) : Fair s := by
  refine System.Reachable.invariantWith (fun _ earlier => sound_of_reachable earlier.unrestrict)
    ?_ ?_ reachable
  · rintro _ ⟨pid, rfl⟩
    exact ⟨by simp [start], by simp [start, Owes]⟩
  · rintro before ⟨p, event⟩ after sound - fair ⟨disciplined, taken⟩
    rcases program.step_cases taken with ⟨m, call, instr, here, rfl, ran, performed⟩ | internal
    · exact fair.perform here disciplined ran performed
    · exact fair.internal sound internal

theorem inside_unique {data : Data n} {id : SemId} (balance : ∀ p, data.posts p id ≤ data.waits p id)
    (tally : totalWaits data id ≤ 1 + totalPosts data id) {p q : Fin n} (one : Inside data id p)
    (two : Inside data id q) : p = q := by
  by_contra different
  have each : ∀ r ∈ Finset.univ, data.posts r id + ((if r = p then 1 else 0) +
      if r = q then 1 else 0) ≤ data.waits r id := by
    intro r _
    have := balance r
    unfold Inside at one two
    by_cases first : r = p
    · subst r
      simp [different]
      omega
    · by_cases second : r = q
      · subst r
        simp [first]
        omega
      · simpa [first, second] using this
  have total := Finset.sum_le_sum each
  simp only [Finset.sum_add_distrib, Finset.sum_ite_eq', Finset.mem_univ, if_true] at total
  unfold totalWaits totalPosts at tally
  omega

theorem inside_of_returning {s : SemState n}
    (reachable : (system.restrict PostsAfterWait).Reachable s) {p : Fin n} {id : SemId}
    (returns : s.pc p = .main (.waitRelease id)) : Inside s.data id p :=
  (fair_of_reachable reachable).owes p id (.inl returns)

/-- The counts are exact, a positive count with its lock free has no sleeper, and with every
process posting only after its own wait at most one is inside. -/
theorem semaphore_correct (n : ℕ) :
    (∀ s : SemState n, system.Reachable s → ∀ id, totalPosts s.data id < 2 ^ 31 - 1 →
      0 ≤ s.data.count id ∧
        s.data.count id = 1 + totalPosts s.data id - totalWaits s.data id ∧
        (s.owner (.named id) = none → 0 < s.data.count id →
          ∀ p, ¬ (s.state p = .SLEEPING ∧ s.chan p = some id))) ∧
    ∀ s : SemState n, (system.restrict PostsAfterWait).Reachable s → ∀ id,
      totalPosts s.data id < 2 ^ 31 - 1 → ∀ p q, Inside s.data id p → Inside s.data id q →
        p = q := by
  refine ⟨fun s reachable id bound => ?_, fun s reachable id bound p q one two => ?_⟩
  · have sound := sound_of_reachable reachable
    obtain ⟨exact, nonneg⟩ := sound.tally id bound
    refine ⟨nonneg, exact, fun free positive p sleeper => ?_⟩
    have committed := sound.threads.commits_of_sleeping sleeper.1 sleeper.2
    obtain ⟨poster, posting⟩ := sound.wake p id committed positive
    exact sound.threads.owned.not_held free poster posting.holds
  · obtain ⟨exact, nonneg⟩ := (sound_of_reachable reachable.unrestrict).tally id bound
    exact inside_unique (fun r => (fair_of_reachable reachable).balance r id) (by omega) one two

/-! ### A wait that sleeps -/

def atUser : Pc n SemId SemId (Point n) → Bool
  | .main .user => true
  | _ => false

theorem atUser_iff {pc : Pc n SemId SemId (Point n)} : atUser pc = true ↔ pc = .main .user := by
  constructor
  · intro user
    unfold atUser at user
    split at user
    · rfl
    · cases user
  · rintro rfl
    rfl

instance (s : SemState n) : ∀ label, Decidable (PostsAfterWait s label)
  | (p, .run (.semPost id)) =>
      decidable_of_iff (atUser (s.pc p) = true → ∀ sem, semOf id = some sem →
        s.data.posts p sem < s.data.waits p sem) (by rw [atUser_iff, PostsAfterWait])
  | (_, .run (.semWait _)) | (_, .run (.kkill _)) | (_, .dispatch) | (_, .preempt) =>
      isTrue trivial

instance (data : Data n) (id : SemId) (p : Fin n) : Decidable (Inside data id p) :=
  inferInstanceAs (Decidable (_ < _))

def calls (p : Fin n) (call : Call) (steps : ℕ) : List (Fin n × Event Call) :=
  List.replicate steps (p, .run call)

def contended (p q : Fin n) : List (Fin n × Event Call) :=
  (p, .dispatch) :: calls p (.semWait 0) 6 ++ (q, .dispatch) :: calls q (.semWait 0) 9

/-- Process `p` posts, and `q` wakes up and returns from its wait. -/
def relayed (p q : Fin n) : List (Fin n × Event Call) :=
  calls p (.semPost 0) 10 ++ (q, .dispatch) :: calls q (.semWait 0) 6

theorem semaphore_correct_relayed : ∃ s t : SemState 2,
    (system.restrict PostsAfterWait).Reachable s ∧ s.state 1 = .SLEEPING ∧
    (∀ q, Inside s.data 0 q → q = 0) ∧ (system.restrict PostsAfterWait).Run s (relayed 0 1) t ∧
    t.data.count 0 = 1 + totalPosts t.data 0 - totalWaits t.data 0 ∧
    Inside t.data 0 1 ∧ ∀ q, Inside t.data 0 q → q = 1 := by
  have sound : ∀ before label after, System.guard PostsAfterWait (program (n := 2)).step before
      label = some after → (system.restrict PostsAfterWait).step before label after :=
    System.guard_sound fun _ _ _ taken => taken
  obtain ⟨s, run, seen⟩ := System.Run.existsOfExecute sound
    (show (System.execute _ (start fun p => p.val + 1) (contended 0 1)).map (fun s =>
      (decide (s.state 1 = .SLEEPING ∧ totalPosts s.data 0 = 0 ∧ Inside s.data 0 0),
        (System.execute (System.guard PostsAfterWait (program (n := 2)).step) s (relayed 0 1)).map
          fun t => decide (totalPosts t.data 0 = 1 ∧ Inside t.data 0 1))) =
        some (true, some true) by decide)
  obtain ⟨before, rest⟩ := Prod.mk.inj seen
  obtain ⟨asleep, few, first⟩ := of_decide_eq_true before
  obtain ⟨t, run', after⟩ := System.Run.existsOfExecute sound rest
  obtain ⟨few', second⟩ := of_decide_eq_true after
  have reachable := run.reachable (.start ⟨_, rfl⟩)
  have reachable' := run'.reachable reachable
  obtain ⟨books, alone⟩ := semaphore_correct 2
  exact ⟨s, t, reachable, asleep,
    fun q inside => alone s reachable 0 (by omega) q 0 inside first, run',
    (books t reachable'.unrestrict 0 (by omega)).2.1, second,
    fun q inside => alone t reachable' 0 (by omega) q 1 inside second⟩

end OsLab.Kernel.Semaphore
