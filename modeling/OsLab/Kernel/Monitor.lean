import OsLab.Kernel.Sleep

/-!
Data that processes share under locks, and what they sleep for. Where a program tests a condition
under its guard before it sleeps, and calls `wakeup` before it lets go of the guard under which the
condition has ended, nobody sleeps for nothing.
-/

namespace OsLab.Kernel.Threads

open OsLab.Library

variable {n : ℕ} {L C M D I : Type} {program : Program n L C M D I} {policy : Policy program}

/-- `sound` holds of the data at all times, `rest` while nobody has a lock. At a point a process has
knowledge that no other process takes away, `own`, and knowledge under the lock that `under` names,
`knows`. `waits` is the reason to sleep on a channel; from the points of `waking` a `wakeup` is still
to be called. -/
structure Monitor (policy : Policy program) where
  sound : D → Prop
  rest : L → D → Prop
  own : Fin n → M → D → Prop
  knows : M → D → Prop
  waits : D → C → Prop
  waking : M → D → C → Prop
  under : M → Option L
  unknown : ∀ m data, under m = none → knows m data
  under_held : ∀ p m lk, under m = some lk → .named lk ∈ program.held p m
  waking_held : ∀ p m data chan, waking m data chan →
    .named (policy.guard chan) ∈ program.held p m

/-- The point of the program that a process is at, or to which its call returns. -/
def point : Pc n L C M → Option M
  | .main m | .sleep _ _ _ m | .wakeup _ _ m | .wakeupTest _ _ m | .wakeupRelease _ _ m
  | .yield _ m => some m
  | .dead => none

theorem Pc.Waking.holds {p : Fin n} {lk : L} {chan : C} {ret : M} {pc : Pc n L C M}
    (waking : pc.Waking chan ret) :
    program.holds p pc (.named lk) ↔ .named lk ∈ program.held p ret := by
  cases pc <;> simp_all [Pc.Waking, Program.holds]

namespace Monitor

/-- All that is known where `sleep` returns is known of any data at rest. -/
def Fresh (monitor : Monitor policy) (chan : C) (ret : M) : Prop :=
  ∀ later, monitor.rest (policy.guard chan) later → monitor.knows ret later

/-- What a process knows in a call of `sleep` is no more than its own, but for the reason to sleep
before the lock is released. -/
def Knows (monitor : Monitor policy) (p : Fin n) (data : D) : Pc n L C M → Prop
  | .main m => monitor.own p m data ∧ monitor.knows m data
  | .sleep .acquire chan _ ret | .sleep .release chan _ ret =>
      (monitor.waits data chan ∧ monitor.rest (policy.guard chan) data) ∧ monitor.own p ret data ∧
        monitor.Fresh chan ret
  | .sleep _ chan _ ret => monitor.own p ret data ∧ monitor.Fresh chan ret
  | .wakeup _ _ ret | .wakeupTest _ _ ret | .wakeupRelease _ _ ret =>
      monitor.own p ret data ∧ monitor.knows ret data
  | .yield _ ret => monitor.own p ret data
  | .dead => True

def Wakes (monitor : Monitor policy) (data : D) (chan : C) : Pc n L C M → Prop
  | .main m => monitor.waking m data chan
  | .wakeup _ c ret | .wakeupTest _ c ret | .wakeupRelease _ c ret =>
      c = chan ∨ monitor.waking ret data chan
  | _ => False

/-- Nobody sleeps for nothing, unless somebody is about to wake him. -/
structure Inv (monitor : Monitor policy) (s : State n L C M D) : Prop where
  threads : policy.Inv s
  sound : monitor.sound s.data
  rest : ∀ lk, (∀ p, ¬ program.holds p (s.pc p) (.named lk)) → monitor.rest lk s.data
  knows : ∀ p, monitor.Knows p s.data (s.pc p)
  wake : ∀ q chan, (s.pc q).Commits (s.state q) chan →
    monitor.waits s.data chan ∨ ∃ p, monitor.Wakes s.data chan (s.pc p)

/-- What the holder of a lock may rely on while another process changes the data. -/
structure Keeps (monitor : Monitor policy) (before after : D) (lk : L) : Prop where
  rest : monitor.rest lk before → monitor.rest lk after
  knows : ∀ m, monitor.under m = some lk → monitor.knows m before → monitor.knows m after
  waits : ∀ chan, policy.guard chan = lk → monitor.waits before chan → monitor.waits after chan
  waking : ∀ chan, policy.guard chan = lk → ∀ m, monitor.waking m before chan →
    monitor.waking m after chan

/-- The promises at one point: data are changed under their lock only, and where a condition ends
there, `wakeup` is to follow. -/
structure Allowed (monitor : Monitor policy) (s : State n L C M D) (p : Fin n) (m : M)
    (instr : Instr n L C M D) : Prop where
  threads : policy.Allowed s p m instr
  sound : monitor.sound (instr.data s.data)
  locked : ∀ lk, .named lk ∈ program.held p m ∨ monitor.Keeps s.data (instr.data s.data) lk
  others : ∀ q m', q ≠ p → point (s.pc q) = some m' → monitor.own q m' s.data →
    monitor.own q m' (instr.data s.data)
  released : ∀ lk next, instr = .release (.named lk) next → monitor.rest lk s.data
  knows : (∀ lk next, instr = .acquire (.named lk) next → monitor.rest lk s.data) →
    monitor.Knows p (instr.data s.data) instr.next
  wakes : ∀ chan, monitor.waits s.data chan ∨ monitor.waking m s.data chan →
    monitor.waits (instr.data s.data) chan ∨ monitor.Wakes (instr.data s.data) chan instr.next
  spawns : ∀ q start data next, instr = .spawn q start data next → monitor.own q start data

variable {monitor : Monitor policy} {s t : State n L C M D} {p : Fin n}

theorem Keeps.refl (data : D) (lk : L) : monitor.Keeps data data lk :=
  ⟨id, fun _ _ => id, fun _ _ => id, fun _ _ _ => id⟩

theorem Inv.wakes_holds (inv : monitor.Inv s) {q : Fin n} {chan : C}
    (wakes : monitor.Wakes s.data chan (s.pc q)) :
    program.holds q (s.pc q) (.named (policy.guard chan)) := by
  have returns := inv.threads.returns q
  cases here : s.pc q with
  | main m =>
      rw [here] at wakes
      exact monitor.waking_held q m s.data chan wakes
  | wakeup | wakeupTest | wakeupRelease =>
      rw [here] at wakes returns
      rcases wakes with rfl | later
      · simp [Program.holds, returns.1]
      · have held := monitor.waking_held q _ s.data chan later
        simp [Program.holds, held]
  | _ => simp [here, Wakes] at wakes

theorem knows_keeps {before after : D} {m : M} (keeps : ∀ lk, monitor.under m = some lk →
    monitor.Keeps before after lk) (knows : monitor.knows m before) : monitor.knows m after := by
  cases under : monitor.under m with
  | none => exact monitor.unknown m after under
  | some lk => exact (keeps lk under).knows m under knows

theorem Inv.knows_of_other (inv : monitor.Inv s) {q : Fin n} {data : D}
    (keeps : ∀ lk, program.holds q (s.pc q) (.named lk) → monitor.Keeps s.data data lk)
    (own : ∀ m, point (s.pc q) = some m → monitor.own q m s.data → monitor.own q m data) :
    monitor.Knows q data (s.pc q) := by
  have returns := inv.threads.returns q
  have knows := inv.knows q
  cases here : s.pc q with
  | main m =>
      rw [here] at knows keeps own
      exact ⟨own m rfl knows.1,
        knows_keeps (fun lk under => keeps lk (monitor.under_held q m lk under)) knows.2⟩
  | sleep stage chan lk ret =>
      rw [here] at knows keeps returns own
      obtain ⟨rfl, -⟩ := returns
      cases stage with
      | acquire | release =>
          obtain ⟨⟨waits, rest⟩, mine, fresh⟩ := knows
          have kept := keeps (policy.guard chan) (by simp [Program.holds])
          exact ⟨⟨kept.waits chan rfl waits, kept.rest rest⟩, own ret rfl mine, fresh⟩
      | _ => exact ⟨own ret rfl knows.1, knows.2⟩
  | wakeup i chan ret | wakeupTest r chan ret | wakeupRelease r chan ret =>
      rw [here] at knows keeps own
      refine ⟨own ret rfl knows.1, knows_keeps (m := ret) (fun lk under => keeps lk ?_) knows.2⟩
      have held := monitor.under_held q ret lk under
      simp [Program.holds, held]
  | yield stage ret =>
      rw [here] at knows own
      exact own ret rfl knows
  | dead => trivial

theorem Wakes.keeps {before after : D} {chan : C} {pc : Pc n L C M}
    (wakes : monitor.Wakes before chan pc)
    (keeps : monitor.Keeps before after (policy.guard chan)) : monitor.Wakes after chan pc := by
  cases pc with
  | main m => exact keeps.waking chan rfl m wakes
  | wakeup | wakeupTest | wakeupRelease => exact wakes.imp_right (keeps.waking chan rfl _)
  | _ => exact wakes

theorem Inv.advance (inv : monitor.Inv s) {next : Pc n L C M} (threads : policy.Inv t)
    (sound : monitor.sound t.data) (self : t.pc p = next)
    (rest : ∀ q, q ≠ p → t.pc q = s.pc q ∨
      s.pc q = .dead ∧ ∃ stage m, t.pc q = .yield stage m ∧ monitor.own q m t.data)
    (commits : ∀ q chan, (t.pc q).Commits (t.state q) chan → (s.pc q).Commits (s.state q) chan ∨
      monitor.waits t.data chan)
    (locked : ∀ lk, program.holds p (s.pc p) (.named lk) ∨ monitor.Keeps s.data t.data lk)
    (others : ∀ q m, q ≠ p → point (s.pc q) = some m → monitor.own q m s.data →
      monitor.own q m t.data)
    (released : ∀ lk, program.holds p (s.pc p) (.named lk) →
      ¬ program.holds p next (.named lk) → monitor.rest lk t.data)
    (knows : monitor.Knows p t.data next)
    (wakes : ∀ chan, monitor.waits s.data chan ∨ monitor.Wakes s.data chan (s.pc p) →
      monitor.waits t.data chan ∨ monitor.Wakes t.data chan next ∨
        ∀ q, ¬ (s.pc q).Commits (s.state q) chan) : monitor.Inv t := by
  have kept : ∀ q lk, q ≠ p → program.holds q (s.pc q) (.named lk) →
      monitor.Keeps s.data t.data lk := by
    intro q lk other holds
    exact (locked lk).resolve_left fun mine => other (inv.threads.owned.exclusive holds mine)
  refine ⟨threads, sound, fun lk free => ?_, fun q => ?_, fun q chan committed => ?_⟩
  · by_cases mine : program.holds p (s.pc p) (.named lk)
    · exact released lk mine (self ▸ free p)
    · refine ((locked lk).resolve_left mine).rest (inv.rest lk fun q holds => ?_)
      have other : q ≠ p := by
        rintro rfl
        exact mine holds
      rcases rest q other with alike | ⟨gone, -⟩
      · exact free q (alike ▸ holds)
      · rw [gone] at holds
        exact holds
  · by_cases same : q = p
    · rwa [same, self]
    · rcases rest q same with alike | ⟨-, stage, m, started, own⟩
      · rw [alike]
        exact inv.knows_of_other (fun lk => kept q lk same) fun m => others q m same
      · rw [started]
        exact own
  · rcases commits q chan committed with before | waits
    · have settled : monitor.waits s.data chan ∨ monitor.Wakes s.data chan (s.pc p) →
          monitor.waits t.data chan ∨ ∃ r, monitor.Wakes t.data chan (t.pc r) := by
        intro due
        rcases wakes chan due with waits | waking | nobody
        · exact .inl waits
        · exact .inr ⟨p, by rwa [self]⟩
        · exact absurd before (nobody q)
      rcases inv.wake q chan before with waits | ⟨w, waking⟩
      · exact settled (.inl waits)
      · by_cases same : w = p
        · exact settled (.inr (same ▸ waking))
        · rcases rest w same with alike | ⟨gone, -⟩
          · refine .inr ⟨w, ?_⟩
            rw [alike]
            exact waking.keeps (kept w _ same (inv.wakes_holds waking))
          · simp [gone, Wakes] at waking
    · exact .inl waits

theorem Inv.internal (inv : monitor.Inv s) (threads : policy.Inv t)
    (commits : ∀ q chan, (t.pc q).Commits (t.state q) chan → (s.pc q).Commits (s.state q) chan ∨
      q = p ∧ ∃ lk ret, s.pc p = .sleep .release chan lk ret)
    (internal : program.Internal s t p) : monitor.Inv t := by
  obtain ⟨next, moved, flow⟩ := internal.pc
  have returns := inv.threads.returns p
  have swept := inv.threads.swept p
  have knows := inv.knows p
  -- who gets the lock back after `sleep` finds the data at rest
  have free : ∀ c lk ret, s.pc p = .sleep .reacquire c lk ret → next = .main ret →
      .named (policy.guard c) ∈ program.held p ret →
        ∀ q, ¬ program.holds q (s.pc q) (.named (policy.guard c)) := by
    intro c lk ret here there held q holds
    have other : q ≠ p := by
      rintro rfl
      rw [here] at holds
      exact holds
    have his : program.holds q (t.pc q) (.named (policy.guard c)) := by
      rwa [moved, Function.update_of_ne other]
    have mine : program.holds p (t.pc p) (.named (policy.guard c)) := by
      rw [moved, Function.update_self, there]
      exact held
    exact other (threads.owned.exclusive his mine)
  refine inv.advance threads (internal.data ▸ inv.sound) (by rw [moved, Function.update_self])
    (fun q other => .inl (by rw [moved, Function.update_of_ne other]))
    (fun q chan committed => (commits q chan committed).imp_right ?_)
    (fun lk => .inr (by rw [internal.data]; exact .refl s.data lk))
    (fun q m _ _ => by rw [internal.data]; exact id) ?_ ?_ ?_
  · rintro ⟨same, lk, ret, here⟩
    rw [here] at knows
    exact internal.data ▸ knows.1.1
  · intro lk before after
    rw [internal.data]
    generalize s.pc p = here at flow returns knows before
    cases flow with
    | @sleep stage next c lk' ret follows =>
        obtain ⟨rfl, -⟩ := returns
        cases stage with
        | release =>
            cases follows
            obtain rfl : lk = policy.guard c := by simpa [Program.holds] using before
            exact knows.1.2
        | acquire =>
            cases follows
            obtain rfl : lk = policy.guard c := by simpa [Program.holds] using before
            exact absurd (.inr rfl) after
        | _ => simp [Program.holds] at before
    | slept => exact before.elim
    | waking one two => exact absurd (two.holds.mpr (one.holds.mp before)) after
    | @woken i c ret past => exact absurd before after
    | @preempt m unlocked => simp [Program.holds, unlocked] at before
    | @yield stage next ret => cases stage <;> simp [Program.holds] at before
    | @resumed ret => simp [Program.holds] at before
  all_goals
    rw [internal.data]
    generalize s.pc p = before at flow returns swept knows free
  · cases flow with
    | @sleep stage next c lk ret follows =>
        cases stage with
        | acquire =>
            cases follows
            exact knows
        | release =>
            cases follows
            exact knows.2
        | reacquire => cases follows
        | _ =>
            cases follows
            exact knows
    | @slept c lk ret =>
        have held : .named (policy.guard c) ∈ program.held p ret := by
          rw [returns.2.1, returns.1]
          exact List.mem_singleton_self _
        exact ⟨knows.1, knows.2 _ (inv.rest _ (free c lk ret rfl rfl held))⟩
    | @waking before after' c ret first second =>
        cases before <;> cases next <;> simp_all [Pc.Waking, Knows]
    | woken => exact knows
    | @resumed ret =>
        refine ⟨knows, monitor.unknown ret s.data ?_⟩
        cases under : monitor.under ret with
        | none => rfl
        | some lk =>
            have held := monitor.under_held p ret lk under
            simp [returns.1] at held
    | preempt => exact knows.1
    | yield => exact knows
  · intro chan due
    rcases due with waits | waking
    · exact .inl waits
    refine .inr ?_
    cases flow with
    | @waking before after c ret first second =>
        left
        cases before <;> cases next <;> simp_all [Pc.Waking, Wakes]
    | @woken i c ret past =>
        rcases waking with rfl | later
        · exact .inr fun q => swept c q ⟨rfl, by omega⟩
        · exact .inl later
    | @preempt m unlocked =>
        have held := monitor.waking_held p m s.data chan waking
        simp [unlocked] at held
    | _ => simp [Wakes] at waking

theorem Inv.unstarted {m : Fin n → M} (owner : ∀ lock, s.owner lock = none)
    (state : ∀ q, s.state q = .RUNNABLE) (pc : ∀ q, s.pc q = .yield .off (m q))
    (held : ∀ q, program.held q (m q) = []) (awake : ∀ q, policy.zombie (m q) = false)
    (sound : monitor.sound s.data) (rest : ∀ lk, monitor.rest lk s.data)
    (own : ∀ q, monitor.own q (m q) s.data) : monitor.Inv s := by
  refine ⟨⟨?_, ?_, ?_, ?_, ?_⟩, sound, fun lk _ => rest lk, ?_, ?_⟩
  · intro lock q
    simp [owner, pc, Program.holds]
  · simp [state, pc, Pc.Fits]
  · simp [pc, Pc.OnChannel]
  · simp [pc, Policy.Returns, held, awake]
  · simp [pc, Pc.Commits]
  · simpa [pc, Knows] using own
  · simp [pc, Pc.Commits]

/-- Who is SLEEPING has reason to, or is about to be woken. -/
theorem Inv.sleeping (inv : monitor.Inv s) {q : Fin n} {chan : C} (sleeping : s.state q = .SLEEPING)
    (on : s.chan q = some chan) :
    monitor.waits s.data chan ∨ ∃ p, monitor.Wakes s.data chan (s.pc p) :=
  inv.wake q chan (inv.threads.commits_of_sleeping sleeping on)

variable [DecidableEq L]

theorem Inv.perform (inv : monitor.Inv s) {m : M} {instr : Instr n L C M D}
    (here : s.pc p = .main m) (allowed : monitor.Allowed s p m instr)
    (performed : Threads.perform s p instr = some t) (threads : policy.Inv t)
    (commits : ∀ q chan, (t.pc q).Commits (t.state q) chan → (s.pc q).Commits (s.state q) chan ∨
      q = p ∧ ∃ lk ret, s.pc p = .sleep .release chan lk ret) : monitor.Inv t := by
  obtain ⟨data, -, pc⟩ := perform_effect performed
  refine inv.advance threads (data ▸ allowed.sound) (by rw [pc, Function.update_self])
    (fun q other => ?_) (fun q chan committed => ?_) (fun lk => ?_)
    (fun q m' other there => data ▸ allowed.others q m' other there) (fun lk before after => ?_) ?_ ?_
  · rw [pc, Function.update_of_ne other]
    cases instr with
    | spawn r start later next =>
        by_cases same : q = r
        · subst r
          exact .inr ⟨allowed.threads.2.1, .off, start, by simp [Instr.others],
            data ▸ allowed.spawns q start later next rfl⟩
        · exact .inl (by simp [Instr.others, same])
    | _ => exact .inl rfl
  · refine (commits q chan committed).imp_right ?_
    rintro ⟨-, lk, ret, dozing⟩
    rw [here] at dozing
    cases dozing
  · rw [data, here]
    exact allowed.locked lk
  · rw [here] at before
    replace before : .named lk ∈ program.held p m := before
    rw [data]
    have promises := allowed.threads
    cases instr with
    | release lock next =>
        by_cases same : lock = .named lk
        · subst lock
          exact allowed.released lk next rfl
        · exact absurd ((promises.2.1 _).mpr ⟨Ne.symm same, before⟩) after
    | goto later next => exact absurd ((promises.1 _).mpr before) after
    | setState q later data' next => exact absurd ((promises.2.1 _).mpr before) after
    | spawn q start later next => exact absurd ((promises.2.2.2.2.1 _).mpr before) after
    | acquire lock next => exact absurd ((promises.1 _).mpr (.inr before)) after
    | sleep chan lk' next =>
        rw [promises.2.1] at before
        exact absurd (List.mem_singleton.mp before) after
    | wakeup chan next => exact absurd ((promises.2.1 _).mpr before) after
    | exit =>
        rw [promises.1] at before
        simp at before
  · rw [data]
    refine allowed.knows fun lk next same => inv.rest lk fun q holds => ?_
    subst same
    obtain ⟨free, -⟩ := acquire_eq_some performed
    exact inv.threads.owned.not_held free q holds
  · intro chan due
    rw [here] at due
    rw [data]
    exact (allowed.wakes chan due).imp_right .inl

variable [DecidableEq C]

theorem Inv.step (inv : monitor.Inv s) {event : Event I}
    (allowed : ∀ m input instr, s.pc p = .main m → event = .run input →
      program.code p m s.state s.data input = some instr → monitor.Allowed s p m instr)
    (taken : program.step s (p, event) = some t) : monitor.Inv t := by
  have promises : ∀ m input instr, s.pc p = .main m → event = .run input →
      program.code p m s.state s.data input = some instr → policy.Allowed s p m instr :=
    fun m input instr here ran code => (allowed m input instr here ran code).threads
  have threads := inv.threads.step promises taken
  have commits : ∀ q chan, (t.pc q).Commits (t.state q) chan →
      (s.pc q).Commits (s.state q) chan ∨ q = p ∧ ∃ lk ret, s.pc p = .sleep .release chan lk ret :=
    fun q chan committed => Policy.commits_of_step promises taken committed
  rcases program.step_cases taken with ⟨m, input, instr, here, ran, code, performed⟩ | internal
  · exact inv.perform here (allowed m input instr here ran code) performed threads commits
  · exact inv.internal threads commits internal

end Monitor

end OsLab.Kernel.Threads
