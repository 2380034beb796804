import OsLab.Kernel.Blocking
import OsLab.Kernel.LifecycleInvariant

/-! The threads of the waiting loops keep the discipline of locks, `sleep` and `wakeup`. -/

namespace OsLab.Kernel.Blocking

open OsLab.Library OsLab.Kernel.Threads
open OsLab.Kernel.Lifecycle (KernelInstr Stmt code_stmt)
open OsLab.Kernel.Semaphore (semOf)

variable {n : ℕ} {initproc p : Fin n} {s t : WaitState n}

def guard : Chan n → WaitLock
  | .proc _ => .table .waitLock
  | .sem id => .sem id
  | .ticks => .tickslock

def Point.zombie : Point n → Bool
  | .table m => m.zombie
  | _ => false

def Point.swept : Point n → Chan n → Prop
  | .table m, chan => ∃ q, chan = .proc q ∧ m.swept q
  | _, _ => False

def policy (initproc : Fin n) : Policy (program initproc) where
  zombie := Point.zombie
  guard := guard
  swept := Point.swept
  zombie_held p m dead := by
    cases m with
    | table m => cases m <;> simp_all [program, held, Lifecycle.held, Point.zombie,
        Lifecycle.Point.zombie, lockOf]
    | _ => simp [Point.zombie] at dead
  swept_held p m chan swept := by
    cases m with
    | table m =>
        obtain ⟨q, rfl, swept⟩ := swept
        cases m <;> simp_all [program, held, Lifecycle.held, Lifecycle.Point.swept, lockOf, guard,
          Lifecycle.waitLock]
    | _ => simp [Point.swept] at swept

def Point.builds : Point n → Option (Fin n)
  | .table m => m.builds
  | _ => none

section Stmt

variable {input : Lifecycle.Input} {m : Lifecycle.Point n} {instr : KernelInstr n}

theorem stmt_allowed (inv : (policy initproc).Inv s)
    (used : ∀ np, m.builds = some np → s.state np = .USED) (here : s.pc p = .main (.table m))
    (stmt : Stmt initproc p s.state s.data.table input m instr) :
    (policy initproc).Allowed s p (.table m) (embed s.data instr) := by
  have mine : ∀ lock, lock ∈ held p (.table m) → (program initproc).holds p (s.pc p) lock := by
    intro lock holds
    simpa [Program.holds, here, program] using holds
  have running : m.zombie = false → s.state p = .RUNNING := by
    intro alive
    have fits := inv.fits p
    rw [here] at fits
    simpa [Pc.Fits, policy, Point.zombie, alive] using fits
  have elsewhere : ∀ q, s.pc q = .dead → q ≠ p := by
    rintro q dead rfl
    simp [here] at dead
  cases stmt with
  | allocproc kind np unused =>
      have dead := inv.dead_of_unstarted (.inl unused)
      refine ⟨by simp [program, held, Lifecycle.held, lockOf],
        by simp [program, held, Lifecycle.held],
        by simp [policy, Point.swept, Lifecycle.Point.swept], .inr ⟨elsewhere np dead, ?_⟩⟩
      exact ⟨by simp [policy, Point.zombie, Lifecycle.Point.zombie], .inr ⟨dead, .inr rfl⟩⟩
  | abandon kind np =>
      have dead := inv.dead_of_unstarted (.inr (used np rfl))
      refine ⟨by simp [program, held, Lifecycle.held, lockOf],
        by simp [program, held, Lifecycle.held],
        by simp [policy, Point.swept, Lifecycle.Point.swept], .inr ⟨elsewhere np dead, ?_⟩⟩
      exact ⟨by simp [policy, Point.zombie, Lifecycle.Point.zombie], .inr ⟨dead, .inl rfl⟩⟩
  | spawn kind np pid =>
      have dead := inv.dead_of_unstarted (.inr (used np rfl))
      exact ⟨elsewhere np dead, dead, by simp [program, held, Lifecycle.held],
        by simp [policy, Point.zombie, Lifecycle.Point.zombie],
        by simp [program, held, Lifecycle.held],
        by simp [policy, Point.zombie, Lifecycle.Point.zombie],
        by simp [policy, Point.swept, Lifecycle.Point.swept]⟩
  | reap call pp zombie =>
      have other : pp ≠ p := by
        rintro rfl
        simp [running rfl] at zombie
      have dead := inv.dead_of_zombie other (mine _ (by simp [held, Lifecycle.held, lockOf])) zombie
      refine ⟨by simp [program, held, Lifecycle.held, lockOf],
        by simp [program, held, Lifecycle.held],
        by simp [policy, Point.swept, Lifecycle.Point.swept], .inr ⟨other, ?_⟩⟩
      exact ⟨by simp [policy, Point.zombie, Lifecycle.Point.zombie], .inr ⟨dead, .inl rfl⟩⟩
  | postWake pid signum q sleeping =>
      refine ⟨by simp [program, held, Lifecycle.held, lockOf],
        by simp [program, held, Lifecycle.held],
        by simp [policy, Point.swept, Lifecycle.Point.swept],
        .inr ⟨?_, by simp [policy, Point.zombie, Lifecycle.Point.zombie], .inl ⟨sleeping, rfl⟩⟩⟩
      rintro rfl
      simp [running rfl] at sleeping
  | zombie status parent =>
      exact ⟨by simp [program, held, Lifecycle.held, lockOf],
        by simp [program, held, Lifecycle.held],
        by simp [policy, Point.swept, Lifecycle.Point.swept],
        .inl ⟨rfl, rfl, by simp [policy, Point.zombie, Lifecycle.Point.zombie]⟩⟩
  | exitWaitUnlock | waitNext | waitFreed | waitCopyFail | waitDie | waitStay =>
      simp [Policy.Allowed, embed, program, held, Lifecycle.held, lockOf, policy, Point.zombie,
        Lifecycle.Point.zombie, Point.swept, Lifecycle.Point.swept, Lifecycle.waitLock]
      grind
  | _ =>
      simp [Policy.Allowed, embed, program, held, Lifecycle.held, lockOf, policy, guard,
        Point.zombie, Lifecycle.Point.zombie, Point.swept, Lifecycle.Point.swept,
        Lifecycle.waitLock]

end Stmt

theorem enter_allowed {input : Input} {instr : WaitInstr n}
    (ran : enter s.data input = some instr) : (policy initproc).Allowed s p user instr := by
  cases input with
  | table input => simp [enter] at ran
  | semPost id =>
      obtain rfl := Option.some.inj ran
      cases semOf id <;>
        simp [Policy.Allowed, program, held, user, Lifecycle.held, policy, Point.zombie,
          Lifecycle.Point.zombie, Point.swept, Lifecycle.Point.swept]
  | _ =>
      obtain rfl := Option.some.inj ran
      simp [Policy.Allowed, program, held, user, Lifecycle.held, policy, Point.zombie,
        Lifecycle.Point.zombie, Point.swept]

theorem allowed {input : Input} {m : Point n} {instr : WaitInstr n}
    (inv : (policy initproc).Inv s)
    (used : ∀ np, m.builds = some np → s.state np = .USED) (here : s.pc p = .main m)
    (ran : code initproc p m s.state s.data input = some instr) :
    (policy initproc).Allowed s p m instr := by
  cases m with
  | table m =>
      cases input with
      | table input =>
          obtain ⟨instr, code, rfl⟩ := Option.map_eq_some_iff.mp ran
          exact stmt_allowed inv used here (code_stmt code)
      | _ =>
          cases m <;> simp only [Blocking.code, reduceCtorEq] at ran
          exact enter_allowed ran
  | trapDone id killed =>
      have released : ∀ next, next.zombie = false → held p next = [] →
          (∀ chan, ¬ Point.swept next chan) →
          (policy initproc).Allowed s p (.trapDone id killed) (.release (.proc p) next) := by
        intro next alive empty unswept
        refine ⟨by simp [program, held], fun lock => ?_, alive,
          fun chan swept => absurd swept (unswept chan)⟩
        change lock ∈ held p next ↔ _
        rw [empty]
        simp [program, held]
      cases killed with
      | true =>
          by_cases init : p = initproc
          · simp [code, trapCode, semCode, pauseCode, init] at ran
          · obtain rfl : _ = instr := by simpa [code, trapCode, init] using ran
            exact released _ rfl rfl (by simp [Point.swept, Lifecycle.Point.swept])
      | false =>
          obtain rfl := Option.some.inj ran
          exact released _ rfl rfl (by simp [Point.swept])
  | semWait id =>
      obtain rfl := Option.some.inj ran
      cases semOf id <;>
        simp [Policy.Allowed, program, held, user, Lifecycle.held, policy, Point.zombie,
          Lifecycle.Point.zombie, Point.swept, Lifecycle.Point.swept]
  | semTest id =>
      by_cases empty : s.data.count id ≤ 0
      all_goals
        obtain rfl : _ = instr := by simpa [code, trapCode, semCode, empty] using ran
        simp [Policy.Allowed, program, held, policy, guard, Point.zombie, Point.swept]
  | pauseTest n ticks0 =>
      obtain rfl := Option.some.inj ran
      by_cases early : (s.data.ticks - ticks0).toNat < n <;>
        simp [Policy.Allowed, program, held, policy, Point.zombie, Point.swept, early]
  | pauseKilledDone n ticks0 killed =>
      obtain rfl := Option.some.inj ran
      cases killed <;>
        simp [Policy.Allowed, program, held, policy, Point.zombie, Point.swept, tickslock] <;>
        grind
  | _ =>
      obtain rfl := Option.some.inj ran
      simp [Policy.Allowed, program, held, policy, guard, Point.zombie, Lifecycle.Point.zombie,
        Point.swept, Lifecycle.Point.swept, tickslock, user, Lifecycle.held]

theorem clock_inv (inv : (policy initproc).Inv s) (ticked : clockintr s = some t) :
    (policy initproc).Inv t := by
  rw [clockintr] at ticked
  split at ticked
  · rename_i free
    obtain rfl := Option.some.inj ticked
    have asleep : ∀ p, s.state p = .SLEEPING → s.chan p = some .ticks →
        ∃ lk ret, s.pc p = .sleep .asleep .ticks lk ret := by
      intro p sleeping on
      have committed := inv.commits_of_sleeping sleeping on
      have past := free.2 p
      cases here : s.pc p with
      | sleep stage chan lk ret =>
          rw [here] at committed past
          cases stage <;> simp_all [Pc.Commits, drowsy]
      | _ => simp [here, Pc.Commits] at committed
    refine ⟨inv.owned, fun p => ?_, inv.channel, inv.returns, fun p chan q sweeps committed => ?_⟩
    · by_cases woken : s.state p = .SLEEPING ∧ s.chan p = some .ticks
      · obtain ⟨lk, ret, here⟩ := asleep p woken.1 woken.2
        simp [here, Pc.Fits, woken]
      · simp only [if_neg woken]
        exact inv.fits p
    · apply inv.swept p chan q sweeps
      apply committed.mono
      intro sleeping
      by_cases woken : s.state q = .SLEEPING ∧ s.chan q = some .ticks
      · simp [woken] at sleeping
      · simpa [woken] using sleeping
  · simp at ticked

theorem boot_inv (initproc : Fin n) : (policy initproc).Inv (boot initproc) := by
  have pc : ∀ q, (boot initproc).pc q = .dead ∨ (boot initproc).pc q = .yield .off user := by
    intro q
    by_cases same : q = initproc <;> simp [boot, same]
  refine ⟨fun lock q => ?_, fun q => ?_, fun q => ?_, fun q => ?_, fun q chan r sweeps => ?_⟩
  · rcases pc q with here | here <;> rw [here] <;> simp [Program.holds, boot]
  · by_cases first : q = initproc <;> simp [boot, Lifecycle.boot, first, Pc.Fits]
  · rcases pc q with here | here <;> simp [here, Pc.OnChannel]
  · rcases pc q with here | here <;> simp [here, Policy.Returns, program, held, user,
      Lifecycle.held, policy, Point.zombie, Lifecycle.Point.zombie]
  · rcases pc q with here | here <;> simp [here, Pc.Sweeps] at sweeps

end OsLab.Kernel.Blocking
