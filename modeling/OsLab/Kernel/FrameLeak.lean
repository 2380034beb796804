import OsLab.Kernel.SharedSpace

/-!
Frames handed out as user memory stay mapped until they are given back, in every run in
which a thread that is reaped leaves no page behind that only it maps.
-/

namespace OsLab.Kernel.Memory

open OsLab.Library

variable {n : ℕ} {s t : State n} {initproc p : Fin n}

/-- Every page lent as user memory is mapped by a process in use. -/
def NoLeak (s : State n) : Prop :=
  ∀ f, s.kmem.user f = true → ∃ r, (s.procs r).state ≠ .UNUSED ∧ (s.procs r).Maps f

def State.reapedThread (s : State n) (p : Fin n) : Op → Option (Fin n)
  | .wait => (s.findZombie p none).filter fun pp => (s.procs pp).isThread
  | .join tid => (s.findZombie p (some tid)).filter fun pp => (s.procs pp).isThread
  | _ => none

/-- The pages of a thread that is freed have been given back, or another process maps them. -/
def Covered (s : State n) (label : Fin n × Op) : Prop :=
  ∀ pp ∈ s.reapedThread label.1 label.2, ∀ f ∈ (s.procs pp).framesFrom 0, s.kmem.user f = true →
    ∃ r, r ≠ pp ∧ (s.procs r).state ≠ .UNUSED ∧ 0 < (s.procs r).userFrames f

instance (s : State n) (label : Fin n × Op) : Decidable (Covered s label) :=
  inferInstanceAs (Decidable (∀ pp ∈ s.reapedThread label.1 label.2, _))

theorem mapped_elsewhere {q r : Fin n} {proc : Proc n} {f : Frame}
    (procs : t.procs = Function.update s.procs q proc) (other : r ≠ q)
    (used : (s.procs r).state ≠ .UNUSED) (mapped : (s.procs r).Maps f) :
    ∃ r, (t.procs r).state ≠ .UNUSED ∧ (t.procs r).Maps f := by
  refine ⟨r, ?_⟩
  rw [procs, Function.update_of_ne other]
  exact ⟨used, mapped⟩

theorem NoLeak.spawned {np : Fin n} {child : Proc n} (noLeak : NoLeak s)
    (spawned : Spawned s p np child t)
    (lent : ∀ f, t.kmem.user f = true → child.Maps f ∨ s.kmem.user f = true) : NoLeak t := by
  intro f later
  rcases lent f later with mapped | before
  · refine ⟨np, ?_⟩
    rw [spawned.procs, Function.update_self, spawned.state]
    exact ⟨by simp, mapped⟩
  · obtain ⟨r, used, mapped⟩ := noLeak f before
    refine mapped_elsewhere spawned.procs ?_ used mapped
    rintro rfl
    exact used (by rw [spawned.free, Proc.unused])

theorem NoLeak.step {op : Op} (noLeak : NoLeak s) (running : (s.procs p).state = .RUNNABLE)
    (allowed : Covered s (p, op)) (effect : Effect initproc p op s t) : NoLeak t := by
  cases effect with
  | kept kept =>
      intro f lent
      rw [kept.procs]
      exact noLeak f (kept.lent f lent)
  | exited _ same =>
      subst same
      intro f lent
      obtain ⟨r, used, mapped⟩ := noLeak f lent
      refine ⟨r, ?_, mapped⟩
      by_cases same : r = p
      · simp [State.exited, same]
      · simpa [State.exited, same] using used
  | @moved old new sz moved =>
      intro f lent
      rcases moved.moves.lent f lent with mapped | ⟨before, unmapped⟩
      · refine ⟨p, ?_⟩
        rw [moved.procs, Function.update_self]
        exact ⟨by simp [running], new, rfl, mapped⟩
      · obtain ⟨r, used, mapped⟩ := noLeak f before
        refine mapped_elsewhere moved.procs ?_ used mapped
        rintro rfl
        obtain ⟨table, here, mapped⟩ := mapped
        obtain rfl := Option.some.inj (here.symm.trans moved.before)
        exact unmapped mapped
  | forked spawned _ _ lent => exact noLeak.spawned spawned lent
  | cloned spawned _ _ _ _ _ _ user =>
      exact noLeak.spawned spawned fun f lent => .inr (user ▸ lent)
  | @reapedProcess pp reaped _ _ lent =>
      intro f later
      obtain ⟨before, unmapped⟩ := lent f later
      obtain ⟨r, used, mapped⟩ := noLeak f before
      refine mapped_elsewhere reaped.procs ?_ used mapped
      rintro rfl
      exact unmapped mapped
  | @reapedThread pp reaped thread _ lent =>
      intro f later
      have before := lent f later
      have named : s.reapedThread p op = some pp := by
        obtain ⟨tid, found, ⟨rfl, rfl⟩ | ⟨i, rfl, rfl⟩⟩ := reaped.found <;>
          simp [State.reapedThread, found, thread]
      obtain ⟨r, used, mapped⟩ := noLeak f before
      by_cases same : r = pp
      · subst same
        obtain ⟨table, here, q, pte, low, entry, rfl⟩ := mapped
        obtain ⟨r', other, used, mapped⟩ := allowed r named pte.frame
          (Proc.mem_framesFrom here entry (Nat.zero_le q) low) before
        exact mapped_elsewhere reaped.procs other used (Proc.userFrames_pos.mp mapped)
      · exact mapped_elsewhere reaped.procs same used mapped

theorem boot_noLeak {frames : List Frame} (booted : boot initproc frames = some s) :
    NoLeak s := by
  obtain ⟨tf, sig, table, -, -, -, -, user, -⟩ := boot_some booted
  intro f lent
  rw [user] at lent
  simpa [Kmem.empty] using Kmem.user_kfreeAll lent

/-- In every run in which a thread is reaped only while others map its pages, no page of user
memory is lost. -/
theorem noLeak_of_covered (reachable : ((system initproc).restrict Covered).Reachable s) :
    NoLeak s := by
  refine @System.Reachable.invariantWith _ _ _ Shape NoLeak
    (fun _ earlier => reachable_shape earlier.unrestrict) ?_ ?_ s reachable
  · rintro s ⟨frames, -, booted⟩
    exact boot_noLeak booted
  · rintro before ⟨p, op⟩ after shape - noLeak ⟨allowed, taken⟩
    obtain ⟨running, effect⟩ := Effect.of_step shape taken
    exact noLeak.step running allowed effect

/-- A thread is joined while its creator still runs. -/
theorem noLeak_of_covered_joined : ∃ s : State 3,
    (s.procs 1).state = .UNUSED ∧ s.kmem.user 11 = true ∧ NoLeak s := by
  have sound : ∀ before label after, System.guard Covered (step (0 : Fin 3)) before label =
      some after → ((system 0).restrict Covered).step before label after :=
    System.guard_sound fun _ _ _ taken => taken
  have executed : ((boot 0 (List.range 24)).bind fun s =>
      (System.execute (System.guard Covered (step (0 : Fin 3))) s
        [(0, .exec smallImage), (0, .clone), (1, .exit), (0, .join 2)]).map
          fun s => ((s.procs 1).state, s.kmem.user 11)) = some (.UNUSED, true) := by
    decide +kernel
  obtain ⟨start, booted, executed⟩ := Option.bind_eq_some_iff.mp executed
  obtain ⟨s, run, ends⟩ := System.Run.existsOfExecute sound executed
  obtain ⟨unused, lent⟩ := Prod.mk.inj ends
  exact ⟨s, unused, lent, noLeak_of_covered (run.reachable
    (.start ⟨List.range 24, List.nodup_range, booted⟩))⟩

/-- A thread grows, exits and is joined: its page is neither mapped nor given back. -/
theorem grown_thread_leaks : ∃ s : State 3, (system 0).Reachable s ∧ ¬ NoLeak s := by
  have sound : ∀ before label after, step (0 : Fin 3) before label = some after →
      (system 0).step before label after := fun _ _ _ taken => taken
  have executed : ((boot 0 (List.range 24)).bind fun s => (System.execute (step (0 : Fin 3)) s
      [(0, .exec smallImage), (0, .clone), (1, .grow 4096), (1, .exit), (0, .join 2)]).map fun s =>
        (s.kmem.user 6, decide (∀ r, (s.procs r).userFrames 6 = 0))) = some (true, true) := by
    decide +kernel
  obtain ⟨start, booted, executed⟩ := Option.bind_eq_some_iff.mp executed
  obtain ⟨s, run, ends⟩ := System.Run.existsOfExecute sound executed
  obtain ⟨lent, unmapped⟩ := Prod.mk.inj ends
  refine ⟨s, run.reachable (.start ⟨List.range 24, List.nodup_range, booted⟩), fun noLeak => ?_⟩
  obtain ⟨r, -, mapped⟩ := noLeak 6 lent
  have positive := Proc.userFrames_pos.mpr mapped
  have none := of_decide_eq_true unmapped r
  omega

end OsLab.Kernel.Memory
