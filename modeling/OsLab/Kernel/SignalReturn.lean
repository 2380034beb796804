import OsLab.Kernel.SignalImage

/-!
What `sys_sigreturn` restores. Beside the kernel runs a record of the frame that each process is to
be given back: the one `usertrap` saved for a handler of its image, or the one that a child forked
in a handler has from its parent.
-/

namespace OsLab.Kernel.Signal

open OsLab.Library

structure Saved where
  frame : Trapframe
  inherited : Bool
  deriving DecidableEq

structure Framed where
  kernel : State
  live : Slot → Option Saved

def forks (state : State) : Slot × Action → Option Slot
  | (p, .call (.child np _)) =>
      if syscalls (toInt (state.proc p).trapframe.a7) = some .fork then some np else none
  | _ => none

def newest (before after : State) (q : Slot) : Option Event :=
  if after.history q = before.history q then none else (after.history q).getLast?

def track (before after : State) (live : Slot → Option Saved) (label : Slot × Action) (q : Slot) :
    Option Saved :=
  if execs before label = some q then none
  else if forks before label = some q then
    (live label.1).map fun saved => { saved with inherited := true }
  else if spawns before label = some q then none
  else
    match newest before after q with
    | some (.entered _ frame) => some { frame := frame, inherited := false }
    | some (.returned _) => none
    | none => live q

def Framed.step (state : Framed) (label : Slot × Action) : Option Framed :=
  (Signal.step state.kernel label).map fun after =>
    { kernel := after, live := track state.kernel after state.live label }

def framed : System Framed (Slot × Action) where
  init state := ∃ trapframe page, state = { kernel := boot trapframe page, live := fun _ => none }
  step before label after := before.step label = some after

/-- A call of `sys_sigreturn` gives back the frame there is, or fails and changes nothing. -/
def Restores (state : Framed) (p : Slot) : Prop :=
  let (after, value) := sysSigreturn state.kernel p
  match state.live p with
  | some saved => (after.proc p).trapframe = saved.frame
  | none => value = .ofInt (-1) ∧ (after.proc p).trapframe = (state.kernel.proc p).trapframe

/-- The process is in a handler that it was taken to itself; or what `sig_tf` holds happens to be
right. -/
def InHandler (state : Framed) (p : Slot) : Prop :=
  let proc := state.kernel.proc p
  match state.live p with
  | some saved => saved.inherited = false ∨ proc.sigTf = saved.frame
  | none => proc.sigTf = proc.trapframe ∧ proc.trapframe.a0 = .ofInt (-1)

variable {state after : State} {p q : Slot}

/-! ### The histories -/

def Grown (before after : State) (q : Slot) : Prop :=
  after.history q = before.history q ∨ ∃ event, after.history q = before.history q ++ [event]

theorem Grown.same (unchanged : after.history = state.history) : Grown state after q :=
  .inl (by rw [unchanged])

theorem kexit_history (exited : kexit state p = some after) : after.history = state.history := by
  rw [kexit] at exited
  split at exited
  · simp at exited
  · obtain rfl := Option.some.inj exited
    rfl

theorem kkill_history (pid signum : Int) :
    (kkill state pid signum).1.history = state.history := by
  rw [kkill]
  split
  · rfl
  · split <;> rfl

theorem sysSignal_history : (sysSignal state p).1.history = state.history := by
  rw [sysSignal]
  split <;> rfl

theorem run_history {call : Syscall} {outcome : Outcome} {called : State} {value : UInt64}
    (number : syscalls (toInt (state.proc p).trapframe.a7) = some call)
    (other : spawns state (p, .call outcome) ≠ some q)
    (ran : call.run state p outcome = some (called, value)) :
    called.history q = state.history q := by
  cases call <;> cases outcome <;> simp only [Syscall.run, reduceCtorEq] at ran
  all_goals try split at ran
  all_goals simp only [Option.some.injEq, Prod.mk.injEq, reduceCtorEq] at ran
  all_goals obtain ⟨rfl, -⟩ := ran
  all_goals simp only [spawns, number, true_or, or_true, ↓reduceIte, ne_eq, Option.some.injEq] at other
  case fork.child np page _ =>
    simp [kfork, startChild, allocproc, State.setProc, Function.update_of_ne (Ne.symm other)]
  case clone.child np page _ =>
    simp [kclone, startChild, allocproc, State.setProc, Function.update_of_ne (Ne.symm other)]
  case fork.noChild np page _ =>
    simp [freeproc, allocproc, State.setProc, Function.update_of_ne (Ne.symm other)]
  case clone.noChild np page _ =>
    simp [freeproc, allocproc, State.setProc, Function.update_of_ne (Ne.symm other)]
  all_goals first
    | rfl
    | exact congrFun (kkill_history _ _) q
    | exact congrFun sysSignal_history q

theorem syscall_grown {outcome : Outcome} (other : spawns state (p, .call outcome) ≠ some q)
    (called : syscall state p outcome = some after) : Grown state after q := by
  rw [syscall] at called
  split at called
  · obtain rfl := Option.some.inj called
    exact .same rfl
  · exact .same (kexit_history called)
  · rename_i number
    obtain ⟨⟨next, value⟩, ran, rest⟩ := Option.bind_eq_some_iff.mp called
    obtain rfl := Option.some.inj rest
    have before := run_history number other ran
    by_cases mine : q = p
    · subst q
      refine .inr ⟨.returned ((next.setA0 p value).proc p).trapframe, ?_⟩
      rw [← before]
      simp [State.goto, State.record, State.setA0, State.setProc]
    · left
      simpa [State.goto, State.record, State.setA0, State.setProc, mine] using before
  · rename_i number
    obtain ⟨⟨next, value⟩, ran, rest⟩ := Option.bind_eq_some_iff.mp called
    obtain rfl := Option.some.inj rest
    have before := run_history number other ran
    exact .inl before

theorem usertrap_history {cause : Cause} (trapped : usertrap state p cause = some after) :
    after.history = state.history := by
  cases cause with
  | ecall =>
      simp only [usertrap] at trapped
      split at trapped
      · exact kexit_history trapped
      · obtain rfl := Option.some.inj trapped
        rfl
  | device timer =>
      obtain rfl := Option.some.inj trapped
      rfl
  | fault served => cases served <;> (obtain rfl := Option.some.inj trapped; rfl)
  | unexpected =>
      obtain rfl := Option.some.inj trapped
      rfl

theorem served_history {timer : Bool} (taken : served state p timer = some after) :
    after.history = state.history := by
  rw [served] at taken
  split at taken
  · exact kexit_history taken
  · split at taken <;> (obtain rfl := Option.some.inj taken; rfl)

theorem scan_grown (i : ℕ) : Grown state (scan state p i) q := by
  rcases scan_cases state p i with ⟨-, silent⟩ | ⟨bound, -, -, entered⟩
  · exact .same silent
  · rw [entered]
    by_cases mine : q = p
    · subst q
      exact .inr ⟨.entered ⟨i, bound⟩ (state.proc p).trapframe,
        by simp [State.goto, State.record, State.setProc]⟩
    · exact .inl (by simp [State.goto, State.record, State.setProc, mine])

theorem schedule_history {old new : Procstate} (moved : schedule state p old new = some after) :
    after.history = state.history := by
  rw [schedule] at moved
  split at moved
  · obtain rfl := Option.some.inj moved
    rfl
  · cases moved

theorem advance_grown {action : Action} (other : spawns state (p, action) ≠ some q)
    (taken : advance state p (state.phase p) action = some after) : Grown state after q := by
  cases here : state.phase p <;> cases action <;>
    simp only [here, advance, reduceCtorEq] at taken
  case syscall.call => exact syscall_grown other taken
  case usertrap.next => exact .same (usertrap_history taken)
  case served.next => exact .same (served_history taken)
  case scan.next i =>
    obtain rfl := Option.some.inj taken
    exact scan_grown i
  case signals.next =>
    obtain rfl := Option.some.inj taken
    rw [signals]
    split <;> exact .same rfl
  case leave.resume =>
    split at taken
    · exact .same (kexit_history taken)
    · obtain rfl := Option.some.inj taken
      exact .same rfl
  all_goals
    obtain rfl := Option.some.inj taken
    exact .same rfl

theorem step_grown {label : Slot × Action} (taken : step state label = some after)
    (other : spawns state label ≠ some q) : Grown state after q := by
  obtain ⟨p, action⟩ := label
  cases action <;> simp only [step] at taken
  case dispatch | wakeup => exact .same (schedule_history taken)
  case sleep =>
    split at taken
    · exact .same (schedule_history taken)
    · cases taken
  case preempt =>
    split at taken
    · cases taken
    · exact .same (schedule_history taken)
  all_goals
    split at taken
    · exact advance_grown other taken
    · cases taken

/-! ### The frames to be given back -/

/-- A frame of the process's own is the last that `usertrap` has saved for it. -/
def Tracks (state : Framed) : Prop :=
  ∀ p frame, state.live p = some { frame := frame, inherited := false } →
    ∃ signal, (state.kernel.history p).getLast? = some (.entered signal frame)

theorem Tracks.step {state after : Framed} {label : Slot × Action} (tracks : Tracks state)
    (taken : state.step label = some after) : Tracks after := by
  obtain ⟨next, ran, rfl⟩ := Option.map_eq_some_iff.mp taken
  intro q frame live
  simp only [track] at live
  split at live
  · cases live
  · split at live
    · obtain ⟨saved, -, same⟩ := Option.map_eq_some_iff.mp live
      cases saved
      cases same
    · split at live
      · cases live
      · rename_i other
        have grown := step_grown ran other
        rw [newest] at live
        by_cases silent : next.history q = state.kernel.history q
        · simp only [if_pos silent] at live
          simp only [silent]
          exact tracks q frame live
        · obtain ⟨event, added⟩ := grown.resolve_left silent
          simp only [if_neg silent] at live
          simp only [added, List.getLast?_append, List.getLast?_singleton, Option.some_or] at live ⊢
          cases event with
          | entered signal saved =>
              simp only [Option.some.injEq, Saved.mk.injEq] at live
              obtain ⟨rfl, -⟩ := live
              exact ⟨signal, rfl⟩
          | returned _ => cases live

theorem framed_kernel {state : Framed} (reachable : framed.Reachable state) :
    system.Reachable state.kernel ∧ Tracks state := by
  induction reachable with
  | start initial =>
      obtain ⟨trapframe, page, rfl⟩ := initial
      refine ⟨.start ⟨trapframe, page, rfl⟩, ?_⟩
      intro p frame live
      cases live
  | step _ taken ih =>
      obtain ⟨next, ran, rfl⟩ := Option.map_eq_some_iff.mp taken
      exact ⟨.step ih.1 ran, ih.2.step taken⟩

/-- A call of `sys_sigreturn` does what it should exactly where the process is in a handler that it
was taken to itself, in its present image. -/
theorem sigreturn_restores_iff {state : Framed} (reachable : framed.Reachable state) (p : Slot) :
    Restores state p ↔ InHandler state p := by
  obtain ⟨kernel, tracks⟩ := framed_kernel reachable
  have context := sound_of_reachable kernel p
  simp only [Restores, InHandler, sysSigreturn, State.setProc, Function.update_self]
  cases live : state.live p with
  | none =>
      simp only
      constructor
      · rintro ⟨failed, same⟩
        exact ⟨same, same ▸ failed⟩
      · rintro ⟨same, failed⟩
        exact ⟨same ▸ failed, same⟩
  | some saved =>
      simp only
      refine ⟨.inr, fun either => either.elim (fun own => ?_) id⟩
      obtain ⟨signal, last⟩ := tracks p saved.frame (by rw [live, ← own])
      exact (context.handling signal _ last).2

def begun : Framed := { kernel := boot default default, live := fun _ => none }

theorem begun_reachable : framed.Reachable begun := .start ⟨default, default, rfl⟩

def returning (p : Slot) (sepc : UInt64) : List (Slot × Action) :=
  [ecall sepc 24 0 0, .next].map fun action => (p, action)

def second : Slot := ⟨1, one_lt_NPROC⟩

/-- Init forks into the second slot, and the child gets to user mode. -/
def forked (sepc : UInt64) : List (Slot × Action) :=
  ([ecall sepc 1 0 0, .next, .call (.child second default)].map fun action => (initproc, action)) ++
    [(second, .dispatch), (second, toUser)]

theorem sigreturn_restores_signalled : ∃ state : Framed,
    (state.live initproc).map Saved.inherited = some false ∧ Restores state initproc := by
  have executed : (System.execute Framed.step begun
      (dispatched ++ armed 0x100 ++ signalled 0x200 ++ returning initproc 0x1000)).map
        (fun state => (state.live initproc).map Saved.inherited) = some (some false) := by
    decide +kernel
  have sound : ∀ before label after, Framed.step before label = some after →
      framed.step before label after := fun _ _ _ taken => taken
  obtain ⟨state, run, own⟩ := System.Run.existsOfExecute sound executed
  refine ⟨state, own, (sigreturn_restores_iff (run.reachable begun_reachable) initproc).mpr ?_⟩
  obtain ⟨saved, live, other⟩ := Option.map_eq_some_iff.mp own
  simp only [InHandler, live]
  exact .inl other

def gives (p : Slot) (state : Framed) : Option Trapframe × Trapframe :=
  ((state.live p).map Saved.frame, (state.kernel.proc p).sigTf)

/-- A call outside of any handler, one after `exec` in a handler, and one of a child that was forked
in a handler. -/
theorem stale_frames_restored :
    (∃ state : Framed, framed.Reachable state ∧ state.kernel.history initproc = [] ∧
      ¬ Restores state initproc) ∧
    (∃ state : Framed, framed.Reachable state ∧ state.kernel.history initproc ≠ [] ∧
      state.live initproc = none ∧ ¬ Restores state initproc) ∧
    ∃ state : Framed, framed.Reachable state ∧ (∃ saved, state.live second = some saved) ∧
      ¬ Restores state second := by
  have sound : ∀ before label after, Framed.step before label = some after →
      framed.step before label after := fun _ _ _ taken => taken
  refine ⟨?_, ?_, ?_⟩
  · have executed : (System.execute Framed.step begun
        (dispatched ++ returning initproc 0x100)).map
          (fun state => (state.kernel.history initproc, gives initproc state)) =
          some ([], none, default) := by
      decide +kernel
    obtain ⟨state, run, seen⟩ := System.Run.existsOfExecute sound executed
    simp only [gives, Prod.mk.injEq, Option.map_eq_none_iff] at seen
    obtain ⟨silent, live, page⟩ := seen
    refine ⟨state, run.reachable begun_reachable, silent, fun restores => ?_⟩
    simp only [Restores, live, sysSigreturn, page] at restores
    exact absurd restores.1 (by decide)
  · have executed : (System.execute Framed.step begun
        (dispatched ++ armed 0x100 ++ signalled 0x200 ++ reloaded 0x1000 ++
          returning initproc 0x10000)).map
          (fun state => (state.kernel.history initproc == [], gives initproc state)) =
          some (false, none, interrupted) := by
      decide +kernel
    obtain ⟨state, run, seen⟩ := System.Run.existsOfExecute sound executed
    simp only [gives, Prod.mk.injEq, Option.map_eq_none_iff] at seen
    obtain ⟨events, live, page⟩ := seen
    refine ⟨state, run.reachable begun_reachable, by simpa using events, live, fun restores => ?_⟩
    simp only [Restores, live, sysSigreturn, page] at restores
    exact absurd restores.1 (by decide)
  · have executed : (System.execute Framed.step begun
        (dispatched ++ armed 0x100 ++ signalled 0x200 ++ forked 0x1000 ++ returning second 0x1004)).map
          (gives second) = some (some interrupted, default) := by
      decide +kernel
    obtain ⟨state, run, seen⟩ := System.Run.existsOfExecute sound executed
    simp only [gives, Prod.mk.injEq, Option.map_eq_some_iff] at seen
    obtain ⟨⟨saved, live, frame⟩, page⟩ := seen
    refine ⟨state, run.reachable begun_reachable, ⟨saved, live⟩, fun restores => ?_⟩
    simp only [Restores, live, sysSigreturn, page, State.setProc, Function.update_self,
      frame] at restores
    exact absurd restores (by decide)

end OsLab.Kernel.Signal
