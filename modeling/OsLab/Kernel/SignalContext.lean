import OsLab.Kernel.Signal
import Mathlib.Data.List.Chain

/-!
The context a handler interrupts is given back: between the delivery that saves a
trapframe and the `sys_sigreturn` that ends the handler nothing else is delivered,
and the trapframe `syscall` leaves behind is the one that was saved.
-/

namespace OsLab.Kernel.Signal

open OsLab.Library

def Event.Follows : Event → Event → Prop
  | .entered _ saved, next => next = .returned saved
  | .returned _, _ => True

structure Context (proc : Proc) (phase : Phase) (history : List Event) : Prop where
  chain : history.IsChain Event.Follows
  scanning : ∀ i, phase = .scan i → proc.isHandlingSignal = false
  handling : ∀ signal saved, history.getLast? = some (.entered signal saved) →
    proc.isHandlingSignal = true ∧ proc.sigTf = saved

def Sound (state : State) : Prop :=
  ∀ p, Context (state.proc p) (state.phase p) (state.history p)

theorem boot_sound (trapframe page : Trapframe) : Sound (boot trapframe page) := fun p =>
  ⟨by simp [boot], by simp [boot], by simp [boot]⟩

theorem Sound.setProc {state : State} (sound : Sound state) (p : Slot) {proc : Proc}
    (guard : proc.isHandlingSignal = (state.proc p).isHandlingSignal)
    (saved : proc.sigTf = (state.proc p).sigTf) : Sound (state.setProc p proc) := by
  intro q
  by_cases same : q = p
  · subst q
    obtain ⟨chain, scanning, handling⟩ := sound p
    refine ⟨chain, fun i here => ?_, fun signal frame last => ?_⟩
    · simpa [State.setProc, guard] using scanning i here
    · simpa [State.setProc, guard, saved] using handling signal frame last
  · simpa [State.setProc, same] using sound q

theorem Sound.goto {state : State} (sound : Sound state) (p : Slot) {phase : Phase}
    (safe : ∀ i, phase = .scan i → (state.proc p).isHandlingSignal = false) :
    Sound (state.goto p phase) := by
  intro q
  by_cases same : q = p
  · subst q
    obtain ⟨chain, -, handling⟩ := sound p
    exact ⟨chain, fun i here => safe i (by simpa [State.goto] using here), handling⟩
  · simpa [State.goto, same] using sound q

theorem Sound.move {state : State} (sound : Sound state) (p : Slot) {proc : Proc} {phase : Phase}
    (guard : proc.isHandlingSignal = (state.proc p).isHandlingSignal)
    (saved : proc.sigTf = (state.proc p).sigTf) (outside : ∀ i, phase ≠ .scan i) :
    Sound ((state.setProc p proc).goto p phase) :=
  (sound.setProc p guard saved).goto p fun i here => absurd here (outside i)

theorem Sound.allocproc {state : State} (sound : Sound state) (np : Slot) (page : Trapframe) :
    Sound (allocproc state np page) := by
  intro q
  by_cases same : q = np
  · subst q
    exact ⟨by simp [Signal.allocproc], by simp [Signal.allocproc], by simp [Signal.allocproc]⟩
  · simpa [Signal.allocproc, State.setProc, same] using sound q

theorem Sound.freeproc {state : State} (sound : Sound state) (p : Slot) :
    Sound (freeproc state p) := sound.setProc p rfl rfl

theorem Sound.startChild {state : State} (sound : Sound state) (np : Slot)
    (trapframe : Trapframe) : Sound (startChild state np trapframe) := sound.setProc np rfl rfl

theorem Sound.setA0 {state : State} (sound : Sound state) (p : Slot) (value : UInt64) :
    Sound (state.setA0 p value) := sound.setProc p rfl rfl

theorem Sound.kexit {state after : State} (sound : Sound state) {p : Slot}
    (exited : kexit state p = some after) : Sound after := by
  rw [Signal.kexit] at exited
  split at exited
  · simp at exited
  · obtain rfl := Option.some.inj exited
    exact sound.setProc p rfl rfl

theorem Sound.kkill {state : State} (sound : Sound state) (pid signum : Int) :
    Sound (kkill state pid signum).1 := by
  rw [Signal.kkill]
  split
  · exact sound
  · split
    · exact sound
    · rename_i q _
      exact sound.setProc q rfl rfl

theorem Sound.sysSignal {state : State} (sound : Sound state) (p : Slot) :
    Sound (sysSignal state p).1 := by
  rw [Signal.sysSignal]
  split
  · exact sound
  · exact sound.setProc p rfl rfl

/-- Every function of the table but `sys_sigreturn` leaves all guards and saved frames alone,
or starts a process with an empty history. -/
theorem Sound.run {state called : State} (sound : Sound state) {p : Slot} {call : Syscall}
    {outcome : Outcome} {value : UInt64} (other : call ≠ .sigreturn)
    (ran : call.run state p outcome = some (called, value)) : Sound called := by
  cases call <;> cases outcome <;> simp only [Syscall.run, reduceCtorEq] at ran
  all_goals try split at ran
  all_goals simp only [Option.some.injEq, Prod.mk.injEq, reduceCtorEq] at ran
  all_goals obtain ⟨rfl, -⟩ := ran
  case fork.returns | wait.returns | exec.returns | clone.returns | other.returns => exact sound
  case fork.child np page _ => exact (sound.allocproc np page).startChild np _
  case clone.child np page _ => exact (sound.allocproc np page).startChild np _
  case fork.noChild np page _ => exact (sound.allocproc np page).freeproc np
  case clone.noChild np page _ => exact (sound.allocproc np page).freeproc np
  case wait.reaped zombie _ => exact sound.freeproc zombie
  case exec.image => exact sound.setProc p rfl rfl
  all_goals first | exact sound.kkill _ _ | exact sound.sysSignal p | exact absurd rfl other

/-- What `syscall` leaves of a process that called `sys_sigreturn`: the saved frame, `a0`
included, with the guard down. -/
theorem sigreturn_proc (state : State) (p : Slot) :
    (((sysSigreturn state p).1.setA0 p (sysSigreturn state p).2).proc p) =
      { state.proc p with trapframe := (state.proc p).sigTf, isHandlingSignal := false } := by
  simp [sysSigreturn, State.setA0, State.setProc]

theorem Sound.sigreturn {state : State} (sound : Sound state) (p : Slot) :
    Sound ((((sysSigreturn state p).1.setA0 p (sysSigreturn state p).2).record p
      (.returned (state.proc p).sigTf)).goto p (.served false)) := by
  intro q
  by_cases same : q = p
  · subst q
    obtain ⟨chain, -, handling⟩ := sound p
    refine ⟨?_, by simp [State.goto], ?_⟩
    · simp only [State.goto, State.record, Function.update_self, sysSigreturn, State.setA0,
        State.setProc]
      rw [List.isChain_append]
      refine ⟨chain, .singleton _, fun last member next first => ?_⟩
      obtain rfl : Event.returned (state.proc p).sigTf = next := by simpa using first
      cases last with
      | entered signal saved =>
          simp only [Event.Follows]
          rw [(handling signal saved member).2]
      | returned _ => exact trivial
    · simp [State.goto, State.record]
  · simpa [State.goto, State.record, sysSigreturn, State.setA0, State.setProc, same] using sound q

theorem Sound.syscall {state after : State} (sound : Sound state) {p : Slot} {outcome : Outcome}
    (called : syscall state p outcome = some after) :
    Sound after := by
  rw [Signal.syscall] at called
  split at called
  · obtain rfl := Option.some.inj called
    exact (sound.setA0 p _).goto p (by simp)
  · exact sound.kexit called
  · simp only [Syscall.run, Option.bind_eq_bind, Option.bind_some, Option.some.injEq] at called
    subst after
    rw [sigreturn_proc]
    exact sound.sigreturn p
  · rename_i call _ other _
    obtain ⟨⟨next, value⟩, ran, rest⟩ := Option.bind_eq_some_iff.mp called
    obtain rfl := Option.some.inj rest
    exact ((sound.run (by simpa using other) ran).setA0 p _).goto p (by simp)

theorem Sound.usertrap {state after : State} (sound : Sound state) {p : Slot} {cause : Cause}
    (trapped : usertrap state p cause = some after) : Sound after := by
  cases cause with
  | ecall =>
      simp only [Signal.usertrap] at trapped
      split at trapped
      · exact sound.kexit trapped
      · obtain rfl := Option.some.inj trapped
        exact sound.move p rfl rfl (by simp)
  | device timer =>
      obtain rfl := Option.some.inj trapped
      exact sound.goto p (by simp)
  | fault served =>
      cases served
      · obtain rfl := Option.some.inj trapped
        exact sound.move p rfl rfl (by simp)
      · obtain rfl := Option.some.inj trapped
        exact sound.goto p (by simp)
  | unexpected =>
      obtain rfl := Option.some.inj trapped
      exact sound.move p rfl rfl (by simp)

theorem Sound.served {state after : State} (sound : Sound state) {p : Slot} {timer : Bool}
    (taken : served state p timer = some after) : Sound after := by
  rw [Signal.served] at taken
  split at taken
  · exact sound.kexit taken
  · split at taken
    · obtain rfl := Option.some.inj taken
      exact sound.move p rfl rfl (by simp)
    · obtain rfl := Option.some.inj taken
      exact sound.goto p (by simp)

theorem Sound.signals {state : State} (sound : Sound state) (p : Slot) :
    Sound (signals state p) := by
  rw [Signal.signals]
  split
  · rename_i open_
    exact sound.goto p fun _ _ => open_.2
  · exact sound.goto p (by simp)

theorem Sound.enter {state : State} (sound : Sound state) {p : Slot} (i : Fin NSIG)
    (down : (state.proc p).isHandlingSignal = false) :
    Sound (((state.setProc p ((state.proc p).enter i)).record p
      (.entered i (state.proc p).trapframe)).goto p .leave) := by
  intro q
  by_cases same : q = p
  · subst q
    obtain ⟨chain, -, handling⟩ := sound p
    refine ⟨?_, by simp [State.goto], ?_⟩
    · simp only [State.goto, State.record, State.setProc, Function.update_self]
      rw [List.isChain_append]
      refine ⟨chain, .singleton _, fun last member next first => ?_⟩
      cases last with
      | entered signal saved => simpa [down] using (handling signal saved member).1
      | returned _ => exact trivial
    · intro signal saved last
      have event : i = signal ∧ (state.proc p).trapframe = saved := by
        simpa [State.goto, State.record, State.setProc] using last
      simp [State.goto, State.record, State.setProc, Proc.enter, event.2]
  · simpa [State.goto, State.record, State.setProc, same] using sound q

theorem Sound.scan {state : State} (sound : Sound state) {p : Slot} {i : ℕ}
    (here : state.phase p = .scan i) : Sound (scan state p i) := by
  have down := (sound p).scanning i here
  simp only [Signal.scan]
  split
  · rename_i bound
    split
    · exact sound.goto p fun _ _ => down
    · split
      · have cleared : Sound (state.setProc p ((state.proc p).clear i)) := sound.setProc p rfl rfl
        exact cleared.goto p fun _ _ => by simpa [State.setProc, Proc.clear] using down
      · split
        · exact sound.move p rfl rfl (by simp)
        · exact sound.enter ⟨i, bound⟩ down
  · exact sound.goto p (by simp)

theorem Sound.advance {state after : State} (sound : Sound state) {p : Slot} {action : Action}
    (taken : advance state p (state.phase p) action = some after) : Sound after := by
  cases here : state.phase p <;> cases action <;>
    simp only [here, Signal.advance, reduceCtorEq] at taken
  case user.trap =>
    obtain rfl := Option.some.inj taken
    exact sound.move p rfl rfl (by simp)
  case forkret.resume =>
    obtain rfl := Option.some.inj taken
    exact sound.move p rfl rfl (by simp)
  case usertrap.next => exact sound.usertrap taken
  case syscall.call => exact sound.syscall taken
  case served.next => exact sound.served taken
  case signals.next =>
    obtain rfl := Option.some.inj taken
    exact sound.signals p
  case scan.next =>
    obtain rfl := Option.some.inj taken
    exact sound.scan here
  case leave.resume =>
    split at taken
    · exact sound.kexit taken
    · obtain rfl := Option.some.inj taken
      exact sound.move p rfl rfl (by simp)

theorem Sound.schedule {state next : State} (sound : Sound state) {p : Slot}
    {before after : Procstate} (moved : schedule state p before after = some next) :
    Sound next := by
  rw [Signal.schedule] at moved
  split at moved
  · obtain rfl := Option.some.inj moved
    exact sound.setProc p rfl rfl
  · simp at moved

theorem step_sound {state after : State} {label : Slot × Action} (sound : Sound state)
    (taken : step state label = some after) : Sound after := by
  obtain ⟨p, action⟩ := label
  cases action <;> simp only [step] at taken
  case dispatch | wakeup => exact sound.schedule taken
  case sleep =>
    split at taken
    · exact sound.schedule taken
    · simp at taken
  case preempt =>
    split at taken
    · simp at taken
    · exact sound.schedule taken
  all_goals
    split at taken
    · exact sound.advance taken
    · simp at taken

theorem sound_of_reachable {state : State} (reachable : system.Reachable state) :
    Sound state := by
  refine System.Reachable.invariant ?_ ?_ reachable
  · rintro _ ⟨trapframe, page, rfl⟩
    exact boot_sound trapframe page
  · rintro before label after sound taken
    exact step_sound sound taken

/-- In every history a delivery that saved a frame is followed by nothing but the return of
that frame, so no second handler is entered first; and until then `sys_sigreturn`, run through
`syscall`, leaves the process exactly the saved trapframe. -/
theorem signal_context_round_trip {state : State} (reachable : system.Reachable state)
    (p : Slot) :
    (state.history p).IsChain Event.Follows ∧
      ∀ signal saved, (state.history p).getLast? = some (.entered signal saved) →
        ∀ outcome after, syscalls (toInt (state.proc p).trapframe.a7) = some .sigreturn →
          syscall state p outcome = some after → (after.proc p).trapframe = saved := by
  obtain ⟨chain, -, handling⟩ := sound_of_reachable reachable p
  refine ⟨chain, fun signal saved last outcome after number called => ?_⟩
  rw [syscall] at called
  simp only [number, Syscall.run, Option.bind_eq_bind, Option.bind_some, Option.some.injEq]
    at called
  subst after
  have returned := congrArg Proc.trapframe (sigreturn_proc state p)
  exact returned.trans (handling signal saved last).2

def ecall (sepc a7 a0 a1 : UInt64) : Action :=
  .trap { (default : Registers) with a7 := a7, a0 := a0, a1 := a1 } sepc .ecall

def toUser : Action := .resume 0 0 0 0

/-- Init registers a handler for signal 2, sends itself that signal, is taken to the handler
on the way out of the call, and calls `sys_sigreturn` from there. -/
def caughtSignal : List (Slot × Action) :=
  [.dispatch, toUser,
    ecall 0x100 23 2 0x1000, .next, .call (.returns 0), .next, .next, toUser,
    ecall 0x200 6 1 2, .next, .call (.returns 0), .next, .next, .next, .next, .next, toUser,
    ecall 0x1000 24 7 8, .next, .call (.returns 0)].map fun action => (initproc, action)

def interrupted : Trapframe :=
  { (default : Trapframe) with a7 := 6, a0 := 0, a1 := 2, epc := 0x204 }

theorem signal_context_round_trip_caught : ∃ state : State,
    state.history initproc = [.entered ⟨2, by decide⟩ interrupted, .returned interrupted] ∧
    (state.history initproc).IsChain Event.Follows := by
  have runs : (System.execute step (boot default default) caughtSignal).map
      (fun state => state.history initproc) =
        some [.entered ⟨2, by decide⟩ interrupted, .returned interrupted] := by decide +kernel
  obtain ⟨state, executed, events⟩ := Option.map_eq_some_iff.mp runs
  have run : system.Run (boot default default) caughtSignal state :=
    .ofExecute (fun _ _ _ taken => taken) executed
  have reachable := run.reachable (.start ⟨default, default, rfl⟩)
  exact ⟨state, events, (signal_context_round_trip reachable initproc).1⟩

end OsLab.Kernel.Signal
