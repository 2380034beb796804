import OsLab.Kernel.SignalContext

/-!
Handlers and the program image they belong to. Beside the kernel runs a record of what
the image of each process has registered and been delivered since it was loaded, by
`exec` or with the process itself.
-/

namespace OsLab.Kernel.Signal

open OsLab.Library

/-- `delivered` carries the address that `usertrap` has put into `epc`. -/
inductive ImageEvent
  | registered (signal : Fin NSIG) (handler : UInt64)
  | delivered (signal : Fin NSIG) (epc : UInt64)
  deriving DecidableEq, Repr

/-- `image` lists the events of the image loaded in each slot, the newest first. -/
structure Traced where
  kernel : State
  image : Slot → List ImageEvent

def execs (state : State) : Slot × Action → Option Slot
  | (p, .call (.image _ _ _)) =>
      if syscalls (toInt (state.proc p).trapframe.a7) = some .exec then some p else none
  | _ => none

def spawns (state : State) : Slot × Action → Option Slot
  | (p, .call (.child np _)) | (p, .call (.noChild np _)) =>
      let call := syscalls (toInt (state.proc p).trapframe.a7)
      if call = some .fork ∨ call = some .clone then some np else none
  | _ => none

def registration (proc : Proc) : Option ImageEvent :=
  let signum := proc.trapframe.argint ⟨0, by decide⟩
  if h : signum < 0 ∨ signum ≥ NSIG ∨ signum = SIGKILL then none
  else
    some (.registered ⟨signum.toNat, by unfold NSIG at *; omega⟩ (proc.trapframe.argaddr ⟨1, by decide⟩))

/-- The event of a process's step: a registration, or a delivery with the `epc` it sets. -/
def noted (before after : State) : Slot × Action → Option ImageEvent
  | (p, .call _) =>
      let proc := before.proc p
      if syscalls (toInt proc.trapframe.a7) = some .signal then registration proc else none
  | (p, .next) =>
      match before.phase p with
      | .scan i =>
          if h : i < NSIG ∧ after.history p ≠ before.history p then
            some (.delivered ⟨i, h.1⟩ (after.proc p).trapframe.epc)
          else none
      | _ => none
  | _ => none

def observe (before after : State) (image : Slot → List ImageEvent) (label : Slot × Action) :
    Slot → List ImageEvent :=
  match (execs before label).or (spawns before label) with
  | some q => Function.update image q []
  | none => Function.update image label.1 ((noted before after label).toList ++ image label.1)

def Traced.step (state : Traced) (label : Slot × Action) : Option Traced :=
  (Signal.step state.kernel label).map fun after =>
    { kernel := after, image := observe state.kernel after state.image label }

def traced : System Traced (Slot × Action) where
  init state := ∃ trapframe page, state = { kernel := boot trapframe page, image := fun _ => [] }
  step before label after := before.step label = some after

theorem Traced.step_iff (state : Traced) (label : Slot × Action) (after : State) :
    (∃ image, state.step label = some { kernel := after, image }) ↔
      Signal.step state.kernel label = some after := by
  constructor
  · rintro ⟨image, taken⟩
    obtain ⟨next, ran, same⟩ := Option.map_eq_some_iff.mp taken
    obtain rfl : next = after := congrArg Traced.kernel same
    exact ran
  · intro ran
    exact ⟨_, by rw [Traced.step, ran]; rfl⟩

/-- Every delivery went to an address that the image had registered for that signal. -/
def Sanctioned : List ImageEvent → Prop
  | [] => True
  | .registered _ _ :: earlier => Sanctioned earlier
  | .delivered i epc :: earlier => .registered i epc ∈ earlier ∧ Sanctioned earlier

/-- No process runs a handler of an earlier image or is marked as handling a signal of one. -/
def HandlersCurrent (state : Traced) : Prop :=
  ∀ p, Sanctioned (state.image p) ∧
    ((state.kernel.proc p).isHandlingSignal = true → ∃ i epc, .delivered i epc ∈ state.image p)

/-- A successful `exec` finds no handler registered and no signal being handled. -/
def Unarmed (state : Traced) (label : Slot × Action) : Prop :=
  ∀ p ∈ execs state.kernel label,
    (∀ i, (state.kernel.proc p).signalHandlers i = SIG_DFL ∨
      (state.kernel.proc p).signalHandlers i = SIG_IGN) ∧
    (state.kernel.proc p).isHandlingSignal = false

instance (state : Traced) (label : Slot × Action) : Decidable (Unarmed state label) :=
  inferInstanceAs (Decidable (∀ _ ∈ _, _))

/-! ### Steps that register nothing and start nothing -/

/-- The handlers stay, the mark may only go, and an UNUSED slot is not taken. -/
structure Calm (old new : Proc) : Prop where
  handlers : new.signalHandlers = old.signalHandlers
  handling : new.isHandlingSignal = true → old.isHandlingSignal = true
  unused : old.state = .UNUSED → new.state = .UNUSED

def Calms (before after : State) : Prop := ∀ q, Calm (before.proc q) (after.proc q)

variable {state after : State} {p : Slot}

theorem Calms.same (unchanged : after.proc = state.proc) : Calms state after := fun q => by
  rw [unchanged]
  exact ⟨rfl, id, id⟩

theorem Calms.update {proc : Proc} (changed : after.proc = Function.update state.proc p proc)
    (calm : Calm (state.proc p) proc) : Calms state after := fun q => by
  rw [changed]
  by_cases same : q = p
  · subst q
    rwa [Function.update_self]
  · rw [Function.update_of_ne same]
    exact ⟨rfl, id, id⟩

theorem kexit_calms (running : (state.proc p).state = .RUNNING)
    (exited : kexit state p = some after) : Calms state after := by
  rw [kexit] at exited
  split at exited
  · simp at exited
  · obtain rfl := Option.some.inj exited
    exact .update rfl ⟨rfl, id, by simp [running]⟩

theorem kkill_calms (pid signum : Int) : Calms state (kkill state pid signum).1 := by
  rw [kkill]
  split
  · exact .same rfl
  · split
    · exact .same rfl
    · exact .update rfl ⟨rfl, id, fun unused => by simp [Proc.post, unused]⟩

theorem usertrap_calms {cause : Cause} (running : (state.proc p).state = .RUNNING)
    (trapped : usertrap state p cause = some after) : Calms state after := by
  cases cause with
  | ecall =>
      simp only [usertrap] at trapped
      split at trapped
      · exact kexit_calms running trapped
      · obtain rfl := Option.some.inj trapped
        exact .update rfl ⟨rfl, id, id⟩
  | device timer =>
      obtain rfl := Option.some.inj trapped
      exact .same rfl
  | fault served =>
      cases served
      · obtain rfl := Option.some.inj trapped
        exact .update rfl ⟨rfl, id, id⟩
      · obtain rfl := Option.some.inj trapped
        exact .same rfl
  | unexpected =>
      obtain rfl := Option.some.inj trapped
      exact .update rfl ⟨rfl, id, id⟩

theorem served_calms {timer : Bool} (running : (state.proc p).state = .RUNNING)
    (taken : served state p timer = some after) : Calms state after := by
  rw [served] at taken
  split at taken
  · exact kexit_calms running taken
  · split at taken
    · obtain rfl := Option.some.inj taken
      exact .update rfl ⟨rfl, id, by simp [running]⟩
    · obtain rfl := Option.some.inj taken
      exact .same rfl

theorem signals_calms : Calms state (signals state p) := by
  rw [signals]
  split
  · exact .same rfl
  · exact .same rfl

theorem schedule_calms {old new : Procstate} (used : old ≠ .UNUSED)
    (moved : schedule state p old new = some after) : Calms state after := by
  rw [schedule] at moved
  split at moved
  · rename_i here
    obtain rfl := Option.some.inj moved
    exact .update rfl ⟨rfl, id, by simp [here, used]⟩
  · simp at moved

theorem setA0_calms (value : UInt64) : Calms state (state.setA0 p value) :=
  .update rfl ⟨rfl, id, id⟩

theorem sigreturn_calms : Calms state (sysSigreturn state p).1 :=
  .update rfl ⟨rfl, by simp, id⟩

/-! ### The invariant -/

structure Loyal (proc : Proc) (image : List ImageEvent) : Prop where
  sanctioned : Sanctioned image
  handlers : proc.state ≠ .UNUSED → ∀ i, proc.signalHandlers i = SIG_DFL ∨
    proc.signalHandlers i = SIG_IGN ∨ .registered i (proc.signalHandlers i) ∈ image
  handling : proc.isHandlingSignal = true → ∃ i epc, .delivered i epc ∈ image

theorem Loyal.calm {old new : Proc} {image : List ImageEvent} (loyal : Loyal old image)
    (calm : Calm old new) : Loyal new image where
  sanctioned := loyal.sanctioned
  handlers used i := by
    rw [calm.handlers]
    exact loyal.handlers (fun unused => used (calm.unused unused)) i
  handling marked := loyal.handling (calm.handling marked)

theorem Loyal.start {proc : Proc} (handlers : ∀ i, proc.signalHandlers i = SIG_DFL ∨
    proc.signalHandlers i = SIG_IGN) (unmarked : proc.isHandlingSignal = false) :
    Loyal proc [] where
  sanctioned := trivial
  handlers _ i := (handlers i).imp_right .inl
  handling marked := by simp [unmarked] at marked

def Faithful (state : State) (image : Slot → List ImageEvent) : Prop :=
  ∀ p, Loyal (state.proc p) (image p)

variable {image : Slot → List ImageEvent}

theorem Faithful.calm (faithful : Faithful state image)
    (calms : Calms state after) : Faithful after image := fun q =>
  (faithful q).calm (calms q)

theorem Faithful.replace (faithful : Faithful state image) {events : List ImageEvent}
    (calm : ∀ q, q ≠ p → Calm (state.proc q) (after.proc q))
    (loyal : Loyal (after.proc p) events) : Faithful after (Function.update image p events) := by
  intro q
  by_cases same : q = p
  · subst q
    rwa [Function.update_self]
  · rw [Function.update_of_ne same]
    exact (faithful q).calm (calm q same)

theorem Faithful.allocproc (faithful : Faithful state image) (np : Slot) (page : Trapframe) :
    Faithful (allocproc state np page) (Function.update image np []) := by
  apply faithful.replace
  · intro q other
    simp only [Signal.allocproc, State.setProc, Function.update_of_ne other]
    exact ⟨rfl, id, id⟩
  · apply Loyal.start
    · intro i
      exact .inl (by simp [Signal.allocproc, State.setProc])
    · simp [Signal.allocproc, State.setProc]

theorem Faithful.startChild (faithful : Faithful state image) {np : Slot} (page frame : Trapframe) :
    Faithful (startChild (Signal.allocproc state np page) np frame)
      (Function.update image np []) :=
  (faithful.allocproc np page).calm
    (.update rfl ⟨rfl, id, by simp [Signal.allocproc, State.setProc]⟩)

theorem Faithful.freeproc (faithful : Faithful state image) (zombie : Slot) :
    Faithful (freeproc state zombie) image :=
  faithful.calm (.update rfl ⟨rfl, id, fun _ => rfl⟩)

theorem Loyal.register {proc : Proc} {events : List ImageEvent} (loyal : Loyal proc events)
    (signal : Fin NSIG) (handler : UInt64) :
    Loyal { proc with signalHandlers := Function.update proc.signalHandlers signal handler }
      (.registered signal handler :: events) where
  sanctioned := loyal.sanctioned
  handlers used i := by
    by_cases same : i = signal
    · subst i
      simp
    · simp only [Function.update_of_ne same]
      exact (loyal.handlers used i).imp_right (Or.imp_right (List.mem_cons_of_mem _))
  handling marked := by
    obtain ⟨i, epc, delivered⟩ := loyal.handling marked
    exact ⟨i, epc, List.mem_cons_of_mem _ delivered⟩

theorem Loyal.enter {proc : Proc} {events : List ImageEvent} {i : Fin NSIG}
    (loyal : Loyal proc events) (used : proc.state ≠ .UNUSED)
    (caught : proc.signalHandlers i ≠ SIG_IGN) (custom : proc.signalHandlers i ≠ SIG_DFL) :
    Loyal (proc.enter i) (.delivered i (proc.signalHandlers i) :: events) where
  sanctioned := by
    have registered := ((loyal.handlers used i).resolve_left custom).resolve_left caught
    exact ⟨registered, loyal.sanctioned⟩
  handlers used j :=
    (loyal.handlers used j).imp_right (Or.imp_right (List.mem_cons_of_mem _))
  handling _ := ⟨i, _, List.mem_cons_self⟩

theorem Faithful.sysSignal (faithful : Faithful state image) :
    Faithful (sysSignal state p).1
      (Function.update image p ((registration (state.proc p)).toList ++ image p)) := by
  simp only [Signal.sysSignal, registration, Fin.zero_eta, Fin.mk_one]
  split
  · simpa using faithful
  · refine faithful.replace (fun q other => ?_) ?_
    · simpa [State.setProc, other] using Calm.mk rfl id id
    · simpa [State.setProc] using (faithful p).register _ _

theorem Faithful.exec (faithful : Faithful state image) (entry sp argc : UInt64)
    (handlers : ∀ i, (state.proc p).signalHandlers i = SIG_DFL ∨
      (state.proc p).signalHandlers i = SIG_IGN)
    (unmarked : (state.proc p).isHandlingSignal = false) :
    Faithful (kexec state p entry sp argc).1 (Function.update image p []) := by
  refine faithful.replace (fun q other => ?_) (Loyal.start (fun i => ?_) ?_)
  · simpa [kexec, State.setProc, other] using Calm.mk rfl id id
  · simpa [kexec, State.setProc] using handlers i
  · simpa [kexec, State.setProc] using unmarked

theorem Faithful.run {call : Syscall} {outcome : Outcome} {called later : State} {value : UInt64}
    (faithful : Faithful state image)
    (number : syscalls (toInt (state.proc p).trapframe.a7) = some call)
    (unarmed : Unarmed { kernel := state, image } (p, .call outcome))
    (ran : call.run state p outcome = some (called, value)) :
    Faithful called (observe state later image (p, .call outcome)) := by
  cases call <;> cases outcome <;> simp only [Syscall.run, reduceCtorEq] at ran
  all_goals try split at ran
  all_goals simp only [Option.some.injEq, Prod.mk.injEq, reduceCtorEq] at ran
  all_goals obtain ⟨rfl, -⟩ := ran
  all_goals simp only [observe, execs, spawns, noted, number, Option.some.injEq, reduceCtorEq,
    or_true, true_or, or_self, ↓reduceIte, Option.or_some, Option.or_none,
    Option.toList_none, List.nil_append, Function.update_eq_self]
  case fork.returns | wait.returns | exec.returns | clone.returns | other.returns => exact faithful
  case fork.child => exact faithful.startChild _ _
  case clone.child => exact faithful.startChild _ _
  case fork.noChild => exact (faithful.allocproc _ _).freeproc _
  case clone.noChild => exact (faithful.allocproc _ _).freeproc _
  case wait.reaped => exact faithful.freeproc _
  case exec.image =>
    have clean := unarmed p (by simp [execs, number])
    exact faithful.exec _ _ value clean.1 clean.2
  all_goals first
    | exact faithful.calm (kkill_calms _ _)
    | exact faithful.sysSignal
    | exact faithful.calm sigreturn_calms

theorem Faithful.syscall {outcome : Outcome} (faithful : Faithful state image)
    (running : (state.proc p).state = .RUNNING)
    (unarmed : Unarmed { kernel := state, image } (p, .call outcome))
    (called : syscall state p outcome = some after) :
    Faithful after (observe state after image (p, .call outcome)) := by
  rw [Signal.syscall] at called
  split at called
  · rename_i unknown
    obtain rfl := Option.some.inj called
    have calm : Faithful ((state.setA0 p (.ofInt (-1))).goto p (.served false)) image :=
      faithful.calm (setA0_calms _)
    cases outcome <;> simpa [observe, execs, spawns, noted, unknown] using calm
  · rename_i exit
    have calm : Faithful after image := faithful.calm (kexit_calms running called)
    cases outcome <;> simpa [observe, execs, spawns, noted, exit] using calm
  · rename_i number
    obtain ⟨⟨next, value⟩, ran, rest⟩ := Option.bind_eq_some_iff.mp called
    obtain rfl := Option.some.inj rest
    exact (faithful.run number unarmed ran).calm (setA0_calms value)
  · rename_i call _ _ number
    obtain ⟨⟨next, value⟩, ran, rest⟩ := Option.bind_eq_some_iff.mp called
    obtain rfl := Option.some.inj rest
    exact (faithful.run number unarmed ran).calm (setA0_calms value)

theorem scan_cases (state : State) (p : Slot) (i : ℕ) :
    (Calms state (scan state p i) ∧ (scan state p i).history = state.history) ∨
    ∃ bound : i < NSIG, (state.proc p).signalHandlers ⟨i, bound⟩ ≠ SIG_IGN ∧
      (state.proc p).signalHandlers ⟨i, bound⟩ ≠ SIG_DFL ∧
      scan state p i = ((state.setProc p ((state.proc p).enter ⟨i, bound⟩)).record p
        (.entered ⟨i, bound⟩ (state.proc p).trapframe)).goto p .leave := by
  simp only [Signal.scan]
  split
  · rename_i bound
    split
    · exact .inl ⟨.same rfl, rfl⟩
    · split
      · exact .inl ⟨.update rfl ⟨rfl, id, id⟩, rfl⟩
      · rename_i caught
        split
        · exact .inl ⟨.update rfl ⟨rfl, id, id⟩, rfl⟩
        · rename_i custom
          exact .inr ⟨bound, caught, custom, rfl⟩
  · exact .inl ⟨.same rfl, rfl⟩

theorem Faithful.scan {i : ℕ} (faithful : Faithful state image)
    (running : (state.proc p).state = .RUNNING) (here : state.phase p = .scan i) :
    Faithful (scan state p i) (observe state (scan state p i) image (p, .next)) := by
  rcases scan_cases state p i with ⟨calms, silent⟩ | ⟨bound, caught, custom, entered⟩
  · have unchanged : observe state (Signal.scan state p i) image (p, .next) = image := by
      simp [observe, execs, spawns, noted, here, silent]
    rw [unchanged]
    exact faithful.calm calms
  · have delivered : observe state (Signal.scan state p i) image (p, .next) =
        Function.update image p
          (.delivered ⟨i, bound⟩ ((state.proc p).signalHandlers ⟨i, bound⟩) :: image p) := by
      simp [observe, execs, spawns, noted, here, entered, bound, State.goto, State.record,
        State.setProc, Proc.enter]
    rw [delivered, entered]
    refine faithful.replace (fun q other => ?_) ?_
    · simpa [State.goto, State.record, State.setProc, other] using Calm.mk rfl id id
    · simpa [State.goto, State.record, State.setProc] using
        (faithful p).enter (by simp [running]) caught custom

theorem Faithful.advance {action : Action} (faithful : Faithful state image)
    (running : (state.proc p).state = .RUNNING)
    (unarmed : Unarmed { kernel := state, image } (p, action))
    (taken : advance state p (state.phase p) action = some after) :
    Faithful after (observe state after image (p, action)) := by
  cases here : state.phase p <;> cases action <;>
    simp only [here, Signal.advance, reduceCtorEq] at taken
  case syscall.call => exact faithful.syscall running unarmed taken
  case scan.next i =>
    obtain rfl := Option.some.inj taken
    exact faithful.scan running here
  all_goals
    have unchanged : ∀ action, (∀ outcome, action ≠ .call outcome) →
        observe state after image (p, action) = image := by
      intro action other
      cases action <;> simp_all [observe, execs, spawns, noted]
    rw [unchanged _ (by simp)]
    apply faithful.calm
  case user.trap =>
    obtain rfl := Option.some.inj taken
    exact .update rfl ⟨rfl, id, id⟩
  case forkret.resume =>
    obtain rfl := Option.some.inj taken
    exact .update rfl ⟨rfl, id, id⟩
  case usertrap.next => exact usertrap_calms running taken
  case served.next => exact served_calms running taken
  case signals.next =>
    obtain rfl := Option.some.inj taken
    exact signals_calms
  case leave.resume =>
    split at taken
    · exact kexit_calms running taken
    · obtain rfl := Option.some.inj taken
      exact .update rfl ⟨rfl, id, id⟩

theorem Faithful.step {label : Slot × Action} (faithful : Faithful state image)
    (unarmed : Unarmed { kernel := state, image } label)
    (taken : step state label = some after) :
    Faithful after (observe state after image label) := by
  obtain ⟨p, action⟩ := label
  cases action <;> simp only [Signal.step] at taken
  case dispatch | wakeup =>
    simpa [observe, execs, spawns, noted] using faithful.calm (schedule_calms (by simp) taken)
  case sleep =>
    split at taken
    · simpa [observe, execs, spawns, noted] using faithful.calm (schedule_calms (by simp) taken)
    · simp at taken
  case preempt =>
    split at taken
    · simp at taken
    · simpa [observe, execs, spawns, noted] using faithful.calm (schedule_calms (by simp) taken)
  all_goals
    split at taken
    · rename_i running
      exact faithful.advance running unarmed taken
    · simp at taken

theorem boot_faithful (trapframe page : Trapframe) :
    Faithful (boot trapframe page) fun _ => [] := by
  intro p
  by_cases first : p = initproc
  · exact Loyal.start (fun i => .inl (by simp [boot, first])) rfl
  · exact ⟨trivial, by simp [boot, first], by simp [boot]⟩

theorem faithful_of_unarmed {state : Traced}
    (reachable : (traced.restrict Unarmed).Reachable state) :
    Faithful state.kernel state.image := by
  induction reachable with
  | start initial =>
      obtain ⟨trapframe, page, rfl⟩ := initial
      exact boot_faithful trapframe page
  | step _ taken ih =>
      obtain ⟨unarmed, taken⟩ := taken
      obtain ⟨next, ran, rfl⟩ := Option.map_eq_some_iff.mp taken
      exact ih.step unarmed ran

/-- Handlers belong to the running image in every run whose successful `exec`s are made with no
handler registered and outside any handler. -/
theorem handlers_current {state : Traced}
    (reachable : (traced.restrict Unarmed).Reachable state) : HandlersCurrent state := fun p =>
  have loyal := faithful_of_unarmed reachable p
  ⟨loyal.sanctioned, loyal.handling⟩

def dispatched : List (Slot × Action) := [.dispatch, toUser].map fun action => (initproc, action)

/-- From user mode to user mode: init registers a handler for signal 2 at 0x1000. -/
def armed (sepc : UInt64) : List (Slot × Action) :=
  [ecall sepc 23 2 0x1000, .next, .call (.returns 0), .next, .next, toUser].map
    fun action => (initproc, action)

def reloaded (sepc : UInt64) : List (Slot × Action) :=
  [ecall sepc 7 0 0, .next, .call (.image 0x10000 0x20000 0), .next, .next, toUser].map
    fun action => (initproc, action)

/-- Init sends itself signal 2, which the loop comes to in its third round. -/
def signalled (sepc : UInt64) : List (Slot × Action) :=
  [ecall sepc 6 1 2, .next, .call (.returns 0), .next, .next, .next, .next, .next, toUser].map
    fun action => (initproc, action)

def started : Traced := { kernel := boot default default, image := fun _ => [] }

theorem handlers_current_signalled : ∃ state : Traced,
    state.image initproc =
      [.delivered ⟨2, by decide⟩ 0x1000, .registered ⟨2, by decide⟩ 0x1000] ∧
    Sanctioned (state.image initproc) := by
  have sound : ∀ before label after, System.guard Unarmed Traced.step before label = some after →
      (traced.restrict Unarmed).step before label after :=
    System.guard_sound fun _ _ _ taken => taken
  have executed : (System.execute (System.guard Unarmed Traced.step) started
      (dispatched ++ reloaded 0x100 ++ armed 0x10000 ++ signalled 0x10010)).map
        (fun state => state.image initproc) =
        some [.delivered ⟨2, by decide⟩ 0x1000, .registered ⟨2, by decide⟩ 0x1000] := by
    decide +kernel
  obtain ⟨state, run, events⟩ := System.Run.existsOfExecute sound executed
  have reachable := run.reachable (.start ⟨default, default, rfl⟩)
  exact ⟨state, events, (handlers_current reachable initproc).1⟩

/-- After `exec` the new image is taken to a handler of the old one; and `exec` inside a handler
leaves the new image marked. -/
theorem handlers_outlive_exec :
    (∃ state : Traced, traced.Reachable state ∧
      state.image initproc = [.delivered ⟨2, by decide⟩ 0x1000] ∧ ¬ HandlersCurrent state) ∧
    ∃ state : Traced, traced.Reachable state ∧ state.image initproc = [] ∧
      (state.kernel.proc initproc).isHandlingSignal = true ∧ ¬ HandlersCurrent state := by
  have sound : ∀ before label after, Traced.step before label = some after →
      traced.step before label after := fun _ _ _ taken => taken
  constructor
  · have executed : (System.execute Traced.step started
        (dispatched ++ armed 0x100 ++ reloaded 0x200 ++ signalled 0x10000)).map
          (fun state => state.image initproc) = some [.delivered ⟨2, by decide⟩ 0x1000] := by
      decide +kernel
    obtain ⟨state, run, events⟩ := System.Run.existsOfExecute sound executed
    refine ⟨state, run.reachable (.start ⟨default, default, rfl⟩), events, fun current => ?_⟩
    have sanctioned := (current initproc).1
    rw [events] at sanctioned
    simpa using sanctioned.1
  · have executed : (System.execute Traced.step started
        (dispatched ++ armed 0x100 ++ signalled 0x200 ++ reloaded 0x1000)).map
          (fun state => (state.image initproc,
            (state.kernel.proc initproc).isHandlingSignal)) = some ([], true) := by
      decide +kernel
    obtain ⟨state, run, ends⟩ := System.Run.existsOfExecute sound executed
    simp only [Prod.mk.injEq] at ends
    refine ⟨state, run.reachable (.start ⟨default, default, rfl⟩), ends.1, ends.2, ?_⟩
    intro current
    obtain ⟨i, epc, delivered⟩ := (current initproc).2 ends.2
    simp [ends.1] at delivered

end OsLab.Kernel.Signal
