import OsLab.Kernel.MessageQueue
import OsLab.Library.System
import Mathlib.Data.Fintype.Basic

/-!
The message queues from boot, with `msgq_initialized` still 0: any number of
calls, interleaved at the test of the flag, each write of `msgq_init`, the lock
operations and the body between them. Copies succeed, so a call is its kind, its
queue id and, for a send, the message its process holds.
-/

namespace OsLab.Kernel.MessageQueueBoot

open OsLab.Library OsLab.Kernel.MessageQueue

inductive Kind
  | send (message : Message)
  | recv

structure Call where
  kind : Kind
  qid : Int

/-- The stores of one round of the loop in `msgq_init`; `initlock` makes the first two. -/
inductive Write
  | locked
  | cpu
  | head
  | tail
  | count
  deriving DecidableEq, Repr

inductive Pc
  | test
  | init (i : Fin NUM_QUEUES) (write : Write)
  | setInitialized
  | check
  | acquire (i : Fin NUM_QUEUES)
  | body (i : Fin NUM_QUEUES)
  | release (i : Fin NUM_QUEUES) (result : Int)
  | done (result : Int)
  deriving DecidableEq, Repr

/-- `sent` and `received` record, for each queue, the messages of the sends and receives whose
bodies succeeded, in the order in which they held the lock. -/
structure State where
  msgqueues : Fin NUM_QUEUES → MsgQueue
  locked : Fin NUM_QUEUES → Bool
  cpu : Fin NUM_QUEUES → Option ℕ
  initialized : Bool
  panicked : Bool
  pc : ℕ → Pc
  sent : Fin NUM_QUEUES → List Message
  received : Fin NUM_QUEUES → List Message

def State.goto (state : State) (caller : ℕ) (pc : Pc) : State :=
  { state with pc := Function.update state.pc caller pc }

def State.set (state : State) (i : Fin NUM_QUEUES) (q : MsgQueue) : State :=
  { state with msgqueues := Function.update state.msgqueues i q }

def firstQueue : Fin NUM_QUEUES := ⟨0, by decide⟩

def afterWrite (i : Fin NUM_QUEUES) : Write → Pc
  | .locked => .init i .cpu
  | .cpu => .init i .head
  | .head => .init i .tail
  | .tail => .init i .count
  | .count =>
      if next : i.val + 1 < NUM_QUEUES then .init ⟨i.val + 1, next⟩ .locked else .setInitialized

def State.write (state : State) (i : Fin NUM_QUEUES) : Write → State
  | .locked => { state with locked := Function.update state.locked i false }
  | .cpu => { state with cpu := Function.update state.cpu i none }
  | .head => state.set i { state.msgqueues i with head := 0 }
  | .tail => state.set i { state.msgqueues i with tail := 0 }
  | .count => state.set i { state.msgqueues i with count := 0 }

/-- The code between `acquire` and `release`, with the result it leads to. -/
def State.body (state : State) (i : Fin NUM_QUEUES) : Kind → State × Int
  | .send message =>
      let q := state.msgqueues i
      if q.count = MAX_MSGS then
        (state, -1)
      else
        ({ state.set i (q.fill message).pushed with
            sent := Function.update state.sent i (state.sent i ++ [message]) }, 0)
  | .recv =>
      let q := state.msgqueues i
      if q.count = 0 then
        (state, -1)
      else
        ({ state.set i q.popped with
            received := Function.update state.received i (state.received i ++ [q.msgs q.head]) }, 0)

/-- `release` panics when the caller's CPU does not hold the lock. -/
def State.unlock (state : State) (i : Fin NUM_QUEUES) (caller : ℕ) : State :=
  if state.locked i && state.cpu i == some caller then
    { state with
      locked := Function.update state.locked i false
      cpu := Function.update state.cpu i none }
  else
    { state with panicked := true }

/-- The next step of a caller, when it has one: a caller waits at a lock that is taken, and
nothing moves after a panic. Interrupts are off between `acquire` and `release`, so the CPU
that took a lock is named by the caller it runs. -/
def step (calls : ℕ → Call) (state : State) (caller : ℕ) : Option State :=
  if state.panicked then none
  else
    match state.pc caller with
    | .test =>
        some (state.goto caller (if state.initialized then .check else .init firstQueue .locked))
    | .init i write => some ((state.write i write).goto caller (afterWrite i write))
    | .setInitialized => some ({ state with initialized := true }.goto caller .check)
    | .check =>
        match queueOf (calls caller).qid with
        | none => some (state.goto caller (.done (-1)))
        | some i => some (state.goto caller (.acquire i))
    | .acquire i =>
        if state.locked i then none
        else
          some ({ state with
            locked := Function.update state.locked i true
            cpu := Function.update state.cpu i (some caller) }.goto caller (.body i))
    | .body i =>
        let result := state.body i (calls caller).kind
        some (result.1.goto caller (.release i result.2))
    | .release i result => some ((state.unlock i caller).goto caller (.done result))
    | .done _ => none

def boot : State where
  msgqueues _ := { msgs := fun _ _ => 0, head := 0, tail := 0, count := 0 }
  locked _ := false
  cpu _ := none
  initialized := false
  panicked := false
  pc _ := .test
  sent _ := []
  received _ := []

def system (calls : ℕ → Call) : System State ℕ where
  init := (· = boot)
  step before caller after := step calls before caller = some after

/-- Every message sent is delivered once, in the order of the sends, or still queued. -/
def Exact (state : State) : Prop :=
  ∀ i, state.sent i = state.received i ++ (state.msgqueues i).contents

/-- The caller has made some but not all of the writes of `msgq_init` to a queue. -/
def Pc.within (i : Fin NUM_QUEUES) : Pc → Prop
  | .init j write => j = i ∧ write ≠ .locked
  | _ => False

/-- Where `msgq_init` and the queues' users keep apart: a write finds its queue empty and
unlocked, and a lock is taken while no caller is inside the writes to its queue. -/
def Apart (state : State) (caller : ℕ) : Prop :=
  (∀ i write, state.pc caller = .init i write →
    state.locked i = false ∧ (state.msgqueues i).count = 0) ∧
  ∀ i, state.pc caller = .acquire i → ∀ other, ¬ (state.pc other).within i

/-! ### The invariant of runs that keep them apart -/

def Pc.holds (i : Fin NUM_QUEUES) : Pc → Prop
  | .body j => j = i
  | .release j _ => j = i
  | _ => False

/-- What a caller inside the writes to a queue has already stored there. -/
def Pc.cleared (i : Fin NUM_QUEUES) (q : MsgQueue) : Pc → Prop
  | .init j .tail => j = i → q.head = 0
  | .init j .count => j = i → q.head = 0 ∧ q.tail = 0
  | _ => True

structure Orderly (state : State) : Prop where
  alive : state.panicked = false
  holder : ∀ i caller, (state.pc caller).holds i →
    state.locked i = true ∧ state.cpu i = some caller
  quiet : ∀ i caller, (state.pc caller).within i →
    state.locked i = false ∧ (state.msgqueues i).count = 0
  cleared : ∀ i caller, (state.pc caller).cleared i (state.msgqueues i)
  valid : ∀ i, (∀ caller, ¬ (state.pc caller).within i) → (state.msgqueues i).Valid
  exact : Exact state

theorem boot_orderly : Orderly boot where
  alive := rfl
  holder i caller held := by simp [boot, Pc.holds] at held
  quiet i caller inside := by simp [boot, Pc.within] at inside
  cleared i caller := by simp [boot, Pc.cleared]
  valid i _ := Ring.Valid.empty (by decide)
  exact _ := rfl

theorem Orderly.goto {state : State} (orderly : Orderly state) {caller : ℕ} {pc : Pc}
    (outside : ∀ i, ¬ (state.pc caller).within i) (free : ∀ i, ¬ pc.holds i ∧ ¬ pc.within i)
    (clear : ∀ i q, pc.cleared i q) : Orderly (state.goto caller pc) where
  alive := orderly.alive
  holder i other held := by
    by_cases same : other = caller
    · subst other
      simp only [State.goto, Function.update_self] at held
      exact absurd held (free i).1
    · simp only [State.goto, Function.update_of_ne same] at held
      exact orderly.holder i other held
  quiet i other inside := by
    by_cases same : other = caller
    · subst other
      simp only [State.goto, Function.update_self] at inside
      exact absurd inside (free i).2
    · simp only [State.goto, Function.update_of_ne same] at inside
      exact orderly.quiet i other inside
  cleared i other := by
    by_cases same : other = caller
    · subst other
      simp only [State.goto, Function.update_self]
      exact clear i _
    · simp only [State.goto, Function.update_of_ne same]
      exact orderly.cleared i other
  valid i nobody := by
    refine orderly.valid i fun other => ?_
    by_cases same : other = caller
    · subst other
      exact outside i
    · simpa [State.goto, same] using nobody other
  exact := orderly.exact

theorem Orderly.setInitialized {state : State} (orderly : Orderly state) :
    Orderly { state with initialized := true } :=
  ⟨orderly.alive, orderly.holder, orderly.quiet, orderly.cleared, orderly.valid, orderly.exact⟩

theorem write_locked (state : State) (i j : Fin NUM_QUEUES) (write : Write)
    (free : state.locked i = false) : (state.write i write).locked j = state.locked j := by
  cases write <;> simp only [State.write, State.set]
  by_cases same : j = i
  · subst j
    simp [free]
  · simp [same]

theorem write_queue_other (state : State) {i j : Fin NUM_QUEUES} (write : Write) (other : j ≠ i) :
    (state.write i write).msgqueues j = state.msgqueues j ∧
      (state.write i write).cpu j = state.cpu j := by
  cases write <;> simp [State.write, State.set, other]

theorem write_count (state : State) (i : Fin NUM_QUEUES) (write : Write)
    (empty : (state.msgqueues i).count = 0) : ((state.write i write).msgqueues i).count = 0 := by
  cases write <;> simp [State.write, State.set, empty]

theorem contents_of_empty {q : MsgQueue} (empty : q.count = 0) : q.contents = [] := by
  simp [MsgQueue.contents, empty]

theorem Orderly.write {state : State} (orderly : Orderly state) {caller : ℕ}
    {i : Fin NUM_QUEUES} {write : Write} (here : state.pc caller = .init i write)
    (free : state.locked i = false) (empty : (state.msgqueues i).count = 0) :
    Orderly ((state.write i write).goto caller (afterWrite i write)) := by
  have kept : (state.write i write).pc = state.pc ∧ (state.write i write).panicked = state.panicked ∧
      (state.write i write).sent = state.sent ∧ (state.write i write).received = state.received := by
    cases write <;> simp [State.write, State.set]
  have still := write_count state i write empty
  have unheld : ∀ other, ¬ (state.pc other).holds i := by
    intro other held
    simpa [free] using (orderly.holder i other held).1
  have next : ∀ j, ¬ (afterWrite i write).holds j ∧ ((afterWrite i write).within j → j = i) := by
    intro j
    cases write <;> simp only [afterWrite] <;> (try split) <;> simp [Pc.holds, Pc.within, eq_comm]
  refine ⟨kept.2.1.trans orderly.alive, ?_, ?_, ?_, ?_, ?_⟩
  · intro j other held
    by_cases same : other = caller
    · subst other
      simp only [State.goto, Function.update_self] at held
      exact absurd held (next j).1
    · simp only [State.goto, Function.update_of_ne same, kept.1] at held
      have elsewhere : j ≠ i := by
        rintro rfl
        exact unheld other held
      simp only [State.goto, write_locked state i j write free,
        (write_queue_other state write elsewhere).2]
      exact orderly.holder j other held
  · intro j other inside
    simp only [State.goto, write_locked state i j write free]
    by_cases target : j = i
    · subst j
      exact ⟨free, still⟩
    · rw [(write_queue_other state write target).1]
      refine orderly.quiet j other ?_
      by_cases same : other = caller
      · subst other
        simp only [State.goto, Function.update_self] at inside
        exact absurd ((next j).2 inside) target
      · simpa only [State.goto, Function.update_of_ne same, kept.1] using inside
  · intro j other
    by_cases same : other = caller
    · subst other
      have mine := orderly.cleared i caller
      simp only [State.goto, Function.update_self]
      cases write <;> simp only [afterWrite] <;> (try split) <;> simp only [Pc.cleared]
      all_goals
        rintro rfl
        simp_all [Pc.cleared, State.write, State.set]
    · have theirs := orderly.cleared j other
      simp only [State.goto, Function.update_of_ne same, kept.1]
      by_cases target : j = i
      · subst j
        cases position : state.pc other <;> simp only [Pc.cleared] at theirs ⊢
        rename_i k w
        rw [position] at theirs
        cases w <;> cases write <;> simp_all [State.write, State.set]
      · rw [(write_queue_other state write target).1]
        exact theirs
  · intro j nobody
    by_cases target : j = i
    · subst j
      have mine := orderly.cleared i caller
      have gone := nobody caller
      simp only [State.goto, Function.update_self] at gone
      cases write <;> simp [afterWrite, Pc.within] at gone
      obtain ⟨head, tail⟩ : (state.msgqueues i).head = 0 ∧ (state.msgqueues i).tail = 0 := by
        simpa [here, Pc.cleared] using mine
      have zero : Ring.Valid MAX_MSGS 0 0 0 := .empty (by decide)
      simpa [State.goto, State.write, State.set, MsgQueue.Valid, head, tail] using zero
    · simp only [State.goto, (write_queue_other state write target).1]
      refine orderly.valid j fun other => ?_
      by_cases same : other = caller
      · subst other
        simp [here, Pc.within, Ne.symm target]
      · simpa [State.goto, same, kept.1] using nobody other
  · intro j
    simp only [State.goto, kept.2.2.1, kept.2.2.2]
    rw [orderly.exact j]
    by_cases target : j = i
    · subst j
      rw [contents_of_empty empty, contents_of_empty still]
    · rw [(write_queue_other state write target).1]

theorem Orderly.acquire {state : State} (orderly : Orderly state) {caller : ℕ}
    {i : Fin NUM_QUEUES} (here : state.pc caller = .acquire i) (free : state.locked i = false)
    (apart : ∀ other, ¬ (state.pc other).within i) :
    Orderly ({ state with
      locked := Function.update state.locked i true
      cpu := Function.update state.cpu i (some caller) }.goto caller (.body i)) where
  alive := orderly.alive
  holder j other held := by
    by_cases same : other = caller
    · subst other
      simp only [State.goto, Function.update_self, Pc.holds] at held
      subst j
      simp [State.goto]
    · simp only [State.goto, Function.update_of_ne same] at held
      have before := orderly.holder j other held
      have elsewhere : j ≠ i := by
        rintro rfl
        simp [free] at before
      simpa [State.goto, elsewhere] using before
  quiet j other inside := by
    by_cases same : other = caller
    · subst other
      simp [State.goto, Pc.within] at inside
    · simp only [State.goto, Function.update_of_ne same] at inside
      have elsewhere : j ≠ i := by
        rintro rfl
        exact apart other inside
      simpa [State.goto, elsewhere] using orderly.quiet j other inside
  cleared j other := by
    by_cases same : other = caller
    · subst other
      simp [State.goto, Pc.cleared]
    · simpa [State.goto, same] using orderly.cleared j other
  valid j nobody := by
    refine orderly.valid j fun other => ?_
    by_cases same : other = caller
    · subst other
      simp [here, Pc.within]
    · simpa [State.goto, same] using nobody other
  exact := orderly.exact

/-- The body, run under the lock: only the queue's own fields and history change, and the
invariant of the queue carries over. -/
theorem body_spec {state : State} {i : Fin NUM_QUEUES} (valid : (state.msgqueues i).Valid)
    (exact : Exact state) (kind : Kind) :
    (state.body i kind).1.locked = state.locked ∧ (state.body i kind).1.cpu = state.cpu ∧
      (state.body i kind).1.pc = state.pc ∧
      (state.body i kind).1.panicked = state.panicked ∧
      (∀ j, j ≠ i → (state.body i kind).1.msgqueues j = state.msgqueues j) ∧
      ((state.body i kind).1.msgqueues i).Valid ∧ Exact (state.body i kind).1 := by
  have others : ∀ (q : MsgQueue) j, j ≠ i → (state.set i q).msgqueues j = state.msgqueues j :=
    fun q j other => by simp [State.set, other]
  have own : ∀ q : MsgQueue, (state.set i q).msgqueues i = q :=
    fun q => by simp [State.set]
  have before := exact i
  cases kind with
  | send message =>
      simp only [State.body]
      split
      · exact ⟨rfl, rfl, rfl, rfl, fun _ _ => rfl, valid, exact⟩
      · rename_i room
        have space : (state.msgqueues i).count < MAX_MSGS := by
          have := valid.count_le
          omega
        refine ⟨rfl, rfl, rfl, rfl, others _, ?_, ?_⟩
        · simp only [own]
          exact (valid.fill message).pushed space
        · intro j
          by_cases same : j = i
          · subst j
            simp only [Function.update_self, MsgQueue.contents_pushed valid space, before,
              State.set, List.append_assoc]
          · simp only [Function.update_of_ne same, State.set]
            exact exact j
  | recv =>
      simp only [State.body]
      split
      · exact ⟨rfl, rfl, rfl, rfl, fun _ _ => rfl, valid, exact⟩
      · rename_i filled
        have positive : 0 < (state.msgqueues i).count := by omega
        refine ⟨rfl, rfl, rfl, rfl, others _, ?_, ?_⟩
        · simp only [own]
          exact valid.popped positive
        · intro j
          by_cases same : j = i
          · subst j
            simp only [Function.update_self, State.set, List.append_assoc]
            rw [before, MsgQueue.contents_popped valid positive]
            rfl
          · simp only [Function.update_of_ne same, State.set]
            exact exact j

theorem Orderly.body {state : State} (orderly : Orderly state) {caller : ℕ} {i : Fin NUM_QUEUES}
    (here : state.pc caller = .body i) (kind : Kind) :
    Orderly ((state.body i kind).1.goto caller (.release i (state.body i kind).2)) := by
  have locked := (orderly.holder i caller (by simp [here, Pc.holds])).1
  have apart : ∀ other, ¬ (state.pc other).within i := by
    intro other inside
    simpa [locked] using (orderly.quiet i other inside).1
  obtain ⟨locks, cpus, pcs, panic, others, valid, exact⟩ :=
    body_spec (orderly.valid i apart) orderly.exact kind
  refine ⟨panic.trans orderly.alive, ?_, ?_, ?_, ?_, exact⟩
  · intro j other held
    simp only [State.goto, locks, cpus]
    refine orderly.holder j other ?_
    by_cases same : other = caller
    · subst other
      simpa [State.goto, Pc.holds, here] using held
    · simpa [State.goto, same, pcs] using held
  · intro j other inside
    have before : (state.pc other).within j := by
      by_cases same : other = caller
      · subst other
        simp [State.goto, Pc.within] at inside
      · simpa [State.goto, same, pcs] using inside
    have elsewhere : j ≠ i := by
      rintro rfl
      exact apart other before
    simp only [State.goto, locks, others j elsewhere]
    exact orderly.quiet j other before
  · intro j other
    by_cases same : other = caller
    · subst other
      simp [State.goto, Pc.cleared]
    · simp only [State.goto, Function.update_of_ne same, pcs]
      by_cases target : j = i
      · subst j
        have outside := apart other
        cases position : state.pc other <;> simp only [Pc.cleared]
        rename_i k w
        cases w <;> simp_all [Pc.within]
      · rw [others j target]
        exact orderly.cleared j other
  · intro j nobody
    by_cases target : j = i
    · subst j
      exact valid
    · simp only [State.goto, others j target]
      refine orderly.valid j fun other => ?_
      by_cases same : other = caller
      · subst other
        simp [here, Pc.within]
      · simpa [State.goto, same, pcs] using nobody other

theorem Orderly.release {state : State} (orderly : Orderly state) {caller : ℕ}
    {i : Fin NUM_QUEUES} {result : Int} (here : state.pc caller = .release i result) :
    Orderly ((state.unlock i caller).goto caller (.done result)) := by
  obtain ⟨locked, cpu⟩ := orderly.holder i caller (by simp [here, Pc.holds])
  have held : state.unlock i caller = { state with
      locked := Function.update state.locked i false
      cpu := Function.update state.cpu i none } := by
    simp [State.unlock, locked, cpu]
  rw [held]
  refine ⟨orderly.alive, ?_, ?_, ?_, ?_, orderly.exact⟩
  · intro j other still
    by_cases same : other = caller
    · subst other
      simp [State.goto, Pc.holds] at still
    · simp only [State.goto, Function.update_of_ne same] at still
      have before := orderly.holder j other still
      have elsewhere : j ≠ i := by
        rintro rfl
        exact same (Option.some.inj (before.2.symm.trans cpu))
      simpa [State.goto, elsewhere] using before
  · intro j other inside
    have before : (state.pc other).within j := by
      by_cases same : other = caller
      · subst other
        simp [State.goto, Pc.within] at inside
      · simpa [State.goto, same] using inside
    have quiet := orderly.quiet j other before
    have elsewhere : j ≠ i := by
      rintro rfl
      simp [locked] at quiet
    simpa [State.goto, elsewhere] using quiet
  · intro j other
    by_cases same : other = caller
    · subst other
      simp [State.goto, Pc.cleared]
    · simpa [State.goto, same] using orderly.cleared j other
  · intro j nobody
    refine orderly.valid j fun other => ?_
    by_cases same : other = caller
    · subst other
      simp [here, Pc.within]
    · simpa [State.goto, same] using nobody other

theorem step_orderly {calls : ℕ → Call} {state after : State} {caller : ℕ}
    (orderly : Orderly state) (apart : Apart state caller)
    (taken : step calls state caller = some after) : Orderly after := by
  rw [step, if_neg (by simp [orderly.alive])] at taken
  cases here : state.pc caller with
  | test =>
      simp only [here, Option.some.injEq] at taken
      subst after
      apply orderly.goto
      · simp [here, Pc.within]
      · intro i
        split <;> simp [Pc.holds, Pc.within]
      · intro i q
        split <;> simp [Pc.cleared]
  | init i write =>
      simp only [here, Option.some.injEq] at taken
      subst after
      obtain ⟨free, empty⟩ := apart.1 i write here
      exact orderly.write here free empty
  | setInitialized =>
      simp only [here, Option.some.injEq] at taken
      subst after
      apply orderly.setInitialized.goto
      · simp [here, Pc.within]
      · simp [Pc.holds, Pc.within]
      · simp [Pc.cleared]
  | check =>
      simp only [here] at taken
      split at taken
      all_goals
        simp only [Option.some.injEq] at taken
        subst after
        apply orderly.goto
        · simp [here, Pc.within]
        · simp [Pc.holds, Pc.within]
        · simp [Pc.cleared]
  | acquire i =>
      simp only [here] at taken
      split at taken
      · simp at taken
      · rename_i free
        simp only [Option.some.injEq] at taken
        subst after
        exact orderly.acquire here (by simpa using free) (apart.2 i here)
  | body i =>
      simp only [here, Option.some.injEq] at taken
      subst after
      exact orderly.body here _
  | release i result =>
      simp only [here, Option.some.injEq] at taken
      subst after
      exact orderly.release here
  | done result => simp [here] at taken

/-- While `msgq_init` and the users of a queue keep apart, the queues lose, repeat and
reorder nothing. -/
theorem exact_of_apart (calls : ℕ → Call) {state : State}
    (reachable : ((system calls).restrict Apart).Reachable state) : Exact state := by
  refine (System.Reachable.invariant ?_ ?_ reachable : Orderly state).exact
  · rintro _ rfl
    exact boot_orderly
  · rintro before caller after orderly ⟨apart, taken⟩
    exact step_orderly orderly apart taken

def twoSends (_ : ℕ) : Call := ⟨.send fun _ => 7, 0⟩

/-- Caller 0 reads the flag as 0; caller 1 initialises the queues and completes its send;
caller 0 then writes its zeros over queue 0. -/
def lateInit : List ℕ := 0 :: List.replicate 26 1 ++ List.replicate 5 0

/-- The send of caller 1 has returned 0 and its message is neither delivered nor queued. -/
theorem lateInit_loses_message : ∃ state, (system twoSends).Reachable state ∧
    state.pc 1 = .done 0 ∧ state.sent firstQueue = [fun _ => 7] ∧
    state.received firstQueue = [] ∧ (state.msgqueues firstQueue).contents = [] ∧
    ¬ Exact state := by
  have runs : (System.execute (step twoSends) boot lateInit).isSome := by decide +kernel
  obtain ⟨state, executed⟩ := Option.isSome_iff_exists.mp runs
  have run : (system twoSends).Run boot lateInit state :=
    .ofExecute (fun _ _ _ taken => taken) executed
  have ends : (System.execute (step twoSends) boot lateInit).map (fun after =>
      (after.pc 1, after.sent firstQueue, after.received firstQueue,
        (after.msgqueues firstQueue).count)) = some (.done 0, [fun _ => 7], [], 0) := by
    decide +kernel
  simp only [executed, Option.map_some, Option.some.injEq, Prod.mk.injEq] at ends
  obtain ⟨returned, sent, received, count⟩ := ends
  have lost := contents_of_empty count
  refine ⟨state, run.reachable (.start rfl), returned, sent, received, lost, fun exact => ?_⟩
  simpa [sent, received, lost] using exact firstQueue

def Among (movers : List ℕ) (state : State) : Prop :=
  ∀ other, other ∉ movers → state.pc other = .test

theorem Among.step {calls : ℕ → Call} {movers : List ℕ} {state after : State} {caller : ℕ}
    (among : Among movers state) (mover : caller ∈ movers)
    (taken : step calls state caller = some after) : Among movers after := by
  intro other apart
  have different : other ≠ caller := by
    rintro rfl
    exact apart mover
  have before := among other apart
  rw [MessageQueueBoot.step] at taken
  split at taken
  · simp at taken
  split at taken
  all_goals try split at taken
  all_goals simp only [Option.some.injEq, reduceCtorEq] at taken
  all_goals subst after
  all_goals simp only [State.goto, Function.update_of_ne different]
  all_goals first | exact before | skip
  · rename_i write _
    cases write <;> exact before
  · rename_i i _
    cases (calls caller).kind <;> simp only [State.body] <;> split <;> exact before
  · simp only [State.unlock]
    split <;> exact before

instance (i : Fin NUM_QUEUES) : ∀ pc : Pc, Decidable (pc.within i)
  | .init j write => inferInstanceAs (Decidable (j = i ∧ write ≠ .locked))
  | .test | .setInitialized | .check | .acquire _ | .body _ | .release _ _ | .done _ => .isFalse id

/-- `Apart` as it is checked while only these callers have made steps. -/
def checked (movers : List ℕ) (state : State) (caller : ℕ) : Bool :=
  caller ∈ movers &&
    match state.pc caller with
    | .init i _ => state.locked i == false && (state.msgqueues i).count == 0
    | .acquire i => movers.all fun other => !decide ((state.pc other).within i)
    | _ => true

theorem Among.apart {movers : List ℕ} {state : State} {caller : ℕ} (among : Among movers state)
    (passed : checked movers state caller = true) : Apart state caller := by
  rw [checked, Bool.and_eq_true] at passed
  obtain ⟨-, passed⟩ := passed
  refine ⟨fun i write here => ?_, fun i here other => ?_⟩
  · simpa [here] using passed
  · by_cases mover : other ∈ movers
    · simp only [here, List.all_eq_true] at passed
      simpa using passed other mover
    · simp [among other mover, Pc.within]

theorem Among.reachable {calls : ℕ → Call} {movers callers : List ℕ} {state after : State}
    (among : Among movers state) (reachable : ((system calls).restrict Apart).Reachable state)
    (executed : System.execute (System.guard (fun state caller => checked movers state caller)
      (MessageQueueBoot.step calls)) state callers = some after) : ((system calls).restrict Apart).Reachable after := by
  induction callers generalizing state with
  | nil =>
      obtain rfl : state = after := by simpa [System.execute] using executed
      exact reachable
  | cons caller callers ih =>
      obtain ⟨next, guarded, rest⟩ := Option.bind_eq_some_iff.mp executed
      obtain ⟨passed, taken⟩ : checked movers state caller = true ∧
          MessageQueueBoot.step calls state caller = some next := by
        simpa [System.guard] using guarded
      have mover : caller ∈ movers := by
        simpa using (Bool.and_eq_true_iff.mp passed).1
      exact ih (among.step mover taken) (.step reachable ⟨among.apart passed, taken⟩) rest

def exchange : ℕ → Call
  | 0 => ⟨.send fun _ => 7, 0⟩
  | 1 => ⟨.send fun _ => 8, 0⟩
  | _ => ⟨.recv, 0⟩

/-- Callers 0 and 1 both read the flag as 0 and write the queues in turn. They send one after the
other, and caller 2 receives. -/
def bothInit : List ℕ :=
  (List.replicate 23 [0, 1]).flatten ++ List.replicate 3 0 ++ List.replicate 3 1 ++
    List.replicate 5 2

theorem exact_of_apart_exchange : ∃ state, ((system exchange).restrict Apart).Reachable state ∧
    state.pc 0 = .done 0 ∧ state.pc 1 = .done 0 ∧ state.pc 2 = .done 0 ∧
    state.received firstQueue = [fun _ => 7] ∧ Exact state := by
  have runs : (System.execute (System.guard (fun state caller => checked [0, 1, 2] state caller)
      (step exchange)) boot bothInit).map (fun after => (after.pc 0, after.pc 1, after.pc 2, after.received firstQueue)) =
        some (.done 0, .done 0, .done 0, [fun _ => 7]) := by decide +kernel
  obtain ⟨state, executed, ends⟩ := Option.map_eq_some_iff.mp runs
  simp only [Prod.mk.injEq] at ends
  obtain ⟨first, second, third, received⟩ := ends
  have reachable := Among.reachable (fun _ _ => rfl) (.start rfl) executed
  exact ⟨state, reachable, first, second, third, received, exact_of_apart exchange reachable⟩

end OsLab.Kernel.MessageQueueBoot
