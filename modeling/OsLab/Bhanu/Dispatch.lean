import OsLab.Bhanu.Mlfq
import OsLab.Library.Accounting
import Mathlib.Data.Fin.VecNotation
import Mathlib.Tactic.FinCases

/-!
What the loops of `run_edf` and `run_mlfq` share: CPUs are visited in order and take
the best waiting process, then each CPU runs the process it has for one cycle.
-/

namespace OsLab.Bhanu

open OsLab.Library
open Edf (Sim preempt)

variable {np cpus : ℕ}

def State.status : State → Status
  | .ready => .ready
  | .running => .running
  | .finished => .finished

@[simp] theorem State.status_ready {state : State} : state.status = .ready ↔ state = .ready := by
  cases state <;> simp [status]

@[simp] theorem State.status_running {state : State} :
    state.status = .running ↔ state = .running := by
  cases state <;> simp [status]

@[simp] theorem State.status_finished {state : State} :
    state.status = .finished ↔ state = .finished := by
  cases state <;> simp [status]

def row (sim : Sim np cpus) (i : Fin cpus) : Option (Fin np) := (sim.cpu i).currentProcessId

def machine (sim : Sim np cpus) : Machine (Fin np) cpus where
  status x := (sim.p x).state.status
  home x := (sim.p x).cpuId
  current := row sim

def book (sim : Sim np cpus) : Book (Fin np) where
  status x := (sim.p x).state.status
  left x := (sim.p x).remainingTime
  completion x := (sim.p x).completionTime

/-- A process as `main.c` hands it over. -/
structure Fresh (process : Process) : Prop where
  burst : 1 ≤ process.burstTime
  remaining : process.remainingTime = process.burstTime
  ready : process.state = .ready

def initial (id arrivalTime burstTime deadline : Int) : Process where
  id := id
  arrivalTime := arrivalTime
  burstTime := burstTime
  remainingTime := burstTime
  deadline := deadline
  priorityLevel := 0
  state := .ready
  completionTime := 0
  startTime := -1
  cpuId := -1
  waitTimeAcc := 0

def firstRows : Fin 3 → Process := ![initial 1 0 8 15, initial 2 1 25 60, initial 3 2 3 10]

theorem initial_fresh {id arrivalTime burstTime deadline : Int} (burst : 1 ≤ burstTime) :
    Fresh (initial id arrivalTime burstTime deadline) := by
  constructor
  · exact burst
  · rfl
  · rfl

theorem firstRows_fresh (x : Fin 3) : Fresh (firstRows x) := by
  fin_cases x <;> exact initial_fresh (by decide)

def Arrived (jobs : Fin np → Process) (cycle : Int) (x : Fin np) : Prop :=
  (jobs x).arrivalTime ≤ cycle

instance (jobs : Fin np → Process) (cycle : Int) : DecidablePred (Arrived jobs cycle) :=
  fun _ => inferInstanceAs (Decidable (_ ≤ _))

/-! ### The assignment loop -/

structure Unmoved (before after : Process) : Prop where
  arrival : after.arrivalTime = before.arrivalTime
  burst : after.burstTime = before.burstTime
  remaining : after.remainingTime = before.remainingTime
  deadline : after.deadline = before.deadline
  level : after.priorityLevel = before.priorityLevel
  completion : after.completionTime = before.completionTime

theorem Unmoved.refl (process : Process) : Unmoved process process := by
  constructor <;> rfl

theorem Unmoved.trans {first second third : Process} (left : Unmoved first second)
    (right : Unmoved second third) : Unmoved first third where
  arrival := right.arrival.trans left.arrival
  burst := right.burst.trans left.burst
  remaining := right.remaining.trans left.remaining
  deadline := right.deadline.trans left.deadline
  level := right.level.trans left.level
  completion := right.completion.trans left.completion

structure Placing (sim : Sim np cpus) (i : Fin cpus) (b : Fin np) (after : Sim np cpus) : Prop where
  cycle : after.cycle = sim.cycle
  finished : after.finished = sim.finished
  row : row after = Function.update (row sim) i (some b)
  chosen : after.p b = { sim.p b with
    state := .running
    cpuId := i
    startTime := if (sim.p b).startTime = -1 then sim.cycle else (sim.p b).startTime }
  displaced : ∀ x, x ≠ b → Bhanu.row sim i = some x →
    after.p x = { sim.p x with state := .ready }
  others : ∀ x, x ≠ b → Bhanu.row sim i ≠ some x → after.p x = sim.p x

variable {sim middle after : Sim np cpus} {i : Fin cpus} {b : Fin np}

theorem Placing.machine (placing : Placing sim i b after) :
    machine after = (machine sim).put i b := by
  have rows := placing.row
  simp only [Bhanu.machine, Machine.put, Machine.mk.injEq]
  refine ⟨?_, ?_, rows⟩
  · funext x
    by_cases same : x = b
    · subst x
      simp [placing.chosen, State.status]
    · by_cases here : Bhanu.row sim i = some x
      · simp [placing.displaced x same here, same, here, State.status]
      · simp [placing.others x same here, same, here]
  · funext x
    by_cases same : x = b
    · subst x
      simp [placing.chosen]
    · by_cases here : Bhanu.row sim i = some x
      · simp [placing.displaced x same here, same]
      · simp [placing.others x same here, same]

theorem Placing.unmoved (placing : Placing sim i b after) (x : Fin np) :
    Unmoved (sim.p x) (after.p x) := by
  by_cases same : x = b
  · subst x
    rw [placing.chosen]
    constructor <;> rfl
  · by_cases here : Bhanu.row sim i = some x
    · rw [placing.displaced x same here]
      constructor <;> rfl
    · rw [placing.others x same here]
      exact .refl _

theorem update_row {after : Sim np cpus} {c : Cpu np} (held : c.currentProcessId = some b)
    (cpus : after.cpu = Function.update sim.cpu i c) :
    row after = Function.update (row sim) i (some b) := by
  funext j
  by_cases same : j = i
  · subst j
    simp [row, cpus, held]
  · simp [row, cpus, same]

theorem placing_idle {c : Cpu np} (idle : row sim i = none)
    (cpus : after.cpu = Function.update sim.cpu i c) (held : c.currentProcessId = some b)
    (cycle : after.cycle = sim.cycle) (finished : after.finished = sim.finished)
    (p : after.p = Function.update sim.p b { sim.p b with
      state := .running
      cpuId := i
      startTime := if (sim.p b).startTime = -1 then sim.cycle else (sim.p b).startTime }) :
    Placing sim i b after := by
  constructor
  · exact cycle
  · exact finished
  · exact update_row held cpus
  · simp [p]
  · intro x _ here
    simp [idle] at here
  · intro x other _
    simp [p, other]

theorem placing_preempt {running : Fin np} {c : Cpu np} (here : row sim i = some running)
    (cpus : after.cpu = Function.update sim.cpu i c) (held : c.currentProcessId = some b)
    (cycle : after.cycle = sim.cycle) (finished : after.finished = sim.finished)
    (p : after.p = Function.update (preempt sim running).p b { sim.p b with
      state := .running
      cpuId := i
      startTime := if (sim.p b).startTime = -1 then sim.cycle else (sim.p b).startTime }) :
    Placing sim i b after := by
  constructor
  · exact cycle
  · exact finished
  · exact update_row held cpus
  · simp [p]
  · intro x other occupied
    rw [here, Option.some.injEq] at occupied
    subst x
    simp [p, preempt, other]
  · intro x other apart
    have kept : x ≠ running := by
      intro same
      subst x
      exact apart here
    simp [p, preempt, other, kept]

inductive Visits (arrived : Fin np → Prop) (key : Fin np → ℤ) :
    List (Fin cpus) → Sim np cpus → Sim np cpus → Prop
  | nil (before) : Visits arrived key [] before before
  | skip {cpu rest before last} :
      (machine before).Visit arrived key cpu (machine before) →
      Visits arrived key rest before last → Visits arrived key (cpu :: rest) before last
  | place {cpu rest before next last best} : (machine before).Waiting arrived best →
      (∀ y, (machine before).Waiting arrived y → key best ≤ key y) →
      (∀ x, row before cpu = some x → key best < key x) → Placing before cpu best next →
      Visits arrived key rest next last → Visits arrived key (cpu :: rest) before last

variable {arrived : Fin np → Prop} {key : Fin np → ℤ} {visits : List (Fin cpus)}

theorem Visits.pass (run : Visits arrived key visits sim after) :
    Machine.Pass arrived key visits (machine sim) (machine after) := by
  induction run with
  | nil _ => exact .nil _
  | skip visit _ ih => exact .cons visit ih
  | place waiting least greater placing _ ih =>
      apply Machine.Pass.cons _ ih
      rw [placing.machine]
      exact .take waiting least greater

theorem Visits.unmoved (run : Visits arrived key visits sim after) :
    after.cycle = sim.cycle ∧ after.finished = sim.finished ∧
      ∀ x, Unmoved (sim.p x) (after.p x) := by
  induction run with
  | nil _ => exact ⟨rfl, rfl, fun x => .refl _⟩
  | skip _ _ ih => exact ih
  | place _ _ _ placing _ ih =>
      obtain ⟨cycle, finished, unmoved⟩ := ih
      refine ⟨cycle.trans placing.cycle, finished.trans placing.finished, ?_⟩
      intro x
      exact (placing.unmoved x).trans (unmoved x)

theorem Visits.row_other (run : Visits arrived key visits sim after) {j : Fin cpus}
    (outside : j ∉ visits) : row after j = row sim j := by
  induction run with
  | nil _ => rfl
  | skip _ _ ih =>
      simp only [List.mem_cons, not_or] at outside
      exact ih outside.2
  | place _ _ _ placing _ ih =>
      simp only [List.mem_cons, not_or] at outside
      rw [ih outside.2, placing.row, Function.update_of_ne outside.1]

def Started (sim : Sim np cpus) : Prop :=
  ∀ x, (sim.p x).state = .running → (sim.p x).startTime ≠ -1

theorem Placing.started (placing : Placing sim i b after) (nonneg : 0 ≤ sim.cycle)
    (started : Started sim) : Started after := by
  intro x running
  by_cases same : x = b
  · subst x
    rw [placing.chosen]
    dsimp only
    split <;> omega
  · by_cases here : Bhanu.row sim i = some x
    · rw [placing.displaced x same here] at running
      simp at running
    · rw [placing.others x same here] at running ⊢
      exact started x running

theorem Visits.start_cases (run : Visits arrived key visits sim after) (distinct : visits.Nodup)
    (nonneg : 0 ≤ sim.cycle) (x : Fin np) :
    (after.p x).startTime = (sim.p x).startTime ∨
      (sim.p x).startTime = -1 ∧ (after.p x).startTime = sim.cycle ∧
        ∃ i ∈ visits, row after i = some x := by
  induction run with
  | nil _ => exact Or.inl rfl
  | skip _ _ ih =>
      rcases ih (List.nodup_cons.mp distinct).2 nonneg with same | ⟨unset, now, i, member, here⟩
      · exact Or.inl same
      · exact Or.inr ⟨unset, now, i, by simp [member], here⟩
  | @place i rest sim middle after b _ _ _ placing run ih =>
      obtain ⟨fresh, distinct⟩ := List.nodup_cons.mp distinct
      have later := ih distinct (by rw [placing.cycle]; exact nonneg)
      by_cases same : x = b
      · subst x
        have here : row after i = some b := by
          rw [run.row_other fresh, placing.row, Function.update_self]
        have chosen := congrArg Process.startTime placing.chosen
        dsimp only at chosen
        by_cases unset : (sim.p b).startTime = -1
        · rw [if_pos unset] at chosen
          refine Or.inr ⟨unset, ?_, i, by simp, here⟩
          rcases later with kept | ⟨absurd, -, -⟩
          · rw [kept, chosen]
          · omega
        · rw [if_neg unset] at chosen
          rcases later with kept | ⟨absurd, -, -⟩
          · exact Or.inl (kept.trans chosen)
          · omega
      · have unchanged : (middle.p x).startTime = (sim.p x).startTime := by
          by_cases here : row sim i = some x
          · rw [placing.displaced x same here]
          · rw [placing.others x same here]
        rw [unchanged, placing.cycle] at later
        rcases later with kept | ⟨unset, now, j, member, here⟩
        · exact Or.inl kept
        · exact Or.inr ⟨unset, now, j, by simp [member], here⟩

theorem Visits.started (run : Visits arrived key visits sim after) (nonneg : 0 ≤ sim.cycle)
    (started : Started sim) : Started after := by
  induction run with
  | nil _ => exact started
  | skip _ _ ih => exact ih nonneg started
  | place _ _ _ placing _ ih =>
      apply ih
      · rw [placing.cycle]
        exact nonneg
      · exact placing.started nonneg started

theorem Visits.start (run : Visits arrived key (List.finRange cpus) sim after)
    (nonneg : 0 ≤ sim.cycle) (started : Started sim)
    (placed : (machine sim).Placed arrived) (x : Fin np) :
    (after.p x).startTime =
      if (after.p x).state = .running ∧ (sim.p x).startTime = -1 then sim.cycle
      else (sim.p x).startTime := by
  have last := run.started nonneg started
  rcases run.start_cases (List.nodup_finRange cpus) nonneg x with same | ⟨unset, now, i, -, here⟩
  · rw [if_neg, same]
    rintro ⟨running, unset⟩
    apply last x running
    rw [same, unset]
  · have placed := (run.pass.settled placed fun i outside =>
      absurd (List.mem_finRange i) outside).1
    have running := (placed.busy i x here).1
    rw [if_pos ⟨by simpa [machine] using running, unset⟩, now]

end OsLab.Bhanu
