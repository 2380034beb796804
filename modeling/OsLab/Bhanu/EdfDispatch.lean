import OsLab.Bhanu.Cycles

/-! `run_edf` as a dispatcher by deadline. -/

namespace OsLab.Bhanu.Edf

open OsLab.Library

variable {np cpus : ℕ} {sim : Sim np cpus}

theorem dispatch_placing {i : Fin cpus} {b : Fin np} (idle : row sim i = none) :
    Placing sim i b (dispatch sim i b) := by
  apply placing_idle idle
  all_goals rfl

theorem preempt_placing {i : Fin cpus} {b running : Fin np} (here : row sim i = some running)
    (other : b ≠ running) : Placing sim i b (dispatch (preempt sim running) i b) := by
  apply placing_preempt here
  all_goals first | rfl | simp [dispatch, preempt, other]

/-! ### The assignment loop -/

theorem rest_visits {arrived : Fin np → Prop} {key : Fin np → ℤ} (visits : List (Fin cpus))
    (none : ∀ y, ¬ (machine sim).Waiting arrived y) : Visits arrived key visits sim sim := by
  induction visits with
  | nil => exact .nil _
  | cons i rest ih => exact .skip (.rest none) ih

/-- The processes that can be picked when they are READY: the initial `earliest` is 100000. -/
def Selectable (jobs : Fin np → Process) (cycle : Int) (x : Fin np) : Prop :=
  Arrived jobs cycle x ∧ (jobs x).deadline < 100000

theorem assign_visits {jobs : Fin np → Process} {cycle : Int} (visits : List (Fin cpus))
    {sim : Sim np cpus} (now : sim.cycle = cycle)
    (arrival : ∀ x, (sim.p x).arrivalTime = (jobs x).arrivalTime)
    (deadline : ∀ x, (sim.p x).deadline = (jobs x).deadline) :
    Visits (Selectable jobs cycle) (fun x => (jobs x).deadline) visits sim
      (assign visits (pickEarliestDeadline sim.p sim.cycle) sim) := by
  induction visits generalizing sim with
  | nil => exact .nil _
  | cons i rest ih =>
      -- an assignment moves neither the clock nor an arrival nor a deadline
      have place : ∀ {b next}, Placing sim i b next → (machine sim).Waiting (Selectable jobs cycle) b →
          (∀ y, (machine sim).Waiting (Selectable jobs cycle) y →
            (jobs b).deadline ≤ (jobs y).deadline) →
          (∀ x, row sim i = some x → (jobs b).deadline < (jobs x).deadline) →
          Visits (Selectable jobs cycle) (fun x => (jobs x).deadline) (i :: rest) sim
            (assign rest (pickEarliestDeadline next.p next.cycle) next) := by
        intro b next placing waiting least greater
        apply Visits.place waiting least greater placing
        apply ih
        · rw [placing.cycle, now]
        · intro x
          rw [(placing.unmoved x).arrival, arrival]
        · intro x
          rw [(placing.unmoved x).deadline, deadline]
      have same := ih now arrival deadline
      cases found : pickEarliestDeadline sim.p sim.cycle with
      | none =>
          apply rest_visits
          rintro y ⟨ready, arrived, early⟩
          have late := pickEarliestDeadline_none found (i := y) (by simpa [machine] using ready)
            (by rw [arrival, now]; exact arrived)
          rw [deadline] at late
          omega
      | some b =>
          rw [found] at same
          obtain ⟨ready, arrived, least⟩ := pickEarliestDeadline_some found
          have early := pickEarliestDeadline_below found
          rw [deadline] at early
          have waiting : (machine sim).Waiting (Selectable jobs cycle) b := by
            constructor
            · simpa [machine] using ready
            · rw [arrival, now] at arrived
              exact ⟨arrived, early⟩
          have best : ∀ y, (machine sim).Waiting (Selectable jobs cycle) y →
              (jobs b).deadline ≤ (jobs y).deadline := by
            rintro y ⟨state, here, -⟩
            rw [← deadline, ← deadline]
            exact least y (by simpa [machine] using state) (by rw [arrival, now]; exact here)
          cases here : (sim.cpu i).currentProcessId with
          | none =>
              simp only [assign, here]
              apply place (dispatch_placing here) waiting best
              intro x held
              rw [row, here] at held
              simp at held
          | some running =>
              by_cases lower : (jobs b).deadline < (jobs running).deadline
              · simp only [assign, here, deadline]
                rw [if_pos lower]
                have other : b ≠ running := by
                  intro equal
                  subst b
                  omega
                apply place (preempt_placing here other) waiting best
                intro x held
                rw [row, here, Option.some.injEq] at held
                subst x
                exact lower
              · simp only [assign, here, deadline]
                rw [if_neg lower]
                apply Visits.skip _ same
                apply Machine.Visit.keep here
                intro y waits
                have bound := best y waits
                omega

/-! ### The clock cycle -/

def tick (now : Int) (proc : Process) (cpu : Cpu np) : Process × Cpu np :=
  let remaining := proc.remainingTime - 1
  if remaining = 0 then
    ({ proc with remainingTime := remaining, state := .finished, completionTime := now + 1 },
      { cpu with currentProcessId := none })
  else
    ({ proc with remainingTime := remaining }, cpu)

theorem execute_tick {i : Fin cpus} {x : Fin np} (here : (sim.cpu i).currentProcessId = some x) :
    (execute sim i).p = Function.update sim.p x (tick sim.cycle (sim.p x) (sim.cpu i)).1 ∧
      (execute sim i).cpu = Function.update sim.cpu i (tick sim.cycle (sim.p x) (sim.cpu i)).2 ∧
      (execute sim i).cycle = sim.cycle ∧
      (execute sim i).finished =
        sim.finished + if (sim.p x).remainingTime - 1 = 0 then 1 else 0 := by
  by_cases last : (sim.p x).remainingTime - 1 = 0
  · simp only [execute, here, tick, last, if_true, and_self]
  · simp only [execute, here, tick, last, if_false, add_zero, Function.update_eq_self, and_self]

theorem execute_none {i : Fin cpus} (idle : (sim.cpu i).currentProcessId = none) :
    execute sim i = sim := by
  simp only [execute, idle]

theorem execute_serves (now : Int) : Serves Sim.p Sim.cpu Cpu.currentProcessId (tick now)
    (fun sim : Sim np cpus => sim.cycle = now) execute := by
  constructor
  · intro sim i idle
    exact execute_none idle
  · intro sim i x same here
    rw [(execute_tick here).1, same]
  · intro sim i x same here
    rw [(execute_tick here).2.1, same]
  · intro sim i same
    cases here : (sim.cpu i).currentProcessId with
    | none => rw [execute_none here, same]
    | some x => rw [(execute_tick here).2.2.1, same]

theorem tick_finished {now : Int} {proc : Process} {cpu : Cpu np} (alive : proc.state ≠ .finished) :
    (tick now proc cpu).1.state = .finished ↔ proc.remainingTime - 1 = 0 := by
  by_cases last : proc.remainingTime - 1 = 0
  · simp [tick, last]
  · simp [tick, last, alive]

theorem tick_carried (now : Int) (proc : Process) (cpu : Cpu np) :
    Carried proc (tick now proc cpu).1 := by
  by_cases last : proc.remainingTime - 1 = 0
  · simp only [tick, last, if_true]
    constructor <;> rfl
  · simp only [tick, last, if_false]
    constructor <;> rfl

theorem tick_ran (now : Int) {proc : Process} (cpu : Cpu np) (running : proc.state = .running)
    (cpus : ℕ) :
    (layout np cpus).Ran now proc cpu (tick now proc cpu).1 (tick now proc cpu).2 := by
  by_cases last : proc.remainingTime - 1 = 0
  · simp only [tick, last, if_true]
    constructor
    · rfl
    · exact last.symm
    · intro _
      exact ⟨rfl, rfl, rfl⟩
    · intro more
      simp only [layout] at more
      omega
  · simp only [tick, last, if_false]
    constructor
    · rfl
    · rfl
    · intro one
      simp only [layout] at one
      omega
    · exact fun _ => ⟨rfl, Or.inl ⟨by simpa [layout] using running, rfl⟩⟩

def assigned (sim : Sim np cpus) : Sim np cpus :=
  assign (List.finRange cpus) (pickEarliestDeadline sim.p sim.cycle) sim

theorem simulates {jobs : Fin np → Process} (bounded : ∀ x, (jobs x).deadline < 100000) :
    Simulates jobs id (assigned : Sim np cpus → Sim np cpus) execute tick (fun sim x => (sim.p x).deadline)
      fun _ => True := by
  constructor
  · intro sim
    constructor <;> intros <;> rfl
  · intro sim steady _
    have visits := assign_visits (List.finRange cpus) rfl steady.arrival steady.deadline
    have all : Selectable jobs sim.cycle = Arrived jobs sim.cycle := by
      funext x
      simp [Selectable, bounded x]
    rw [all] at visits
    have same : (fun x => (sim.p x).deadline) = fun x => (jobs x).deadline :=
      funext steady.deadline
    simpa only [id_eq, same, assigned] using visits
  · exact execute_serves
  · intro sim i idle
    rw [execute_none idle]
  · intro now sim i x same here alive
    rw [(execute_tick here).2.2.2]
    simp only [tick_finished alive]
  · exact tick_carried
  · exact fun now p c running => tick_ran now c running cpus
  · exact fun _ _ _ => trivial

theorem start_begins (cpus : ℕ) (jobs : Fin np → Process) : Begins jobs (start cpus jobs) := by
  constructor <;> intros <;> rfl

/-! ### The rows -/

/-- At every cycle the CPUs run the processes with the earliest deadlines, and each process on one
CPU. -/
theorem deadlines_dispatched (jobs : Fin np → Process) (fresh : ∀ x, Fresh (jobs x))
    (bounded : ∀ x, (jobs x).deadline < 100000) (t : ℕ) :
    Dispatched Process.deadline t (assigned (clockCycle^[t] (start cpus jobs))) ∧
      (Finset.univ.filter fun x =>
          ((assigned (clockCycle^[t] (start cpus jobs))).p x).state = .running).card =
        min cpus (Finset.univ.filter fun x =>
          ((assigned (clockCycle^[t] (start cpus jobs))).p x).arrivalTime ≤ t ∧
            ((assigned (clockCycle^[t] (start cpus jobs))).p x).state ≠ .finished).card := by
  have begins := start_begins cpus jobs
  constructor
  · exact (simulates bounded).assigned (fun _ _ same => same.deadline) fresh begins trivial t
  · exact (simulates bounded).running_card fresh begins trivial t

theorem deadlines_dispatched_firstRows :
    Dispatched Process.deadline 2 (assigned (clockCycle^[2] (start 2 firstRows))) ∧
      (Finset.univ.filter fun x =>
          ((assigned (clockCycle^[2] (start 2 firstRows))).p x).state = .running).card =
        min 2 (Finset.univ.filter fun x =>
          ((assigned (clockCycle^[2] (start 2 firstRows))).p x).arrivalTime ≤ (2 : ℕ) ∧
            ((assigned (clockCycle^[2] (start 2 firstRows))).p x).state ≠ .finished).card :=
  deadlines_dispatched firstRows firstRows_fresh (by decide) 2

end OsLab.Bhanu.Edf
