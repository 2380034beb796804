import OsLab.Bhanu.Cycles

/-! `run_mlfq` as a dispatcher by queue level. -/

namespace OsLab.Bhanu.Mlfq

open OsLab.Library
open Edf (Sim preempt)

variable {np cpus : ℕ} {sim : Sim np cpus}

def Levels (sim : Sim np cpus) : Prop :=
  ∀ x, 0 ≤ (sim.p x).priorityLevel ∧ (sim.p x).priorityLevel ≤ 2

/-! ### The boost -/

structure Boosted (boosted : Fin np → Prop) (sim after : Sim np cpus) : Prop where
  cycle : after.cycle = sim.cycle
  finished : after.finished = sim.finished
  row : row after = row sim
  level : ∀ x, boosted x → (sim.p x).state ≠ .finished →
    after.p x = { sim.p x with priorityLevel := 0 }
  kept : ∀ x, ¬ boosted x ∨ (sim.p x).state = .finished → after.p x = sim.p x

theorem boostOne_boosted (sim : Sim np cpus) (i : Fin np) :
    Boosted (· = i) sim (boostOne sim i) := by
  cases state : (sim.p i).state with
  | finished =>
      simp only [boostOne, state]
      constructor
      · rfl
      · rfl
      · rfl
      · intro x same unfinished
        subst x
        exact absurd state unfinished
      · exact fun _ _ => rfl
  | ready =>
      simp only [boostOne, state]
      constructor
      · rfl
      · rfl
      · rfl
      · intro x same _
        subst x
        simp [state]
      · intro x apart
        have other : x ≠ i := by
          intro same
          subst x
          simp [state] at apart
        simp [other]
  | running =>
      simp only [boostOne, state]
      constructor
      · rfl
      · rfl
      · funext c
        simp only [row]
        split <;> rfl
      · intro x same _
        subst x
        simp [state]
      · intro x apart
        have other : x ≠ i := by
          intro same
          subst x
          simp [state] at apart
        simp [other]

theorem Boosted.state {boosted : Fin np → Prop} {after : Sim np cpus}
    (change : Boosted boosted sim after) (x : Fin np) :
    (after.p x).state = (sim.p x).state := by
  by_cases inside : boosted x ∧ (sim.p x).state ≠ .finished
  · rw [change.level x inside.1 inside.2]
  · rw [change.kept x (by tauto)]

theorem Boosted.trans {first second : Fin np → Prop} {middle after : Sim np cpus}
    (left : Boosted first sim middle) (right : Boosted second middle after) :
    Boosted (fun x => first x ∨ second x) sim after := by
  have same := left.state
  constructor
  · exact right.cycle.trans left.cycle
  · exact right.finished.trans left.finished
  · exact right.row.trans left.row
  · intro x inside unfinished
    by_cases later : second x
    · rw [right.level x later (by rw [same x]; exact unfinished)]
      by_cases earlier : first x
      · rw [left.level x earlier unfinished]
      · rw [left.kept x (Or.inl earlier)]
    · rw [right.kept x (Or.inl later)]
      exact left.level x (inside.resolve_right later) unfinished
  · intro x outside
    rcases outside with neither | finished
    · rw [right.kept x (Or.inl fun inside => neither (Or.inr inside))]
      exact left.kept x (Or.inl fun inside => neither (Or.inl inside))
    · rw [right.kept x (Or.inr (by rw [same x]; exact finished))]
      exact left.kept x (Or.inr finished)

theorem boostAll_boosted (sim : Sim np cpus) (visits : List (Fin np)) :
    Boosted (· ∈ visits) sim (visits.foldl boostOne sim) := by
  induction visits generalizing sim with
  | nil =>
      constructor
      · rfl
      · rfl
      · rfl
      · intro x inside
        simp at inside
      · exact fun _ _ => rfl
  | cons i rest ih =>
      have whole := (boostOne_boosted sim i).trans (ih (boostOne sim i))
      rw [List.foldl_cons]
      simpa only [List.mem_cons] using whole

def Boosts (cycle : Int) : Prop := cycle > 0 ∧ cycle % BOOST_CYCLE = 0

theorem boost_boosted (sim : Sim np cpus) :
    Boosted (fun _ => Boosts sim.cycle) sim (boost sim) := by
  by_cases now : Boosts sim.cycle
  · rw [boost, if_pos (by exact now)]
    have all := boostAll_boosted sim (List.finRange np)
    simpa [List.mem_finRange, now] using all
  · rw [boost, if_neg (by exact now)]
    constructor
    · rfl
    · rfl
    · rfl
    · exact fun _ inside => absurd inside now
    · exact fun _ _ => rfl

theorem boost_level (sim : Sim np cpus) (x : Fin np) :
    (boost sim).p x = { sim.p x with priorityLevel := ((boost sim).p x).priorityLevel } := by
  have change := boost_boosted sim
  by_cases inside : Boosts sim.cycle ∧ (sim.p x).state ≠ .finished
  · rw [change.level x inside.1 inside.2]
  · rw [change.kept x (by tauto)]

theorem boost_prepared (sim : Sim np cpus) : Prepared sim (boost sim) := by
  have change := boost_boosted sim
  constructor
  · simp only [machine, change.row, Machine.mk.injEq, and_true]
    constructor
    · funext x
      rw [change.state x]
    · funext x
      rw [boost_level]
  · exact change.cycle
  · exact change.finished
  all_goals
    intro x
    rw [boost_level]

theorem boost_levels (levels : Levels sim) : Levels (boost sim) := by
  have change := boost_boosted sim
  intro x
  by_cases inside : Boosts sim.cycle ∧ (sim.p x).state ≠ .finished
  · rw [change.level x inside.1 inside.2]
    simp
  · rw [change.kept x (by tauto)]
    exact levels x

/-! ### The assignment loop -/

theorem dispatch_placing {i : Fin cpus} {b : Fin np} (idle : row sim i = none) :
    Placing sim i b (dispatch sim i b) := by
  apply placing_idle idle
  all_goals rfl

theorem preempt_placing {i : Fin cpus} {b running : Fin np} (here : row sim i = some running)
    (other : b ≠ running) : Placing sim i b (dispatch (preempt sim running) i b) := by
  apply placing_preempt here
  all_goals first | rfl | simp [dispatch, preempt, other]

theorem assign_visits {jobs : Fin np → Process} {cycle : Int} {key : Fin np → ℤ}
    (visits : List (Fin cpus)) {sim : Sim np cpus} (now : sim.cycle = cycle)
    (arrival : ∀ x, (sim.p x).arrivalTime = (jobs x).arrivalTime)
    (level : ∀ x, (sim.p x).priorityLevel = key x) (bounded : ∀ x, key x ≤ 2) :
    Visits (Arrived jobs cycle) key visits sim (visits.foldl assignOne sim) := by
  induction visits generalizing sim with
  | nil => exact .nil _
  | cons i rest ih =>
      rw [List.foldl_cons]
      -- an assignment moves neither the clock nor an arrival nor a level
      have place : ∀ {b next}, Placing sim i b next → (machine sim).Waiting (Arrived jobs cycle) b →
          (∀ y, (machine sim).Waiting (Arrived jobs cycle) y → key b ≤ key y) →
          (∀ x, row sim i = some x → key b < key x) →
          Visits (Arrived jobs cycle) key (i :: rest) sim (rest.foldl assignOne next) := by
        intro b next placing waiting least greater
        apply Visits.place waiting least greater placing
        apply ih
        · rw [placing.cycle, now]
        · intro x
          rw [(placing.unmoved x).arrival, arrival]
        · intro x
          rw [(placing.unmoved x).level, level]
      cases found : pickByQueue sim.p sim.cycle with
      | none =>
          have same : assignOne sim i = sim := by simp only [assignOne, found]
          rw [same]
          apply Visits.skip _ (ih now arrival level)
          apply Machine.Visit.rest
          rintro y ⟨ready, arrived⟩
          have high := pickByQueue_none found (i := y) (by simpa [machine] using ready)
            (by rw [arrival, now]; exact arrived)
          have low := bounded y
          rw [level] at high
          simp only [LEVELS] at high
          omega
      | some b =>
          obtain ⟨ready, arrived, least⟩ := pickByQueue_some found
          have waiting : (machine sim).Waiting (Arrived jobs cycle) b := by
            constructor
            · simpa [machine] using ready
            · rw [arrival, now] at arrived
              exact arrived
          have best : ∀ y, (machine sim).Waiting (Arrived jobs cycle) y → key b ≤ key y := by
            rintro y ⟨state, here⟩
            rw [← level, ← level]
            exact least y (by simpa [machine] using state) (by rw [arrival, now]; exact here)
          cases here : (sim.cpu i).currentProcessId with
          | none =>
              have same : assignOne sim i = dispatch sim i b := by
                simp only [assignOne, found, here]
              rw [same]
              apply place (dispatch_placing here) waiting best
              intro x held
              rw [row, here] at held
              simp at held
          | some running =>
              by_cases lower : key b < key running
              · have same : assignOne sim i = dispatch (preempt sim running) i b := by
                  simp only [assignOne, found, here, level]
                  rw [if_pos lower]
                rw [same]
                have other : b ≠ running := by
                  intro equal
                  subst b
                  omega
                apply place (preempt_placing here other) waiting best
                intro x held
                rw [row, here, Option.some.injEq] at held
                subst x
                exact lower
              · have same : assignOne sim i = sim := by
                  simp only [assignOne, found, here, level]
                  rw [if_neg lower]
                rw [same]
                apply Visits.skip _ (ih now arrival level)
                apply Machine.Visit.keep here
                intro y waits
                have bound := best y waits
                omega

/-! ### The clock cycle -/

def quantumLeft (proc : Process) (cpu : Cpu np) : Int :=
  if proc.priorityLevel < LEVELS - 1 then cpu.timeQuantumLeft - 1 else cpu.timeQuantumLeft

def tick (now : Int) (proc : Process) (cpu : Cpu np) : Process × Cpu np :=
  let remaining := proc.remainingTime - 1
  let quantum := quantumLeft proc cpu
  if remaining = 0 then
    ({ proc with remainingTime := remaining, state := .finished, completionTime := now + 1 },
      { cpu with timeQuantumLeft := quantum, currentProcessId := none })
  else if proc.priorityLevel < LEVELS - 1 ∧ quantum = 0 then
    ({ proc with
        remainingTime := remaining, priorityLevel := proc.priorityLevel + 1, state := .ready },
      { cpu with timeQuantumLeft := quantum, currentProcessId := none })
  else
    ({ proc with remainingTime := remaining }, { cpu with timeQuantumLeft := quantum })

theorem execute_tick {i : Fin cpus} {x : Fin np} (here : (sim.cpu i).currentProcessId = some x) :
    (execute sim i).p = Function.update sim.p x (tick sim.cycle (sim.p x) (sim.cpu i)).1 ∧
      (execute sim i).cpu = Function.update sim.cpu i (tick sim.cycle (sim.p x) (sim.cpu i)).2 ∧
      (execute sim i).cycle = sim.cycle ∧
      (execute sim i).finished =
        sim.finished + if (sim.p x).remainingTime - 1 = 0 then 1 else 0 := by
  have unfold : execute sim i =
      if (sim.p x).remainingTime - 1 = 0 then
        { sim with
          p := Function.update sim.p x (tick sim.cycle (sim.p x) (sim.cpu i)).1
          cpu := Function.update sim.cpu i (tick sim.cycle (sim.p x) (sim.cpu i)).2
          finished := sim.finished + 1 }
      else
        { sim with
          p := Function.update sim.p x (tick sim.cycle (sim.p x) (sim.cpu i)).1
          cpu := Function.update sim.cpu i (tick sim.cycle (sim.p x) (sim.cpu i)).2 } := by
    by_cases last : (sim.p x).remainingTime - 1 = 0
    · simp only [execute, here, tick, quantumLeft, last, if_true]
    · by_cases low : (sim.p x).priorityLevel < LEVELS - 1
      · by_cases spent : (sim.cpu i).timeQuantumLeft - 1 = 0
        · simp only [execute, here, tick, quantumLeft, last, low, spent, and_self, if_true,
            if_false]
        · simp only [execute, here, tick, quantumLeft, last, low, spent, and_false, if_true,
            if_false]
      · simp only [execute, here, tick, quantumLeft, last, low, false_and, if_false]
  rw [unfold]
  split <;> simp

theorem execute_idle {i : Fin cpus} (idle : (sim.cpu i).currentProcessId = none) :
    execute sim i = sim := by
  simp only [execute, idle]

theorem execute_serves (now : Int) : Serves Sim.p Sim.cpu Cpu.currentProcessId (tick now)
    (fun sim : Sim np cpus => sim.cycle = now) execute := by
  constructor
  · intro sim i idle
    exact execute_idle idle
  · intro sim i x same here
    rw [(execute_tick here).1, same]
  · intro sim i x same here
    rw [(execute_tick here).2.1, same]
  · intro sim i same
    cases here : (sim.cpu i).currentProcessId with
    | none => rw [execute_idle here, same]
    | some x => rw [(execute_tick here).2.2.1, same]

theorem tick_finished {now : Int} {proc : Process} {cpu : Cpu np} (alive : proc.state ≠ .finished) :
    (tick now proc cpu).1.state = .finished ↔ proc.remainingTime - 1 = 0 := by
  simp only [tick]
  split
  · rename_i last
    simp [last]
  · rename_i more
    split <;> simp [alive, more]

theorem tick_carried (now : Int) (proc : Process) (cpu : Cpu np) :
    Carried proc (tick now proc cpu).1 := by
  by_cases last : proc.remainingTime - 1 = 0
  · simp only [tick, last, if_true]
    constructor <;> rfl
  · by_cases demoted : proc.priorityLevel < LEVELS - 1 ∧ quantumLeft proc cpu = 0
    · simp only [tick, last, demoted, and_self, if_true, if_false]
      constructor <;> rfl
    · simp only [tick, last, demoted, if_false]
      constructor <;> rfl

theorem tick_ran (now : Int) {proc : Process} (cpu : Cpu np) (running : proc.state = .running)
    (cpus : ℕ) :
    (layout np cpus).Ran now proc cpu (tick now proc cpu).1 (tick now proc cpu).2 := by
  by_cases last : proc.remainingTime - 1 = 0
  · simp only [tick, last, if_true]
    constructor
    · rfl
    · exact last.symm
    · intro _
      exact ⟨rfl, rfl, rfl⟩
    · intro more
      simp only [layout] at more
      omega
  · have one : proc.remainingTime ≠ 1 := by omega
    by_cases demoted : proc.priorityLevel < LEVELS - 1 ∧ quantumLeft proc cpu = 0
    · simp only [tick, last, demoted, and_self, if_true, if_false]
      constructor
      · rfl
      · rfl
      · exact fun same => absurd same one
      · exact fun _ => ⟨rfl, Or.inr ⟨rfl, rfl⟩⟩
    · simp only [tick, last, demoted, if_false]
      constructor
      · rfl
      · rfl
      · exact fun same => absurd same one
      · exact fun _ => ⟨rfl, Or.inl ⟨by simpa [layout] using running, rfl⟩⟩

theorem tick_level {now : Int} {proc : Process} {cpu : Cpu np}
    (level : 0 ≤ proc.priorityLevel ∧ proc.priorityLevel ≤ 2) :
    0 ≤ (tick now proc cpu).1.priorityLevel ∧ (tick now proc cpu).1.priorityLevel ≤ 2 := by
  by_cases last : proc.remainingTime - 1 = 0
  · simp only [tick, last, if_true]
    exact level
  · by_cases demoted : proc.priorityLevel < LEVELS - 1 ∧ quantumLeft proc cpu = 0
    · have low := demoted.1
      simp only [LEVELS] at low
      simp only [tick, last, demoted, and_self, if_true, if_false]
      omega
    · simp only [tick, last, demoted, if_false]
      exact level

theorem execute_levels (levels : Levels sim) (visits : List (Fin cpus)) :
    Levels (visits.foldl execute sim) := by
  induction visits generalizing sim with
  | nil => exact levels
  | cons i rest ih =>
      rw [List.foldl_cons]
      apply ih
      intro x
      cases here : (sim.cpu i).currentProcessId with
      | none =>
          rw [execute_idle here]
          exact levels x
      | some y =>
          rw [(execute_tick here).1]
          by_cases same : x = y
          · subst x
            rw [Function.update_self]
            exact tick_level (levels y)
          · rw [Function.update_of_ne same]
            exact levels x

theorem assign_run {jobs : Fin np → Process} (steady : Steady jobs sim) (levels : Levels sim) :
    Visits (Arrived jobs sim.cycle) (fun x => ((boost sim).p x).priorityLevel)
      (List.finRange cpus) (boost sim) (assign sim) := by
  have prepared := boost_prepared sim
  apply assign_visits
  · exact prepared.cycle
  · intro x
    rw [prepared.arrival, steady.arrival]
  · exact fun _ => rfl
  · exact fun x => (boost_levels levels x).2

theorem assign_levels {jobs : Fin np → Process} (steady : Steady jobs sim) (levels : Levels sim) :
    Levels (assign sim) := by
  intro x
  rw [((assign_run steady levels).unmoved.2.2 x).level]
  exact boost_levels levels x

theorem simulates (jobs : Fin np → Process) :
    Simulates jobs (boost : Sim np cpus → Sim np cpus) assign execute tick
      (fun sim x => (sim.p x).priorityLevel) Levels := by
  constructor
  · exact boost_prepared
  · exact fun sim => assign_run
  · exact execute_serves
  · intro sim i idle
    rw [execute_idle idle]
  · intro now sim i x same here alive
    rw [(execute_tick here).2.2.2]
    simp only [tick_finished alive]
  · exact tick_carried
  · exact fun now p c running => tick_ran now c running cpus
  · intro sim steady levels
    exact execute_levels (assign_levels steady levels) (List.finRange cpus)

theorem start_begins (cpus : ℕ) (jobs : Fin np → Process) : Begins jobs (start cpus jobs) := by
  constructor <;> intros <;> rfl

theorem start_levels (cpus : ℕ) (jobs : Fin np → Process) : Levels (start cpus jobs) := by
  intro x
  simp [start]

/-! ### The rows -/

/-- At every cycle the CPUs run processes of the highest queues, and each process on one CPU. -/
theorem queues_dispatched (jobs : Fin np → Process) (fresh : ∀ x, Fresh (jobs x)) (t : ℕ) :
    Dispatched Process.priorityLevel t (assign (clockCycle^[t] (start cpus jobs))) ∧
      ∀ x, 0 ≤ ((assign (clockCycle^[t] (start cpus jobs))).p x).priorityLevel ∧
        ((assign (clockCycle^[t] (start cpus jobs))).p x).priorityLevel ≤ 2 := by
  have begins := start_begins cpus jobs
  have levels := start_levels cpus jobs
  constructor
  · exact (simulates jobs).assigned (fun _ _ same => same.level) fresh begins levels t
  · obtain ⟨steady, inside, -⟩ := (simulates jobs).holds fresh begins levels t
    exact assign_levels steady inside

theorem queues_dispatched_firstRows :
    Dispatched Process.priorityLevel 9 (assign (clockCycle^[9] (start 2 firstRows))) ∧
      ∀ x, 0 ≤ ((assign (clockCycle^[9] (start 2 firstRows))).p x).priorityLevel ∧
        ((assign (clockCycle^[9] (start 2 firstRows))).p x).priorityLevel ≤ 2 :=
  queues_dispatched firstRows firstRows_fresh 9

end OsLab.Bhanu.Mlfq
