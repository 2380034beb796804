import OsLab.Aryan.Cycles
import Mathlib.Data.Fin.VecNotation

/-!
`run_mlfq`. Every index into an array is checked: a cycle ends in a state, or with the first array
that is indexed outside its bounds, which in C leaves the rest of the run undefined.
-/

namespace OsLab.Aryan.Mlfq

open OsLab.Library

variable {np ncpus : ℕ}

inductive Table
  | processes
  | quantums
  | cpus
  deriving DecidableEq, Repr

/-- Queue 2 is FCFS, so its quantum is a dummy. -/
def quantums (level : Int) : Except Table Int :=
  if level = 0 then .ok 4
  else if level = 1 then .ok 8
  else if level = 2 then .ok 100000
  else .error .quantums

def boostInterval : Int := 20

def boostOne (sim : Sim np ncpus) (p : Fin np) : Except Table (Sim np ncpus) :=
  let boosted := { sim with
    processes := Function.update sim.processes p { sim.processes p with priorityLevel := 0 } }
  match (sim.processes p).state with
  | .ready => .ok boosted
  | .running => do
      let cpu := (sim.processes p).cpuId
      if bounds : 0 ≤ cpu ∧ cpu < ncpus then
        let cpu : Fin ncpus := ⟨cpu.toNat, by omega⟩
        let quantum ← quantums 0
        .ok { boosted with
          cpus := Function.update sim.cpus cpu { sim.cpus cpu with timeQuantumLeft := quantum } }
      else
        .error .cpus
  | .finished => .ok sim

def boost (sim : Sim np ncpus) : Except Table (Sim np ncpus) :=
  if sim.currentTime > 0 ∧ sim.currentTime % boostInterval = 0 then
    (List.finRange np).foldlM boostOne sim
  else
    .ok sim

def bestProcess (processes : Fin np → Process) (currentTime : Int) : Option (Fin np) :=
  scanLeast (fun p => (processes p).state = .ready && (processes p).arrivalTime ≤ currentTime)
    (fun p => (processes p).priorityLevel) (List.finRange np) none 10000

/-- The priority found along with it; without a process it is still its initial value. -/
def bestPriority (processes : Fin np → Process) : Option (Fin np) → Int
  | none => 10000
  | some p => (processes p).priorityLevel

def assignOne (sim : Sim np ncpus) (i : Fin ncpus) : Except Table (Sim np ncpus) := do
  let best := bestProcess sim.processes sim.currentTime
  if bestPriority sim.processes best ≠ -1 then
    match (sim.cpus i).currentProcessId with
    | some _ => .ok sim
    | none =>
        match best with
        | none => .error .processes
        | some p =>
            let quantum ← quantums (sim.processes p).priorityLevel
            .ok (dispatch sim i p quantum)
  else
    match best, (sim.cpus i).currentProcessId with
    | some p, some current =>
        if (sim.processes p).priorityLevel < (sim.processes current).priorityLevel then
          let preempted := { sim with
            processes := Function.update sim.processes current { sim.processes current with
              state := .ready } }
          let quantum ← quantums (sim.processes p).priorityLevel
          .ok (dispatch preempted i p quantum)
        else
          .ok sim
    | _, _ => .error .processes

def assignAll (sim : Sim np ncpus) : Except Table (Sim np ncpus) :=
  (List.finRange ncpus).foldlM assignOne sim

def assign (sim : Sim np ncpus) : Except Table (Sim np ncpus) := do
  assignAll (← boost sim)

def tick (currentTime : Int) (process : Process) (cpu : Cpu np) : Ticked np :=
  let process := { process with remainingTime := process.remainingTime - 1 }
  let cpu := if process.priorityLevel < 2 then
      { cpu with timeQuantumLeft := cpu.timeQuantumLeft - 1 }
    else cpu
  if process.remainingTime ≤ 0 then
    { process := { process with state := .finished, completionTime := currentTime + 1 }
      cpu := { cpu with currentProcessId := none }
      completed := 1 }
  else if process.priorityLevel < 2 ∧ cpu.timeQuantumLeft ≤ 0 then
    { process := { process with
        priorityLevel := process.priorityLevel + 1
        state := .ready }
      cpu := { cpu with currentProcessId := none }
      completed := 0 }
  else
    { process := process, cpu := cpu, completed := 0 }

def clockCycle (sim : Sim np ncpus) : Except Table (Sim np ncpus) := do
  .ok (runTick tick (← assign sim))

/-- The state after `cycles` rounds of the `while` loop, or after all of them. -/
def runMlfq (processes : Fin np → Process) (ncpus : ℕ) : ℕ → Except Table (Sim np ncpus)
  | 0 => .ok (start ncpus processes)
  | cycles + 1 => do
      let sim ← runMlfq processes ncpus cycles
      if sim.completedCount < np then clockCycle sim else .ok sim

def priority (_ : Fin np) (process : Process) : ℤ := process.priorityLevel

theorem bestProcess_selects : Selects (bestProcess : (Fin np → Process) → Int → Option (Fin np))
    (fun p => p.priorityLevel < 10000) priority := by
  constructor
  · intro p now nothing x ready arrived
    have large := scanLeast_none nothing x (List.mem_finRange x) (by simp [ready, arrived])
    omega
  · intro p now b found
    obtain ⟨-, chosen, small, least⟩ := scanLeast_some found
    simp only [Bool.and_eq_true, decide_eq_true_eq] at chosen
    refine ⟨chosen.1, chosen.2, small, ?_⟩
    intro x ready arrived _
    exact least x (List.mem_finRange x) (by simp [ready, arrived])
  · intro p p' unmoved
    rw [unmoved.level]
  · intro _ p p' unmoved
    exact unmoved.level

theorem tick_runs : Runs (tick : Int → Process → Cpu np → Ticked np) := by
  constructor
  · intro now p c
    simp only [tick]
    split_ifs <;> rfl
  · intro now p c
    simp only [tick]
    split_ifs <;> rfl
  · intro now p c running
    simp only [tick]
    split_ifs <;> simp [running]

theorem quantums_ok {level : Int} (bounds : 0 ≤ level ∧ level ≤ 2) :
    ∃ quantum, quantums level = .ok quantum := by
  have cases : level = 0 ∨ level = 1 ∨ level = 2 := by omega
  rcases cases with rfl | rfl | rfl
  · exact ⟨4, rfl⟩
  · exact ⟨8, rfl⟩
  · exact ⟨100000, rfl⟩

/-- Who runs has a CPU and a level that `quantums` has an entry for. -/
structure Served (sim : Sim np ncpus) : Prop where
  consistent : Consistent sim
  running : ∀ x, (sim.processes x).state = .running →
    0 ≤ (sim.processes x).priorityLevel ∧ (sim.processes x).priorityLevel ≤ 2

structure Sound (sim : Sim np ncpus) : Prop where
  consistent : Consistent sim
  level : ∀ x, 0 ≤ (sim.processes x).priorityLevel ∧ (sim.processes x).priorityLevel ≤ 2

theorem Sound.served {sim : Sim np ncpus} (sound : Sound sim) : Served sim :=
  ⟨sound.consistent, fun x _ => sound.level x⟩

theorem start_served {jobs : Fin np → Process} (ready : ∀ x, (jobs x).state = .ready) :
    Served (start ncpus jobs) where
  consistent := start_consistent ready
  running x busy := by simp [start, ready x] at busy

theorem start_sound {jobs : Fin np → Process} (ready : ∀ x, (jobs x).state = .ready)
    (level : ∀ x, (jobs x).priorityLevel = 0) : Sound (start ncpus jobs) where
  consistent := start_consistent ready
  level x := by simp [start, level x]

variable {sim after : Sim np ncpus}

theorem runTick_served (served : Served sim) : Served (runTick tick sim) where
  consistent := runTick_consistent tick_runs served.consistent
  running := by
    have kept : ∀ (x : Fin np) now p (c : Cpu np),
        (p.state = .running → 0 ≤ p.priorityLevel ∧ p.priorityLevel ≤ 2) →
        (tick now p c).process.state = .running →
        0 ≤ (tick now p c).process.priorityLevel ∧
          (tick now p c).process.priorityLevel ≤ 2 := by
      intro _ now p c bounds
      simp only [tick]
      split_ifs <;> simp_all
    exact runTick_process kept served.running

theorem runTick_sound (sound : Sound sim) : Sound (runTick tick sim) where
  consistent := runTick_consistent tick_runs sound.consistent
  level := by
    have kept : ∀ (x : Fin np) now p (c : Cpu np), 0 ≤ p.priorityLevel ∧ p.priorityLevel ≤ 2 →
        0 ≤ (tick now p c).process.priorityLevel ∧ (tick now p c).process.priorityLevel ≤ 2 := by
      intro _ now p c bounds
      simp only [tick]
      split_ifs <;> dsimp only <;> omega
    exact runTick_process kept sound.level

/-! ### The boost -/

structure Boosted (sim after : Sim np ncpus) : Prop where
  current : machine after = machine sim
  time : after.currentTime = sim.currentTime
  completed : after.completedCount = sim.completedCount
  arrival : ∀ x, (after.processes x).arrivalTime = (sim.processes x).arrivalTime
  level : ∀ x, (after.processes x).priorityLevel = 0 ∨
    (after.processes x).priorityLevel = (sim.processes x).priorityLevel

theorem Boosted.refl (sim : Sim np ncpus) : Boosted sim sim :=
  ⟨rfl, rfl, rfl, fun _ => rfl, fun _ => Or.inr rfl⟩

theorem Boosted.trans {first second third : Sim np ncpus} (left : Boosted first second)
    (right : Boosted second third) : Boosted first third where
  current := right.current.trans left.current
  time := right.time.trans left.time
  completed := right.completed.trans left.completed
  arrival x := (right.arrival x).trans (left.arrival x)
  level x := by
    rcases right.level x with zero | same
    · exact Or.inl zero
    · rw [same]
      exact left.level x

theorem Boosted.consistent (boosted : Boosted sim after) (consistent : Consistent sim) :
    Consistent after := by
  rw [Consistent] at consistent ⊢
  simp only [boosted.current, boosted.arrival, boosted.time]
  exact consistent

theorem Boosted.served (boosted : Boosted sim after) (served : Served sim) : Served after where
  consistent := boosted.consistent served.consistent
  running x busy := by
    have same : (machine after).status x = (machine sim).status x := by rw [boosted.current]
    simp only [machine] at same
    have bounds := served.running x (same.symm.trans busy)
    rcases boosted.level x with zero | kept <;> omega

theorem Boosted.sound (boosted : Boosted sim after) (sound : Sound sim) : Sound after where
  consistent := boosted.consistent sound.consistent
  level x := by
    have bounds := sound.level x
    rcases boosted.level x with zero | same <;> omega

theorem Boosted.eligible (boosted : Boosted sim after) (x : Fin np) :
    (machine after).Waiting (Eligible (fun _ => True) after) x ↔
      (machine sim).Waiting (Eligible (fun _ => True) sim) x := by
  simp only [boosted.current, Machine.Waiting, Eligible, boosted.arrival, boosted.time]

theorem boostOne_ok (consistent : Consistent sim) (p : Fin np) :
    ∃ after, boostOne sim p = .ok after ∧ Boosted sim after := by
  have shape : ∀ cpus : Fin ncpus → Cpu np,
      (∀ i, (cpus i).currentProcessId = (sim.cpus i).currentProcessId) →
      Boosted sim { sim with
        processes := Function.update sim.processes p
          { sim.processes p with priorityLevel := 0 }
        cpus := cpus } := by
    intro cpus same
    refine ⟨?_, rfl, rfl, ?_, ?_⟩
    · simp only [machine, Machine.mk.injEq]
      refine ⟨?_, ?_, funext same⟩
      all_goals
        funext x
        by_cases here : x = p
        · subst x
          simp
        · simp [here]
    all_goals
      intro x
      by_cases here : x = p
      · subst x
        simp
      · simp [here]
  cases state : (sim.processes p).state with
  | ready =>
      exact ⟨_, by simp only [boostOne, state], shape sim.cpus fun _ => rfl⟩
  | finished => exact ⟨sim, by simp only [boostOne, state], .refl sim⟩
  | running =>
      obtain ⟨i, here⟩ := consistent.held p state
      have home : (sim.processes p).cpuId = i := (consistent.busy i p here).2.1
      have bounds : 0 ≤ (sim.processes p).cpuId ∧ (sim.processes p).cpuId < ncpus := by omega
      refine ⟨_, by simp only [boostOne, state, dif_pos bounds]; rfl, shape _ ?_⟩
      intro j
      by_cases same : j = ⟨(sim.processes p).cpuId.toNat, by omega⟩
      · subst j
        simp
      · simp [same]

theorem boost_ok (consistent : Consistent sim) :
    ∃ after, boost sim = .ok after ∧ Boosted sim after := by
  have all : ∀ (visits : List (Fin np)) (sim : Sim np ncpus), Consistent sim →
      ∃ after, visits.foldlM boostOne sim = .ok after ∧ Boosted sim after := by
    intro visits
    induction visits with
    | nil => exact fun sim _ => ⟨sim, rfl, .refl sim⟩
    | cons p rest ih =>
        intro sim consistent
        obtain ⟨middle, first, boosted⟩ := boostOne_ok consistent p
        obtain ⟨after, later, more⟩ := ih middle (boosted.consistent consistent)
        refine ⟨after, ?_, boosted.trans more⟩
        rw [List.foldlM_cons, first]
        exact later
  by_cases due : sim.currentTime > 0 ∧ sim.currentTime % boostInterval = 0
  · obtain ⟨after, done, boosted⟩ := all (List.finRange np) sim consistent
    exact ⟨after, by rw [boost, if_pos due, done], boosted⟩
  · exact ⟨sim, by rw [boost, if_neg due], .refl sim⟩

/-! ### The assignment loop -/

theorem quantums_some {level quantum : Int} (value : quantums level = .ok quantum) :
    0 ≤ level ∧ level ≤ 2 := by
  rw [quantums] at value
  split_ifs at value <;> omega

/-- A preemption needs a waiting process at level -1, for which `quantums` has no entry. -/
theorem assignOne_ok (served : Served sim) {i : Fin ncpus} (done : assignOne sim i = .ok after) :
    (∃ x, row sim i = some x) ∧ after = sim ∨
      row sim i = none ∧ ∃ p quantum, bestProcess sim.processes sim.currentTime = some p ∧
        (0 ≤ (sim.processes p).priorityLevel ∧ (sim.processes p).priorityLevel ≤ 2) ∧
        after = dispatch sim i p quantum := by
  cases best : bestProcess sim.processes sim.currentTime with
  | none =>
      cases here : (sim.cpus i).currentProcessId with
      | none => simp [assignOne, best, bestPriority, here] at done
      | some x =>
          simp [assignOne, best, bestPriority, here] at done
          exact Or.inl ⟨⟨x, here⟩, done.symm⟩
  | some p =>
      cases here : (sim.cpus i).currentProcessId with
      | some x =>
          refine Or.inl ⟨⟨x, here⟩, ?_⟩
          by_cases level : (sim.processes p).priorityLevel = -1
          · have bounds := served.running x (served.consistent.busy i x here).1
            have lower : (-1 : Int) < (sim.processes x).priorityLevel := by omega
            simp [assignOne, best, bestPriority, here, level, lower, quantums, bind,
              Except.bind] at done
          · simp [assignOne, best, bestPriority, here, level] at done
            exact done.symm
      | none =>
          by_cases level : (sim.processes p).priorityLevel = -1
          · simp [assignOne, best, bestPriority, here, level] at done
          · cases value : quantums (sim.processes p).priorityLevel with
            | error table =>
                simp [assignOne, best, bestPriority, level, here, value, bind, Except.bind] at done
            | ok quantum =>
                simp only [assignOne, best, bestPriority, ne_eq, level, not_false_eq_true, if_true,
                  here, value] at done
                exact Or.inr ⟨here, p, quantum, rfl, quantums_some value, (Except.ok.inj done).symm⟩

theorem assignOne_error (sound : Sound sim) {i : Fin ncpus} {table : Table}
    (failed : assignOne sim i = .error table) : table = .processes ∧ row sim i = none ∧
      bestProcess sim.processes sim.currentTime = none := by
  cases best : bestProcess sim.processes sim.currentTime with
  | none =>
      cases here : (sim.cpus i).currentProcessId with
      | none =>
          simp [assignOne, best, bestPriority, here] at failed
          exact ⟨failed.symm, here, rfl⟩
      | some x => simp [assignOne, best, bestPriority, here] at failed
  | some p =>
      have level : (sim.processes p).priorityLevel ≠ -1 := by
        have bounds := sound.level p
        omega
      cases here : (sim.cpus i).currentProcessId with
      | some x => simp [assignOne, best, bestPriority, here, level] at failed
      | none =>
          obtain ⟨quantum, value⟩ := quantums_ok (sound.level p)
          simp only [assignOne, best, bestPriority, ne_eq, level, not_false_eq_true, if_true, here,
            value] at failed
          cases failed

theorem bestProcess_none (sound : Sound sim)
    (nothing : bestProcess sim.processes sim.currentTime = none) (y : Fin np) :
    ¬ (machine sim).Waiting (Eligible (fun _ => True) sim) y := by
  rintro ⟨ready, arrived, -⟩
  have large := bestProcess_selects.none _ _ nothing y ready arrived
  have bounds := (sound.level y).2
  omega

theorem dispatch_served (served : Served sim) {i : Fin ncpus} (idle : row sim i = none) {p : Fin np}
    (found : bestProcess sim.processes sim.currentTime = some p)
    (level : 0 ≤ (sim.processes p).priorityLevel ∧ (sim.processes p).priorityLevel ≤ 2)
    (quantum : Int) : Served (dispatch sim i p quantum) := by
  obtain ⟨ready, arrived, -⟩ := bestProcess_selects.some _ _ _ found
  have still := dispatch_still sim i p quantum
  constructor
  · have placed := Machine.put_placed served.consistent i (b := p) ⟨ready, arrived⟩
    rw [← dispatch_machine idle p quantum] at placed
    constructor
    · intro j x here
      rw [(still.process x).arrival, still.time]
      exact placed.busy j x here
    · exact placed.held
  · intro x busy
    rw [(still.process x).level]
    by_cases same : x = p
    · rw [same]
      exact level
    · simp only [dispatch, Function.update_of_ne same] at busy
      exact served.running x busy

theorem Sound.still (sound : Sound sim) (still : Still sim after) (served : Served after) :
    Sound after where
  consistent := served.consistent
  level x := by
    rw [(still.process x).level]
    exact sound.level x

/-- A CPU of the assignment loop keeps its process, or gets the waiting one with least level. -/
theorem assignOne_fill (served : Served sim) {i : Fin ncpus} (done : assignOne sim i = .ok after) :
    Still sim after ∧ Served after ∧ (∃ x, row after i = some x) ∧ ∀ {rest last},
      Machine.Fill (Eligible (fun _ => True) after) (fun x => priority x (after.processes x)) rest
        (machine after) last →
      Machine.Fill (Eligible (fun _ => True) sim) (fun x => priority x (sim.processes x))
        (i :: rest) (machine sim) last := by
  rcases assignOne_ok served done with ⟨⟨x, here⟩, rfl⟩ | ⟨idle, p, quantum, found, level, rfl⟩
  · refine ⟨.refl _, served, ⟨x, here⟩, fun fill => .keep ?_ fill⟩
    intro idle
    simp [machine, here] at idle
  · obtain ⟨ready, arrived, small, least⟩ := bestProcess_selects.some _ _ _ found
    have still := dispatch_still sim i p quantum
    refine ⟨still, dispatch_served served idle found level quantum, ⟨p, by simp [row, dispatch]⟩,
      fun fill => ?_⟩
    have eligible : Eligible (fun _ => True) (dispatch sim i p quantum) =
        Eligible (fun _ => True) sim := by
      funext x
      simp only [Eligible, (still.process x).arrival, still.time]
    have levels : (fun x => priority x ((dispatch sim i p quantum).processes x)) =
        fun x => priority x (sim.processes x) := by
      funext x
      exact (still.process x).level
    rw [eligible, levels, dispatch_machine idle] at fill
    refine .take idle ⟨ready, arrived, trivial⟩ ?_ fill
    rintro y ⟨state, here, -⟩
    by_cases low : (sim.processes y).priorityLevel < 10000
    · exact least y state here low
    · simp only [priority]
      omega

theorem assign_fill (served : Served sim) (visits : List (Fin ncpus))
    (done : visits.foldlM assignOne sim = .ok after) :
    Still sim after ∧ Served after ∧
      Machine.Fill (Eligible (fun _ => True) sim) (fun x => priority x (sim.processes x)) visits
        (machine sim) (machine after) ∧
      ∀ i ∈ visits, ∃ x, row after i = some x := by
  induction visits generalizing sim with
  | nil =>
      obtain rfl := Except.ok.inj done
      exact ⟨.refl _, served, .nil _, by simp⟩
  | cons i rest ih =>
      rw [List.foldlM_cons] at done
      cases step : assignOne sim i with
      | error table =>
          rw [step] at done
          cases done
      | ok middle =>
          rw [step] at done
          obtain ⟨still, good, ⟨x, here⟩, extends_⟩ := assignOne_fill served step
          obtain ⟨more, last, fill, busy⟩ := ih good done
          refine ⟨still.trans more, last, extends_ fill, fun j member => ?_⟩
          rcases List.mem_cons.mp member with rfl | later
          · exact ⟨x, fill.kept here⟩
          · exact busy j later

theorem assign_error (sound : Sound sim) (visits : List (Fin ncpus)) {table : Table}
    (failed : visits.foldlM assignOne sim = .error table) : table = .processes ∧
      ∃ before i stuck,
        Machine.Fill (Eligible (fun _ => True) sim) (fun x => priority x (sim.processes x)) before
          (machine sim) stuck ∧
        stuck.current i = none ∧ ∀ y, ¬ stuck.Waiting (Eligible (fun _ => True) sim) y := by
  induction visits generalizing sim with
  | nil => cases failed
  | cons i rest ih =>
      rw [List.foldlM_cons] at failed
      cases step : assignOne sim i with
      | error other =>
          rw [step] at failed
          obtain rfl : other = table := Except.error.inj failed
          obtain ⟨named, idle, nothing⟩ := assignOne_error sound step
          exact ⟨named, [], i, machine sim, .nil _, idle, bestProcess_none sound nothing⟩
      | ok middle =>
          rw [step] at failed
          obtain ⟨still, good, -, extends_⟩ := assignOne_fill sound.served step
          obtain ⟨named, before, j, stuck, fill, idle, nobody⟩ :=
            ih (sound.still still good) failed
          refine ⟨named, i :: before, j, stuck, extends_ fill, idle, fun y waits => nobody y ?_⟩
          refine ⟨waits.1, ?_, trivial⟩
          rw [(still.process y).arrival, still.time]
          exact waits.2.1

/-- Every index is in range exactly when enough processes wait for the CPUs that are idle. -/
theorem assignAll_iff (sound : Sound sim) :
    ((∃ after, assignAll sim = .ok after) ↔ (idle sim).card ≤ (waiting sim).card) ∧
      ∀ table, assignAll sim = .error table → table = .processes := by
  rw [idle_eq, waiting_eq]
  cases done : assignAll sim with
  | ok last =>
      obtain ⟨-, -, fill, busy⟩ := assign_fill sound.served (List.finRange ncpus) done
      have none : (machine last).idle.card = 0 := by
        rw [Finset.card_eq_zero, Finset.eq_empty_iff_forall_notMem]
        intro i member
        obtain ⟨x, here⟩ := busy i (List.mem_finRange i)
        rw [Machine.mem_idle] at member
        simp only [machine] at member
        simp [here] at member
      have count := fill.count
      exact ⟨⟨fun _ => by omega, fun _ => ⟨last, rfl⟩⟩, by simp⟩
  | error table =>
      obtain ⟨named, before, i, stuck, fill, free, nobody⟩ :=
        assign_error sound (List.finRange ncpus) done
      have empty : (stuck.queue (Eligible (fun _ => True) sim)).card = 0 := by
        rw [Finset.card_eq_zero, Finset.eq_empty_iff_forall_notMem]
        intro y member
        exact nobody y (Machine.mem_queue.mp member)
      have some : 0 < stuck.idle.card := Finset.card_pos.mpr ⟨i, Machine.mem_idle.mpr free⟩
      have count := fill.count
      refine ⟨⟨by simp, fun enough => absurd enough (by omega)⟩, ?_⟩
      rintro other same
      rw [← Except.error.inj same, named]

/-! ### The loop -/

theorem Boosted.same (boosted : Boosted sim after) :
    idle after = idle sim ∧ waiting after = waiting sim := by
  constructor
  · rw [idle_eq, idle_eq, boosted.current]
  · ext x
    rw [waiting_iff, waiting_iff, boosted.eligible]

theorem clockCycle_eq {ready : Sim np ncpus} (boosts : boost sim = .ok ready) :
    clockCycle sim = (assignAll ready).map (runTick tick) := by
  simp only [clockCycle, assign, boosts, bind, Except.bind]
  cases assignAll ready with
  | error table => rfl
  | ok after => rfl

theorem clockCycle_iff (sound : Sound sim) :
    ((∃ after, clockCycle sim = .ok after) ↔ (idle sim).card ≤ (waiting sim).card) ∧
      ∀ table, clockCycle sim = .error table → table = .processes := by
  obtain ⟨ready, boosts, boosted⟩ := boost_ok sound.consistent
  obtain ⟨safe, only⟩ := assignAll_iff (boosted.sound sound)
  rw [boosted.same.1, boosted.same.2] at safe
  rw [← safe]
  have step := clockCycle_eq boosts
  cases done : assignAll ready with
  | ok after => exact ⟨by simp [step, done, Except.map], by simp [step, done, Except.map]⟩
  | error table =>
      refine ⟨by simp [step, done, Except.map], ?_⟩
      intro other failed
      rw [step, done] at failed
      exact only other (by rw [done]; simpa [Except.map] using failed)

theorem clockCycle_ok (consistent : Consistent sim) (done : clockCycle sim = .ok after) :
    ∃ ready assigned, boost sim = .ok ready ∧ Boosted sim ready ∧ assignAll ready = .ok assigned ∧
      after = runTick tick assigned := by
  obtain ⟨ready, boosts, boosted⟩ := boost_ok consistent
  rw [clockCycle_eq boosts] at done
  cases assigns : assignAll ready with
  | error table => simp [assigns, Except.map] at done
  | ok assigned =>
      simp only [assigns, Except.map, Except.ok.injEq] at done
      exact ⟨ready, assigned, boosts, boosted, assigns, done.symm⟩

theorem clockCycle_served (served : Served sim) (done : clockCycle sim = .ok after) :
    Served after := by
  obtain ⟨ready, assigned, -, boosted, assigns, rfl⟩ := clockCycle_ok served.consistent done
  exact runTick_served (assign_fill (boosted.served served) _ assigns).2.1

theorem clockCycle_sound (sound : Sound sim) (done : clockCycle sim = .ok after) :
    Sound after := by
  obtain ⟨ready, assigned, -, boosted, assigns, rfl⟩ := clockCycle_ok sound.consistent done
  have good := boosted.sound sound
  obtain ⟨still, served, -⟩ := assign_fill good.served _ assigns
  exact runTick_sound (good.still still served)

variable {jobs : Fin np → Process}

theorem runMlfq_keeps {holds : Sim np ncpus → Prop} (first : holds (start ncpus jobs))
    (kept : ∀ sim after, holds sim → clockCycle sim = .ok after → holds after) (cycles : ℕ)
    {sim : Sim np ncpus} (reached : runMlfq jobs ncpus cycles = .ok sim) : holds sim := by
  induction cycles generalizing sim with
  | zero =>
      obtain rfl := Except.ok.inj reached
      exact first
  | succ cycles ih =>
      cases before : runMlfq jobs ncpus cycles with
      | error table =>
          simp only [runMlfq, before] at reached
          cases reached
      | ok middle =>
          simp only [runMlfq, before, bind, Except.bind] at reached
          split at reached
          · exact kept middle sim (ih before) reached
          · obtain rfl := Except.ok.inj reached
            exact ih before

theorem runMlfq_served (ready : ∀ x, (jobs x).state = .ready) (cycles : ℕ) {sim : Sim np ncpus}
    (reached : runMlfq jobs ncpus cycles = .ok sim) : Served sim :=
  runMlfq_keeps (start_served ready) (fun _ _ => clockCycle_served) cycles reached

theorem runMlfq_sound (ready : ∀ x, (jobs x).state = .ready)
    (level : ∀ x, (jobs x).priorityLevel = 0) (cycles : ℕ) {sim : Sim np ncpus}
    (reached : runMlfq jobs ncpus cycles = .ok sim) : Sound sim :=
  runMlfq_keeps (start_sound ready level) (fun _ _ => clockCycle_sound) cycles reached

/-- The run indexes its arrays within their bounds exactly as long as, in every cycle, at least as
many processes wait as CPUs are idle. -/
theorem runMlfq_indexes_iff (jobs : Fin np → Process) (ncpus : ℕ)
    (ready : ∀ x, (jobs x).state = .ready) (level : ∀ x, (jobs x).priorityLevel = 0)
    (cycles : ℕ) :
    ((∃ sim, runMlfq jobs ncpus cycles = .ok sim) ↔
      ∀ earlier, earlier < cycles → ∀ sim, runMlfq jobs ncpus earlier = .ok sim →
        sim.completedCount < np → (idle sim).card ≤ (waiting sim).card) ∧
      ∀ table, runMlfq jobs ncpus cycles = .error table → table = .processes := by
  induction cycles with
  | zero => exact ⟨⟨fun _ _ before => absurd before (by omega), fun _ => ⟨_, rfl⟩⟩, by simp [runMlfq]⟩
  | succ cycles ih =>
      obtain ⟨safe, only⟩ := ih
      cases before : runMlfq jobs ncpus cycles with
      | error table =>
          have failed : runMlfq jobs ncpus (cycles + 1) = .error table := by
            simp only [runMlfq, before]
            rfl
          rw [failed]
          refine ⟨⟨by simp, ?_⟩, ?_⟩
          · intro enough
            have none := safe.mpr fun earlier less => enough earlier (by omega)
            rw [before] at none
            simp at none
          · intro other same
            exact only other (by rw [before]; simpa using same)
      | ok middle =>
          have sound := runMlfq_sound ready level cycles before
          have past := safe.mp ⟨middle, before⟩
          obtain ⟨now, last⟩ := clockCycle_iff sound
          have step : runMlfq jobs ncpus (cycles + 1) =
              if middle.completedCount < np then clockCycle middle else .ok middle := by
            simp only [runMlfq, before]
            rfl
          rw [step]
          by_cases more : middle.completedCount < np
          · rw [if_pos more, now]
            refine ⟨⟨?_, ?_⟩, last⟩
            · intro enough earlier less sim reached unfinished
              by_cases same : earlier = cycles
              · subst earlier
                rw [before, Except.ok.injEq] at reached
                subst sim
                exact enough
              · exact past earlier (by omega) sim reached unfinished
            · intro enough
              exact enough cycles (by omega) middle before more
          · rw [if_neg more]
            refine ⟨⟨?_, fun _ => ⟨middle, rfl⟩⟩, by simp⟩
            intro _ earlier less sim reached unfinished
            by_cases same : earlier = cycles
            · subst earlier
              rw [before, Except.ok.injEq] at reached
              subst sim
              exact absurd unfinished more
            · exact past earlier (by omega) sim reached unfinished

/-- A process that arrives when the only CPU has nothing to do yet. -/
def late : Fin 1 → Process := ![initial 1 1 3 10]

def prompt : Fin 1 → Process := ![initial 1 0 3 10]

theorem runMlfq_indexes_iff_late : (∃ sim, runMlfq prompt 1 2 = .ok sim) ∧
    ¬ ∃ sim, runMlfq late 1 1 = .ok sim := by
  constructor
  · refine (runMlfq_indexes_iff prompt 1 (by decide) (by decide) 2).1.mpr ?_
    rintro (_ | _ | earlier) less sim reached -
    · obtain rfl := Except.ok.inj reached
      decide
    · obtain rfl := Except.ok.inj reached
      decide
    · omega
  · rw [(runMlfq_indexes_iff late 1 (by decide) (by decide) 1).1]
    intro enough
    exact absurd (enough 0 (by decide) _ rfl (by decide)) (by decide)

/-- In the first cycle the index that was not found is used all the same. -/
theorem runMlfq_outside : (∀ x, 1 ≤ (late x).burstTime ∧
    (late x).remainingTime = (late x).burstTime ∧ (late x).state = .ready ∧
    (late x).priorityLevel = 0) ∧ runMlfq late 1 1 = .error .processes :=
  ⟨by decide, rfl⟩

/-! ### Priorities -/

/-- No READY process that has arrived has a smaller level than one that has a CPU. -/
def Ordered (sim : Sim np ncpus) : Prop :=
  ∀ i x, (sim.cpus i).currentProcessId = some x → ∀ y, (sim.processes y).state = .ready →
    (sim.processes y).arrivalTime ≤ sim.currentTime →
    (sim.processes x).priorityLevel ≤ (sim.processes y).priorityLevel

/-- The levels are ordered after the assignment exactly when, before it, the idle CPUs suffice for
all waiting processes above one that has a CPU. -/
theorem runMlfq_ordered_iff (jobs : Fin np → Process) (ncpus : ℕ)
    (ready : ∀ x, (jobs x).state = .ready) (cycles : ℕ) {sim boosted assigned : Sim np ncpus}
    (reached : runMlfq jobs ncpus cycles = .ok sim) (boosts : boost sim = .ok boosted)
    (assigns : assignAll boosted = .ok assigned) : Ordered assigned ↔
      ∀ i x, (boosted.cpus i).currentProcessId = some x →
        (ahead priority boosted x).card ≤ (idle boosted).card := by
  have served := runMlfq_served ready cycles reached
  obtain ⟨again, same, effect⟩ := boost_ok served.consistent
  obtain rfl : boosted = again := Except.ok.inj (boosts.symm.trans same)
  obtain ⟨still, -, fill, -⟩ := assign_fill (effect.served served) _ assigns
  exact ordered_iff still (fun _ _ _ unmoved => unmoved.level) fill

/-- The third process arrives when one of the two CPUs is idle and the other runs the first, which
starts at level 1. -/
def mixed : Fin 3 → Process :=
  ![{ initial 1 0 8 15 with priorityLevel := 1 }, initial 2 0 2 60, initial 3 2 2 12]

theorem runMlfq_ordered_iff_mixed : ∃ sim boosted assigned : Sim 3 2,
    runMlfq mixed 2 2 = .ok sim ∧ boost sim = .ok boosted ∧ assignAll boosted = .ok assigned ∧
      (ahead priority boosted 0).card = 1 ∧ (boosted.cpus 1).currentProcessId = some 0 ∧
      Ordered assigned :=
  ⟨_, _, _, rfl, rfl, rfl, by decide, by decide,
    (runMlfq_ordered_iff mixed 2 (by decide) 2 rfl rfl rfl).mpr (by decide)⟩

/-- A long process and a short one that arrives when the long one has been demoted. -/
def demoted : Fin 2 → Process := ![initial 1 0 8 15, initial 2 5 2 12]

/-- The short process waits in the first queue while the long one runs from the second. -/
theorem runMlfq_inverted : ∃ sim boosted assigned, runMlfq demoted 1 5 = .ok sim ∧
    boost sim = .ok boosted ∧ assignAll boosted = .ok assigned ∧ ¬ Ordered assigned := by
  refine ⟨_, _, _, rfl, rfl, rfl, ?_⟩
  intro ordered
  have less := ordered 0 0 (by decide) 1 (by decide) (by decide)
  exact absurd less (by decide)

end OsLab.Aryan.Mlfq
