import OsLab.Aryan.Dispatch

/-!
The ticks of the simulators. A tick of a process lowers its work by one and ends with the process
on its CPU, put back or finished. The loops are rounds over the CPUs in which some processes may
never be selected.
-/

namespace OsLab.Aryan

open OsLab.Library

variable {np ncpus : ℕ}

structure Runs (tick : Int → Process → Cpu np → Ticked np) : Prop where
  arrival : ∀ now p c, (tick now p c).process.arrivalTime = p.arrivalTime
  home : ∀ now p c, (tick now p c).process.cpuId = p.cpuId
  result : ∀ now p c, p.state = .running →
    (tick now p c).process.state = .running ∧
        (tick now p c).cpu.currentProcessId = c.currentProcessId ∨
      (tick now p c).process.state ≠ .running ∧ (tick now p c).cpu.currentProcessId = none

structure Ticks (tick : Int → Process → Cpu np → Ticked np) (fits : Process → Prop) : Prop where
  arrival : ∀ now p c, (tick now p c).process.arrivalTime = p.arrivalTime
  home : ∀ now p c, (tick now p c).process.cpuId = p.cpuId
  fits : ∀ now p c, fits (tick now p c).process ↔ fits p
  left : ∀ now p c, (tick now p c).process.remainingTime = p.remainingTime - 1
  ended : ∀ now p c, p.remainingTime = 1 → (tick now p c).process.state = .finished ∧
    (tick now p c).process.completionTime = now + 1 ∧ (tick now p c).cpu.currentProcessId = none ∧
    (tick now p c).completed = 1
  going : ∀ now p c, p.remainingTime ≠ 1 →
    (tick now p c).process.completionTime = p.completionTime ∧ (tick now p c).completed = 0 ∧
    ((tick now p c).process.state = p.state ∧
        (tick now p c).cpu.currentProcessId = c.currentProcessId ∨
      (tick now p c).process.state = .ready ∧ (tick now p c).cpu.currentProcessId = none)

variable {tick : Int → Process → Cpu np → Ticked np} {sim : Sim np ncpus}

theorem execute_none {i : Fin ncpus} (idle : (sim.cpus i).currentProcessId = none) :
    execute tick sim i = sim := by
  simp only [execute, idle]

theorem execute_serves (tick : Int → Process → Cpu np → Ticked np) (now : Int) :
    Serves Sim.processes Sim.cpus Cpu.currentProcessId
      (fun p c => ((tick now p c).process, (tick now p c).cpu))
      (fun sim : Sim np ncpus => sim.currentTime = now) (execute tick) := by
  constructor
  · intro sim i idle
    exact execute_none idle
  · intro sim i x same here
    simp only [execute, here, same]
  · intro sim i x same here
    simp only [execute, here, same]
  · intro sim i same
    cases here : (sim.cpus i).currentProcessId with
    | none => rw [execute_none here, same]
    | some x => simp only [execute, here, same]

theorem runTick_time (tick : Int → Process → Cpu np → Ticked np) (sim : Sim np ncpus) :
    (runTick tick sim).currentTime = sim.currentTime + 1 := by
  rw [runTick, (execute_serves tick sim.currentTime).fixed_foldl rfl]

theorem runTick_other {x : Fin np} (absent : ∀ i, row sim i ≠ some x) :
    (runTick tick sim).processes x = sim.processes x :=
  (execute_serves tick sim.currentTime).bystander rfl (List.nodup_finRange ncpus)
    fun i _ => absent i

/-! ### Who runs has a CPU -/

def Consistent (sim : Sim np ncpus) : Prop :=
  (machine sim).Placed fun x => (sim.processes x).arrivalTime ≤ sim.currentTime

theorem start_consistent {jobs : Fin np → Process} (ready : ∀ x, (jobs x).state = .ready) :
    Consistent (start ncpus jobs) := by
  constructor
  · intro i x here
    simp [machine, row, start] at here
  · intro x running
    simp [machine, start, ready x] at running

theorem Selects.consistent {select : (Fin np → Process) → Int → Option (Fin np)}
    {fits : Process → Prop} {key : Fin np → Process → ℤ} (selects : Selects select fits key)
    (quantum : Process → Cpu np → Int) (visits : List (Fin ncpus))
    (consistent : Consistent sim) : Consistent (visits.foldl (assignIdle select quantum) sim) := by
  have placed := (selects.fill quantum visits sim).placed (fun _ able => able.1) consistent
  have still := assignIdle_foldl_still select quantum visits sim
  constructor
  · intro i x here
    obtain ⟨running, home, arrived⟩ := placed.busy i x here
    refine ⟨running, home, ?_⟩
    rw [(still.process x).arrival, still.time]
    exact arrived
  · exact placed.held

theorem execute_placed {arrived : Fin np → Prop} (runs : Runs tick)
    (placed : (machine sim).Placed arrived) (i : Fin ncpus) :
    (machine (execute tick sim i)).Placed arrived := by
  cases here : (sim.cpus i).currentProcessId with
  | none =>
      rw [execute_none here]
      exact placed
  | some x =>
      have running := (placed.busy i x here).1
      apply placed.serve (i := i) (x := x) here
      · funext y
        by_cases same : y = x
        · subst y
          simp [machine, execute, here, runs.home]
        · simp [machine, execute, here, same]
      · intro y other
        simp [machine, execute, here, other]
      · intro j other
        simp [machine, row, execute, here, other]
      · simpa [machine, row, execute, here] using
          runs.result sim.currentTime (sim.processes x) (sim.cpus i) running

theorem runTick_process {holds : Fin np → Process → Prop}
    (kept : ∀ x now p c, holds x p → holds x (tick now p c).process)
    (before : ∀ x, holds x (sim.processes x)) (x : Fin np) :
    holds x ((runTick tick sim).processes x) := by
  simp only [runTick]
  induction List.finRange ncpus generalizing sim with
  | nil => exact before x
  | cons i rest ih =>
      rw [List.foldl_cons]
      apply ih
      intro y
      cases here : (sim.cpus i).currentProcessId with
      | none =>
          rw [execute_none here]
          exact before y
      | some z =>
          simp only [execute, here]
          by_cases same : y = z
          · subst z
            rw [Function.update_self]
            exact kept y _ _ _ (before y)
          · rw [Function.update_of_ne same]
            exact before y

theorem runTick_arrival (runs : Runs tick) (sim : Sim np ncpus) (x : Fin np) :
    ((runTick tick sim).processes x).arrivalTime = (sim.processes x).arrivalTime := by
  have kept : ∀ x now p c, p.arrivalTime = (sim.processes x).arrivalTime →
      (tick now p c).process.arrivalTime = (sim.processes x).arrivalTime := by
    intro x now p c same
    rw [runs.arrival, same]
  exact runTick_process kept (fun _ => rfl) x

theorem runTick_consistent (runs : Runs tick) (consistent : Consistent sim) :
    Consistent (runTick tick sim) := by
  have placed : ∀ visits : List (Fin ncpus), ∀ s : Sim np ncpus,
      (machine s).Placed (fun x => (sim.processes x).arrivalTime ≤ sim.currentTime) →
      (machine (visits.foldl (execute tick) s)).Placed
        fun x => (sim.processes x).arrivalTime ≤ sim.currentTime := by
    intro visits
    induction visits with
    | nil => exact fun _ placed => placed
    | cons i rest ih => exact fun s placed => ih _ (execute_placed runs placed i)
  have last := placed (List.finRange ncpus) sim consistent
  constructor
  · intro i x here
    obtain ⟨running, same, arrived⟩ := last.busy i x here
    refine ⟨running, same, ?_⟩
    rw [runTick_arrival runs, runTick_time]
    omega
  · exact last.held

theorem Ticks.runs {fits : Process → Prop} (ticks : Ticks tick fits) : Runs tick := by
  refine ⟨ticks.arrival, ticks.home, ?_⟩
  intro now p c running
  by_cases last : p.remainingTime = 1
  · obtain ⟨finished, -, gone, -⟩ := ticks.ended now p c last
    exact Or.inr ⟨by simp [finished], gone⟩
  · rcases (ticks.going now p c last).2.2 with ⟨same, kept⟩ | ⟨ready, gone⟩
    · exact Or.inl ⟨same.trans running, kept⟩
    · exact Or.inr ⟨by simp [ready], gone⟩

/-! ### Rounds -/

def layout (np ncpus : ℕ) : Layout (Sim np ncpus) (Fin np) Process (Cpu np) ncpus where
  tasks := Sim.processes
  procs := Sim.cpus
  clock := Sim.currentTime
  done := Sim.completedCount
  held := Cpu.currentProcessId
  status := Process.state
  home := Process.cpuId
  left := Process.remainingTime
  completion := Process.completionTime

variable {fits : Process → Prop} {jobs : Fin np → Process}
  {select : (Fin np → Process) → Int → Option (Fin np)} {key : Fin np → Process → ℤ}

theorem Ticks.ran (ticks : Ticks tick fits) (now : ℤ) (p : Process) (c : Cpu np)
    (running : p.state = .running) :
    (layout np ncpus).Ran now p c (tick now p c).process (tick now p c).cpu := by
  constructor
  · exact ticks.home now p c
  · exact ticks.left now p c
  · intro last
    obtain ⟨finished, completion, gone, -⟩ := ticks.ended now p c last
    exact ⟨finished, completion, gone⟩
  · intro more
    obtain ⟨completion, -, result⟩ := ticks.going now p c more
    rw [running] at result
    exact ⟨completion, result⟩

theorem Ticks.counts (ticks : Ticks tick fits) (now : ℤ) (p : Process) (c : Cpu np)
    (alive : p.state ≠ .finished) : (tick now p c).completed =
      if (tick now p c).process.state = .finished then 1 else 0 := by
  by_cases last : p.remainingTime = 1
  · obtain ⟨finished, -, -, one⟩ := ticks.ended now p c last
    rw [finished, one, if_pos rfl]
  · obtain ⟨-, none, result⟩ := ticks.going now p c last
    have going : (tick now p c).process.state ≠ .finished := by
      rcases result with ⟨state, -⟩ | ⟨state, -⟩
      · rw [state]
        exact alive
      · simp [state]
    rw [none, if_neg going]

theorem selective (selects : Selects select fits key) (ticks : Ticks tick fits)
    (quantum : Process → Cpu np → Int) (jobs : Fin np → Process) :
    (layout np ncpus).Selective fits (fun x => (jobs x).arrivalTime)
      (fun s => (List.finRange ncpus).foldl (assignIdle select quantum) s) (execute tick)
      (fun s => runTick tick ((List.finRange ncpus).foldl (assignIdle select quantum) s))
      (fun now p c => ((tick now p c).process, (tick now p c).cpu))
      fun s => ∀ x, (s.processes x).arrivalTime = (jobs x).arrivalTime := by
  have still : ∀ s : Sim np ncpus,
      Still s ((List.finRange ncpus).foldl (assignIdle select quantum) s) :=
    assignIdle_foldl_still select quantum (List.finRange ncpus)
  have fill := fun s : Sim np ncpus => selects.fill quantum (List.finRange ncpus) s
  have able : ∀ s : Sim np ncpus, (∀ x, (s.processes x).arrivalTime = (jobs x).arrivalTime) →
      (layout np ncpus).Able fits (fun x => (jobs x).arrivalTime) s = Eligible fits s := by
    intro s same
    funext x
    simp [Layout.Able, Eligible, layout, same]
  constructor
  · intro s same placed
    rw [able s same] at placed ⊢
    exact (fill s).placed (fun _ able => able) placed
  · intro s same _ i idle x waits
    rw [able s same] at waits
    exact (fill s).conserving (List.mem_finRange i) idle x waits
  · intro s _ _
    constructor
    · exact (still s).time
    · exact (still s).completed
    · exact fun x => ((still s).process x).remaining
    · exact fun x => ((still s).process x).completion
    · exact (fill s).finished
  · exact fun s _ x => selects.fits_still _ _ ((still s).process x)
  · exact execute_serves tick
  · intro s i idle
    rw [execute_none idle]
  · intro now s i x same here alive
    have held : (s.cpus i).currentProcessId = some x := here
    have time : s.currentTime = now := same
    have count : (execute tick s i).completedCount =
        s.completedCount + (tick now (s.processes x) (s.cpus i)).completed := by
      simp only [execute, held, time]
    exact count.trans (congrArg _ (ticks.counts now _ _ alive))
  · exact ticks.ran
  · exact ticks.fits
  · exact fun _ => rfl
  · exact fun _ => rfl
  · exact fun _ => rfl
  · exact fun _ => rfl
  · intro s same _ x
    rw [runTick_arrival ticks.runs, ((still s).process x).arrival, same]

/-- A process as `reset_processes` hands it over. -/
structure Fresh (process : Process) : Prop where
  burst : 1 ≤ process.burstTime
  remaining : process.remainingTime = process.burstTime
  ready : process.state = .ready
  arrival : 0 ≤ process.arrivalTime

theorem initial_fresh {id arrivalTime burstTime deadline : Int} (burst : 1 ≤ burstTime)
    (arrival : 0 ≤ arrivalTime) : Fresh (initial id arrivalTime burstTime deadline) :=
  ⟨burst, rfl, rfl, arrival⟩

/-- The loop ends, with all processes finished, exactly when all of them can be selected. -/
theorem ends_iff [DecidablePred fits] (selects : Selects select fits key)
    (ticks : Ticks tick fits) (quantum : Process → Cpu np → Int) (fresh : ∀ x, Fresh (jobs x))
    (processors : 0 < ncpus) :
    (∃ fuel final, whileLoop (fun sim : Sim np ncpus => sim.completedCount < np)
        (fun s => runTick tick ((List.finRange ncpus).foldl (assignIdle select quantum) s)) fuel
        (start ncpus jobs) = some final ∧ ∀ x, (final.processes x).state = .finished) ↔
      ∀ x, fits (jobs x) := by
  have loop : (layout np ncpus).Selective _ _ _ _ _ _ _ := selective selects ticks quantum jobs
  apply @Layout.Selective.ends_iff _ _ _ _ _ _ _ _ _ _ _ _ _ _ _ _ (start ncpus jobs)
    (fun x => (jobs x).burstTime) loop
  · exact fun _ => rfl
  · rfl
  · rfl
  · exact fun _ => rfl
  · exact fun x => (fresh x).ready
  · exact fun x => (fresh x).remaining
  · exact fun x => (fresh x).burst
  · exact fun x => (fresh x).arrival
  · exact Fintype.card_fin np
  · exact processors

end OsLab.Aryan
