import OsLab.Ayush.Rms
import OsLab.Library.Rounds
import Mathlib.Data.Fin.VecNotation
import Mathlib.Tactic.FinCases

/-! `run_rms` as a dispatcher by period. -/

namespace OsLab.Ayush

open OsLab.Library

def State.status : State → Status
  | .ready => .ready
  | .running => .running
  | .finished => .finished

@[simp] theorem State.status_ready {state : State} : state.status = .ready ↔ state = .ready := by
  cases state <;> simp [status]

@[simp] theorem State.status_running {state : State} :
    state.status = .running ↔ state = .running := by
  cases state <;> simp [status]

@[simp] theorem State.status_finished {state : State} :
    state.status = .finished ↔ state = .finished := by
  cases state <;> simp [status]

structure Fresh (process : Process) : Prop where
  burst : 1 ≤ process.burstTime
  remaining : process.remainingTime = process.burstTime
  period : 1 ≤ process.period
  ready : process.state = .ready

namespace Rms

variable {n c : ℕ} {sim : Sim n c}

def layout (n c : ℕ) : Layout (Sim n c) (Fin n) Process (Cpu n) c where
  tasks := Sim.processes
  procs := Sim.cpus
  clock := Sim.currentTime
  done := Sim.completedCount
  held := Cpu.currentProcessId
  status p := p.state.status
  home := Process.cpuId
  left := Process.remainingTime
  completion := Process.completionTime

/-! ### Candidates -/

structure Unmoved (before after : Process) : Prop where
  arrival : after.arrivalTime = before.arrivalTime
  remaining : after.remainingTime = before.remainingTime
  period : after.period = before.period
  completion : after.completionTime = before.completionTime

theorem Unmoved.refl (process : Process) : Unmoved process process := by
  constructor <;> rfl

theorem Unmoved.trans {first second third : Process} (left : Unmoved first second)
    (right : Unmoved second third) : Unmoved first third where
  arrival := right.arrival.trans left.arrival
  remaining := right.remaining.trans left.remaining
  period := right.period.trans left.period
  completion := right.completion.trans left.completion

structure Placing (sim : Sim n c) (i : Fin c) (b : Fin n) (after : Sim n c) : Prop where
  machine : (layout n c).machine after = ((layout n c).machine sim).put i b
  time : after.currentTime = sim.currentTime
  count : after.completedCount = sim.completedCount
  unmoved : ∀ x, Unmoved (sim.processes x) (after.processes x)

theorem assign_placing {i : Fin c} {b : Fin n} (idle : (sim.cpus i).currentProcessId = none) :
    Placing sim i b (assign sim i b) := by
  constructor
  · simp only [Layout.machine, Machine.put, Machine.mk.injEq]
    refine ⟨?_, ?_, ?_⟩
    · funext x
      by_cases same : x = b
      · subst x
        simp [layout, assign, State.status]
      · simp [layout, assign, same, Layout.row, idle]
    · funext x
      by_cases same : x = b
      · subst x
        simp [layout, assign]
      · simp [layout, assign, same]
    · funext j
      by_cases same : j = i
      · subst j
        simp [layout, assign, Layout.row]
      · simp [layout, assign, Layout.row, same]
  · rfl
  · rfl
  · intro x
    by_cases same : x = b
    · subst x
      simp only [assign, Function.update_self]
      constructor <;> rfl
    · simp only [assign, Function.update_of_ne same]
      exact .refl _

theorem preempt_placing {i : Fin c} {b running : Fin n}
    (here : (sim.cpus i).currentProcessId = some running) (other : b ≠ running) :
    Placing sim i b (assign (preempt sim running) i b) := by
  constructor
  · simp only [Layout.machine, Machine.put, Machine.mk.injEq]
    refine ⟨?_, ?_, ?_⟩
    · funext x
      by_cases same : x = b
      · subst x
        simp [layout, assign, State.status]
      · by_cases displaced : x = running
        · subst x
          simp [layout, assign, preempt, same, Layout.row, here, State.status]
        · have apart : running ≠ x := fun equal => displaced equal.symm
          simp [layout, assign, preempt, same, displaced, apart, Layout.row, here]
    · funext x
      by_cases same : x = b
      · subst x
        simp [layout, assign]
      · by_cases displaced : x = running
        · subst x
          simp [layout, assign, preempt, same]
        · simp [layout, assign, preempt, same, displaced]
    · funext j
      by_cases same : j = i
      · subst j
        simp [layout, assign, Layout.row]
      · simp [layout, assign, preempt, Layout.row, same]
  · rfl
  · rfl
  · intro x
    by_cases same : x = b
    · subst x
      simp only [assign, preempt, Function.update_self, Function.update_of_ne other]
      constructor <;> rfl
    · by_cases displaced : x = running
      · subst x
        simp only [assign, preempt, Function.update_of_ne same, Function.update_self]
        constructor <;> rfl
      · simp only [assign, preempt, Function.update_of_ne same, Function.update_of_ne displaced]
        exact .refl _

theorem offerAll_offers {key : Fin n → ℤ} (processors : 0 < c) (order : List (Fin n))
    {sim : Sim n c} (periods : ∀ x, (sim.processes x).period = key x) (positive : ∀ x, 1 ≤ key x) :
    Machine.Offers key order ((layout n c).machine sim) ((layout n c).machine (offerAll order sim)) ∧
      (offerAll order sim).currentTime = sim.currentTime ∧
      (offerAll order sim).completedCount = sim.completedCount ∧
      ∀ x, Unmoved (sim.processes x) ((offerAll order sim).processes x) := by
  induction order generalizing sim with
  | nil => exact ⟨.nil _, rfl, rfl, fun x => .refl _⟩
  | cons candidate rest ih =>
      have place : ∀ {i next}, Placing sim i candidate next →
          Machine.Offer key candidate ((layout n c).machine sim)
            (((layout n c).machine sim).put i candidate) →
          Machine.Offers key (candidate :: rest) ((layout n c).machine sim)
              ((layout n c).machine (offerAll rest next)) ∧
            (offerAll rest next).currentTime = sim.currentTime ∧
            (offerAll rest next).completedCount = sim.completedCount ∧
            ∀ x, Unmoved (sim.processes x) ((offerAll rest next).processes x) := by
        intro i next placing offer
        obtain ⟨offers, time, count, unmoved⟩ := @ih next (fun x => by
          rw [(placing.unmoved x).period, periods])
        rw [← placing.machine] at offer
        refine ⟨.cons offer offers, time.trans placing.time, count.trans placing.count, ?_⟩
        exact fun x => (placing.unmoved x).trans (unmoved x)
      rcases worstCpu_cases sim (List.finRange c) none
          (fun i x _ => by
            have one := positive x
            rw [periods]
            omega)
          (-1) (Or.inl ⟨rfl, rfl⟩) with
        ⟨i, found, idle⟩ | ⟨-, -, empty⟩ | ⟨i, x, found, here, -, longest⟩
      · simp only [offerAll, found, idle]
        exact place (assign_placing idle) (.idle idle)
      · have none : (⟨0, processors⟩ : Fin c) ∈ List.finRange c := List.mem_finRange _
        simp [empty] at none
      · have greatest : ∀ j, ∃ y, ((layout n c).machine sim).current j = some y ∧
            key y ≤ key x := by
          intro j
          obtain ⟨y, held, bound⟩ := longest j (List.mem_finRange j)
          rw [periods, periods] at bound
          exact ⟨y, held, bound⟩
        by_cases shorter : key candidate < key x
        · simp only [offerAll, found, here, periods, shorter, if_true]
          have other : candidate ≠ x := by
            intro same
            subst x
            omega
          exact place (preempt_placing here other) (.preempt here greatest shorter)
        · simp only [offerAll, found, here, periods, shorter, if_false]
          obtain ⟨offers, rest⟩ := ih periods
          exact ⟨.cons (.refuse ⟨i, here⟩ greatest (by omega)) offers, rest⟩

/-! ### The state in which a row is printed -/

/-- The processes are still those of the array that was handed over. -/
structure Descends (jobs : Fin n → Process) (sim : Sim n c) : Prop where
  arrival : ∀ x, (sim.processes x).arrivalTime = (jobs x).arrivalTime
  period : ∀ x, (sim.processes x).period = (jobs x).period

variable {jobs : Fin n → Process}

theorem fillAll_same (visits : List (Fin c))
    (conserving : ∀ i, (sim.cpus i).currentProcessId = none → ∀ x,
      ¬ ((sim.processes x).state = .ready ∧ (sim.processes x).arrivalTime ≤ sim.currentTime)) :
    visits.foldl fillOne sim = sim := by
  induction visits with
  | nil => rfl
  | cons i rest ih =>
      have same : fillOne sim i = sim := by
        cases here : (sim.cpus i).currentProcessId with
        | some x => simp only [fillOne, here]
        | none =>
            simp only [fillOne, here]
            split
            · rfl
            · rename_i best found
              have eligible := (scanLeast_some found).2.1
              simp only [Bool.and_eq_true, decide_eq_true_eq] at eligible
              exact absurd eligible (conserving i here best)
      rw [List.foldl_cons, same]
      exact ih

theorem offering {arrival : Fin n → ℤ} (arrivals : ∀ x, (sim.processes x).arrivalTime = arrival x)
    (placed : ((layout n c).machine sim).Placed fun x => arrival x ≤ sim.currentTime)
    (key : Fin n → ℤ) :
    Machine.Offering (fun x => arrival x ≤ sim.currentTime) key
      (insertionSort (fun p => (sim.processes p).period) (readyOrder sim))
      ((layout n c).machine sim) := by
  have same := insertionSort_perm (fun p => (sim.processes p).period) (readyOrder sim)
  have waits : ∀ x, x ∈ readyOrder sim ↔
      ((layout n c).machine sim).Waiting (fun x => arrival x ≤ sim.currentTime) x := by
    intro x
    rw [mem_readyOrder, arrivals]
    simp [Machine.Waiting, Layout.machine, layout]
  constructor
  · exact placed
  · exact same.nodup_iff.mpr (nodup_readyOrder sim)
  · intro y member
    exact (waits y).mp (same.mem_iff.mp member)
  · intro y waiting
    exact Or.inl (same.mem_iff.mpr ((waits y).mpr waiting))

theorem assignAll_dispatched (processors : 0 < c) (fresh : ∀ x, Fresh (jobs x))
    (descends : Descends jobs sim)
    (placed : ((layout n c).machine sim).Placed fun x => (jobs x).arrivalTime ≤ sim.currentTime) :
    ((layout n c).machine (assignAll sim)).Dispatched
        (fun x => (jobs x).arrivalTime ≤ sim.currentTime) (fun x => (jobs x).period) ∧
      (assignAll sim).currentTime = sim.currentTime ∧
      (assignAll sim).completedCount = sim.completedCount ∧
      (∀ x, Unmoved (sim.processes x) ((assignAll sim).processes x)) ∧
      ∀ x, ((assignAll sim).processes x).state = .finished ↔
        (sim.processes x).state = .finished := by
  obtain ⟨offers, time, count, unmoved⟩ := offerAll_offers processors
    (insertionSort (fun p => (sim.processes p).period) (readyOrder sim)) descends.period
    fun x => (fresh x).period
  have start := offering descends.arrival placed fun x => (jobs x).period
  have dispatched := offers.dispatched start
  have same : assignAll sim =
      offerAll (insertionSort (fun p => (sim.processes p).period) (readyOrder sim)) sim := by
    apply fillAll_same
    rintro i idle x ⟨ready, arrived⟩
    rw [(unmoved x).arrival, descends.arrival, time] at arrived
    refine dispatched.conserving i idle x ⟨?_, arrived⟩
    simpa [Layout.machine, layout] using ready
  rw [same]
  refine ⟨dispatched, time, count, unmoved, ?_⟩
  intro x
  have finished := offers.finished start x
  simpa [Layout.machine, layout] using finished

/-! ### The tick -/

def run (now : Int) (proc : Process) (cpu : Cpu n) : Process × Cpu n :=
  let remaining := proc.remainingTime - 1
  if remaining = 0 then
    ({ proc with remainingTime := remaining, state := .finished, completionTime := now + 1 },
      { cpu with currentProcessId := none })
  else
    ({ proc with remainingTime := remaining }, cpu)

theorem execute_run {i : Fin c} {x : Fin n} (here : (sim.cpus i).currentProcessId = some x) :
    (execute sim i).processes = Function.update sim.processes x
        (run sim.currentTime (sim.processes x) (sim.cpus i)).1 ∧
      (execute sim i).cpus = Function.update sim.cpus i
        (run sim.currentTime (sim.processes x) (sim.cpus i)).2 ∧
      (execute sim i).currentTime = sim.currentTime ∧
      (execute sim i).completedCount =
        sim.completedCount + if (sim.processes x).remainingTime - 1 = 0 then 1 else 0 := by
  by_cases last : (sim.processes x).remainingTime - 1 = 0
  · simp only [execute, here, run, last, if_true, and_self]
  · simp only [execute, here, run, last, if_false, add_zero, Function.update_eq_self, and_self]

theorem execute_idle {i : Fin c} (idle : (sim.cpus i).currentProcessId = none) :
    execute sim i = sim := by
  simp only [execute, idle]

theorem execute_serves (now : Int) :
    Serves (layout n c).tasks (layout n c).procs (layout n c).held (run now)
      (fun sim => (layout n c).clock sim = now) execute := by
  constructor
  · intro sim i idle
    exact execute_idle idle
  · intro sim i x same here
    rw [← same]
    exact (execute_run here).1
  · intro sim i x same here
    rw [← same]
    exact (execute_run here).2.1
  · intro sim i same
    cases here : (sim.cpus i).currentProcessId with
    | none => rw [execute_idle here, same]
    | some x => exact (execute_run here).2.2.1.trans same

theorem run_ran {now : Int} {proc : Process} {cpu : Cpu n} (running : proc.state = .running) :
    (layout n c).Ran now proc cpu (run now proc cpu).1 (run now proc cpu).2 := by
  by_cases last : proc.remainingTime - 1 = 0
  · simp only [run, last, if_true]
    constructor
    · rfl
    · exact last.symm
    · intro _
      exact ⟨rfl, rfl, rfl⟩
    · intro more
      simp only [layout] at more
      omega
  · simp only [run, last, if_false]
    constructor
    · rfl
    · rfl
    · intro one
      simp only [layout] at one
      omega
    · exact fun _ => ⟨rfl, Or.inl ⟨by simpa [layout] using running, rfl⟩⟩

theorem execute_descends (descends : Descends jobs sim) (visits : List (Fin c)) :
    Descends jobs (visits.foldl execute sim) := by
  induction visits generalizing sim with
  | nil => exact descends
  | cons i rest ih =>
      rw [List.foldl_cons]
      apply ih
      cases here : (sim.cpus i).currentProcessId with
      | none =>
          rw [execute_idle here]
          exact descends
      | some y =>
          have kept : ∀ x, ((execute sim i).processes x).arrivalTime =
              (sim.processes x).arrivalTime ∧
              ((execute sim i).processes x).period = (sim.processes x).period := by
            intro x
            rw [(execute_run here).1]
            by_cases same : x = y
            · subst x
              rw [Function.update_self, run]
              split <;> exact ⟨rfl, rfl⟩
            · rw [Function.update_of_ne same]
              exact ⟨rfl, rfl⟩
          constructor
          · intro x
            rw [(kept x).1, descends.arrival]
          · intro x
            rw [(kept x).2, descends.period]

theorem rounds (processors : 0 < c) (fresh : ∀ x, Fresh (jobs x)) :
    (layout n c).Rounds (fun x => (jobs x).arrivalTime) assignAll execute tick run
      (Descends jobs) := by
  constructor
  · intro sim steady descends
    exact (assignAll_dispatched processors fresh descends steady.placed).1.placed
  · intro sim steady descends
    exact (assignAll_dispatched processors fresh descends steady.placed).1.conserving
  · intro sim steady descends
    obtain ⟨-, time, count, unmoved, finished⟩ :=
      assignAll_dispatched processors fresh descends steady.placed
    constructor
    · exact time
    · exact count
    · exact fun x => (unmoved x).remaining
    · exact fun x => (unmoved x).completion
    · intro x
      simpa [layout] using finished x
  · exact execute_serves
  · intro sim i idle
    exact congrArg Sim.completedCount (execute_idle idle)
  · intro now sim i x same here alive
    have count := (execute_run here).2.2.2
    simp only [layout, State.status_finished, ne_eq] at alive ⊢
    rw [count]
    by_cases last : (sim.processes x).remainingTime - 1 = 0
    · simp [run, last]
    · simp [run, last, alive]
  · intro now p cpu running
    exact run_ran (by simpa [layout] using running)
  · exact fun _ => rfl
  · exact fun _ => rfl
  · exact fun _ => rfl
  · exact fun _ => rfl
  · intro sim steady descends
    have unmoved := (assignAll_dispatched processors fresh descends steady.placed).2.2.2.1
    have before : Descends jobs (assignAll sim) := by
      constructor
      · intro x
        rw [(unmoved x).arrival, descends.arrival]
      · intro x
        rw [(unmoved x).period, descends.period]
    have after := execute_descends before (List.finRange c)
    exact ⟨after.arrival, after.period⟩

theorem start_descends (c : ℕ) (jobs : Fin n → Process) : Descends jobs (start c jobs) := by
  constructor <;> exact fun _ => rfl

theorem start_steady (c : ℕ) (fresh : ∀ x, Fresh (jobs x)) :
    (layout n c).Steady (fun x => (jobs x).arrivalTime) (start c jobs) := by
  have ready := fun x => (fresh x).ready
  constructor
  · exact le_refl _
  · constructor
    · intro i x here
      simp [Layout.machine, Layout.row, layout, start] at here
    · intro x running
      simp [Layout.machine, layout, start, ready x] at running
  · intro x _
    have burst := (fresh x).burst
    simp only [layout, start]
    rw [(fresh x).remaining]
    exact burst
  · simp [layout, start, ready]

/-! ### The rows -/

/-- The state in which the row of tick `now` is printed. -/
structure Dispatched (now : ℕ) (sim : Sim n c) : Prop where
  time : sim.currentTime = now
  once : ∀ i j x, (sim.cpus i).currentProcessId = some x →
    (sim.cpus j).currentProcessId = some x → i = j
  running : ∀ x, (sim.processes x).state = .running ↔
    ∃ i, (sim.cpus i).currentProcessId = some x
  idle : ∀ i, (sim.cpus i).currentProcessId = none →
    ∀ x, (sim.processes x).state = .ready → now < (sim.processes x).arrivalTime
  urgent : ∀ x y, (sim.processes x).state = .running → (sim.processes y).state = .ready →
    (sim.processes y).arrivalTime ≤ now → (sim.processes x).period ≤ (sim.processes y).period

theorem row_dispatched (processors : 0 < c) (fresh : ∀ x, Fresh (jobs x)) (t : ℕ) :
    Dispatched t (assignAll (tick^[t] (start c jobs))) := by
  obtain ⟨steady, descends, time⟩ := (rounds processors fresh).holds (start_steady c fresh) rfl
    (start_descends c jobs) t
  obtain ⟨dispatched, same, -, unmoved, -⟩ :=
    assignAll_dispatched processors fresh descends steady.placed
  have now : (assignAll (tick^[t] (start c jobs))).currentTime = t := same.trans time
  have arrival : ∀ x, ((assignAll (tick^[t] (start c jobs))).processes x).arrivalTime =
      (jobs x).arrivalTime := by
    intro x
    rw [(unmoved x).arrival, descends.arrival]
  have period : ∀ x, ((assignAll (tick^[t] (start c jobs))).processes x).period =
      (jobs x).period := by
    intro x
    rw [(unmoved x).period, descends.period]
  have clock : (tick^[t] (start c jobs)).currentTime = t := time
  have placed := dispatched.placed
  constructor
  · exact now
  · intro i j x first second
    exact placed.once first second
  · intro x
    constructor
    · intro running
      exact placed.held x (by simpa [Layout.machine, layout] using running)
    · rintro ⟨i, here⟩
      simpa [Layout.machine, layout] using (placed.busy i x here).1
  · intro i idle x ready
    by_contra early
    refine dispatched.conserving i idle x ⟨?_, ?_⟩
    · simpa [Layout.machine, layout] using ready
    · rw [arrival] at early
      omega
  · intro x y running ready arrived
    rw [period, period]
    apply dispatched.urgent x y
    · simpa [Layout.machine, layout] using running
    · refine ⟨by simpa [Layout.machine, layout] using ready, ?_⟩
      rw [arrival] at arrived
      omega

/-- At every tick the CPUs run the tasks with the shortest periods, and the run ends with each
task having had its burst. -/
theorem periods_dispatched (jobs : Fin n → Process) (fresh : ∀ x, Fresh (jobs x))
    (nonneg : ∀ x, 0 ≤ (jobs x).arrivalTime) (processors : 0 < c) :
    (∀ t, Dispatched t (assignAll (tick^[t] (start c jobs)))) ∧
      ∃ fuel ticks, runRms fuel jobs c = some (tick^[ticks] (start c jobs)).processes ∧
        ∀ x, ((tick^[ticks] (start c jobs)).processes x).state = .finished ∧
          (((Finset.range ticks).filter fun t => ∃ i,
            ((assignAll (tick^[t] (start c jobs))).cpus i).currentProcessId = some x).card : ℤ) =
              (jobs x).burstTime := by
  refine ⟨row_dispatched processors fresh, ?_⟩
  have steady := start_steady c fresh
  have schedule := (rounds processors fresh).schedule steady rfl (start_descends c jobs) nonneg
    (fun x => (fresh x).burst) (fun x => by simpa [layout, start] using (fresh x).ready)
    (fun x => (fresh x).remaining)
  obtain ⟨fuel, ticks, ended, finished⟩ := (rounds processors fresh).ends steady rfl
    (start_descends c jobs) schedule (Fintype.card_fin n) processors
  refine ⟨fuel, ticks, congrArg (Option.map Sim.processes) ended, ?_⟩
  intro x
  have past := finished x
  refine ⟨by simpa [layout] using past, ?_⟩
  rw [← (schedule.accounted past).served]
  congr 2
  apply Finset.filter_congr
  intro t _
  exact ((schedule.cycle t).running x).symm

def firstRows : Fin 3 → Process := ![
  { id := 1, arrivalTime := 0, burstTime := 8, remainingTime := 8, period := 20, tickets := 10,
    priorityLevel := 0, state := .ready, completionTime := 0, startTime := -1, cpuId := -1 },
  { id := 2, arrivalTime := 1, burstTime := 25, remainingTime := 25, period := 80, tickets := 5,
    priorityLevel := 0, state := .ready, completionTime := 0, startTime := -1, cpuId := -1 },
  { id := 3, arrivalTime := 2, burstTime := 3, remainingTime := 3, period := 10, tickets := 20,
    priorityLevel := 0, state := .ready, completionTime := 0, startTime := -1, cpuId := -1 }]

theorem periods_dispatched_firstRows :
    (∀ t, Dispatched t (assignAll (tick^[t] (start 2 firstRows)))) ∧
      ∃ fuel ticks, runRms fuel firstRows 2 = some (tick^[ticks] (start 2 firstRows)).processes ∧
        ∀ x, ((tick^[ticks] (start 2 firstRows)).processes x).state = .finished ∧
          (((Finset.range ticks).filter fun t => ∃ i,
            ((assignAll (tick^[t] (start 2 firstRows))).cpus i).currentProcessId =
              some x).card : ℤ) = (firstRows x).burstTime := by
  refine periods_dispatched firstRows ?_ (by decide) (by decide)
  intro x
  fin_cases x <;> constructor <;> decide

end Rms

end OsLab.Ayush
