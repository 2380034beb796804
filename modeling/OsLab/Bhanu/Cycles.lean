import OsLab.Bhanu.Dispatch
import OsLab.Library.Rounds

/-!
The cycles of `run_edf` and `run_mlfq`: after the assignment loop each CPU runs its
process, and the values the two report add up for every number of CPUs.
-/

namespace OsLab.Bhanu

open OsLab.Library
open Edf (Sim)

variable {np cpus : ℕ}

def layout (np cpus : ℕ) : Layout (Sim np cpus) (Fin np) Process (Cpu np) cpus where
  tasks := Sim.p
  procs := Sim.cpu
  clock := Sim.cycle
  done := Sim.finished
  held := Cpu.currentProcessId
  status p := p.state.status
  home := Process.cpuId
  left := Process.remainingTime
  completion := Process.completionTime

structure Carried (before after : Process) : Prop where
  arrival : after.arrivalTime = before.arrivalTime
  burst : after.burstTime = before.burstTime
  deadline : after.deadline = before.deadline
  start : after.startTime = before.startTime

theorem Carried.trans {first second third : Process} (left : Carried first second)
    (right : Carried second third) : Carried first third where
  arrival := right.arrival.trans left.arrival
  burst := right.burst.trans left.burst
  deadline := right.deadline.trans left.deadline
  start := right.start.trans left.start

theorem carried_foldl {execute : Sim np cpus → Fin cpus → Sim np cpus}
    {run : Process → Cpu np → Process × Cpu np} {now : Int}
    (serves : Serves Sim.p Sim.cpu Cpu.currentProcessId run (fun sim => sim.cycle = now) execute)
    (carries : ∀ p c, Carried p (run p c).1) (visits : List (Fin cpus)) {s : Sim np cpus}
    (same : s.cycle = now) (x : Fin np) : Carried (s.p x) ((visits.foldl execute s).p x) := by
  induction visits generalizing s with
  | nil => constructor <;> rfl
  | cons i rest ih =>
      apply Carried.trans _ (ih (serves.kept s i same))
      cases here : (s.cpu i).currentProcessId with
      | none =>
          rw [serves.idle s i here]
          constructor <;> rfl
      | some y =>
          rw [serves.task s i y same here]
          by_cases equal : x = y
          · subst x
            rw [Function.update_self]
            exact carries _ _
          · rw [Function.update_of_ne equal]
            constructor <;> rfl

/-- The processes are still those of the array that was handed over. -/
structure Descends (jobs : Fin np → Process) (sim : Sim np cpus) : Prop where
  arrival : ∀ x, (sim.p x).arrivalTime = (jobs x).arrivalTime
  burst : ∀ x, (sim.p x).burstTime = (jobs x).burstTime
  deadline : ∀ x, (sim.p x).deadline = (jobs x).deadline

structure Steady (jobs : Fin np → Process) (sim : Sim np cpus) : Prop extends Descends jobs sim where
  core : (layout np cpus).Steady (fun x => (jobs x).arrivalTime) sim

theorem Steady.placed {jobs : Fin np → Process} {sim : Sim np cpus} (steady : Steady jobs sim) :
    (machine sim).Placed (Arrived jobs sim.cycle) :=
  steady.core.placed

theorem Steady.nonneg {jobs : Fin np → Process} {sim : Sim np cpus} (steady : Steady jobs sim) :
    0 ≤ sim.cycle :=
  steady.core.nonneg

structure Prepared (sim after : Sim np cpus) : Prop where
  machine : machine after = machine sim
  cycle : after.cycle = sim.cycle
  finished : after.finished = sim.finished
  arrival : ∀ x, (after.p x).arrivalTime = (sim.p x).arrivalTime
  burst : ∀ x, (after.p x).burstTime = (sim.p x).burstTime
  remaining : ∀ x, (after.p x).remainingTime = (sim.p x).remainingTime
  deadline : ∀ x, (after.p x).deadline = (sim.p x).deadline
  completion : ∀ x, (after.p x).completionTime = (sim.p x).completionTime
  start : ∀ x, (after.p x).startTime = (sim.p x).startTime

theorem Prepared.state {sim after : Sim np cpus} (prepared : Prepared sim after) (x : Fin np) :
    (after.p x).state = (sim.p x).state := by
  have same := congrFun (congrArg Machine.status prepared.machine) x
  simp only [Bhanu.machine] at same
  cases first : (after.p x).state <;> cases second : (sim.p x).state <;>
    simp [first, second, State.status] at same ⊢

def next (assign : Sim np cpus → Sim np cpus) (execute : Sim np cpus → Fin cpus → Sim np cpus)
    (sim : Sim np cpus) : Sim np cpus :=
  let executed := (List.finRange cpus).foldl execute (assign sim)
  { executed with cycle := executed.cycle + 1 }

/-- A simulator made of a preparation, the assignment loop and the loop that advances the clock;
`key` orders the waiting processes and `inv` is what the simulator adds to `Steady`. -/
structure Simulates (jobs : Fin np → Process) (prepare assign : Sim np cpus → Sim np cpus)
    (execute : Sim np cpus → Fin cpus → Sim np cpus)
    (run : Int → Process → Cpu np → Process × Cpu np) (key : Sim np cpus → Fin np → ℤ)
    (inv : Sim np cpus → Prop) : Prop where
  prepared : ∀ sim, Prepared sim (prepare sim)
  visits : ∀ sim, Steady jobs sim → inv sim →
    Visits (Arrived jobs sim.cycle) (key (prepare sim)) (List.finRange cpus) (prepare sim)
      (assign sim)
  serves : ∀ now, Serves Sim.p Sim.cpu Cpu.currentProcessId (run now)
    (fun sim => sim.cycle = now) execute
  idle : ∀ sim i, (sim.cpu i).currentProcessId = none → (execute sim i).finished = sim.finished
  counts : ∀ now sim i x, sim.cycle = now → (sim.cpu i).currentProcessId = some x →
    (sim.p x).state ≠ .finished → (execute sim i).finished = sim.finished +
      if (run now (sim.p x) (sim.cpu i)).1.state = .finished then 1 else 0
  carries : ∀ now p c, Carried p (run now p c).1
  ran : ∀ now p c, p.state = .running →
    (layout np cpus).Ran now p c (run now p c).1 (run now p c).2
  kept : ∀ sim, Steady jobs sim → inv sim → inv (next assign execute sim)

namespace Simulates

variable {jobs : Fin np → Process} {prepare assign : Sim np cpus → Sim np cpus}
  {execute : Sim np cpus → Fin cpus → Sim np cpus}
  {run : Int → Process → Cpu np → Process × Cpu np} {key : Sim np cpus → Fin np → ℤ}
  {inv : Sim np cpus → Prop} {sim : Sim np cpus}

theorem dispatched (simulates : Simulates jobs prepare assign execute run key inv)
    (steady : Steady jobs sim) (holds : inv sim) :
    (machine (assign sim)).Dispatched (Arrived jobs sim.cycle) (key (prepare sim)) := by
  apply (simulates.visits sim steady holds).pass.dispatched
  rw [(simulates.prepared sim).machine]
  exact steady.placed

theorem assign_cycle (simulates : Simulates jobs prepare assign execute run key inv)
    (steady : Steady jobs sim) (holds : inv sim) : (assign sim).cycle = sim.cycle := by
  rw [(simulates.visits sim steady holds).unmoved.1, (simulates.prepared sim).cycle]

theorem assign_finished (simulates : Simulates jobs prepare assign execute run key inv)
    (steady : Steady jobs sim) (holds : inv sim) (x : Fin np) :
    ((assign sim).p x).state = .finished ↔ (sim.p x).state = .finished := by
  have placed := steady.placed
  rw [← (simulates.prepared sim).machine] at placed
  have same := (simulates.visits sim steady holds).pass.finished placed x
  rw [(simulates.prepared sim).machine] at same
  simpa [machine] using same

theorem next_carried (simulates : Simulates jobs prepare assign execute run key inv)
    (steady : Steady jobs sim) (holds : inv sim) (x : Fin np) :
    Carried ((assign sim).p x) ((next assign execute sim).p x) := by
  exact carried_foldl (simulates.serves sim.cycle) (simulates.carries sim.cycle) _
    (simulates.assign_cycle steady holds) x

theorem assign_descends (simulates : Simulates jobs prepare assign execute run key inv)
    (steady : Steady jobs sim) (holds : inv sim) : Descends jobs (assign sim) := by
  have prepared := simulates.prepared sim
  have same := (simulates.visits sim steady holds).unmoved.2.2
  constructor
  · intro x
    rw [(same x).arrival, prepared.arrival, steady.arrival]
  · intro x
    rw [(same x).burst, prepared.burst, steady.burst]
  · intro x
    rw [(same x).deadline, prepared.deadline, steady.deadline]

theorem next_descends (simulates : Simulates jobs prepare assign execute run key inv)
    (steady : Steady jobs sim) (holds : inv sim) : Descends jobs (next assign execute sim) := by
  have before := simulates.assign_descends steady holds
  have carried := simulates.next_carried steady holds
  constructor
  · intro x
    rw [(carried x).arrival, before.arrival]
  · intro x
    rw [(carried x).burst, before.burst]
  · intro x
    rw [(carried x).deadline, before.deadline]

theorem rounds (simulates : Simulates jobs prepare assign execute run key inv) :
    (layout np cpus).Rounds (fun x => (jobs x).arrivalTime) assign execute (next assign execute) run
      fun sim => inv sim ∧ Descends jobs sim := by
  constructor
  · intro sim core more
    exact (simulates.dispatched ⟨more.2, core⟩ more.1).placed
  · intro sim core more
    exact (simulates.dispatched ⟨more.2, core⟩ more.1).conserving
  · intro sim core more
    have steady : Steady jobs sim := ⟨more.2, core⟩
    have prepared := simulates.prepared sim
    have same := (simulates.visits sim steady more.1).unmoved
    constructor
    · exact simulates.assign_cycle steady more.1
    · exact same.2.1.trans prepared.finished
    · exact fun x => (same.2.2 x).remaining.trans (prepared.remaining x)
    · exact fun x => (same.2.2 x).completion.trans (prepared.completion x)
    · intro x
      simpa [layout] using simulates.assign_finished steady more.1 x
  · exact simulates.serves
  · exact simulates.idle
  · intro now sim i x same here alive
    have counts := simulates.counts now sim i x same here (by simpa [layout] using alive)
    simpa [layout] using counts
  · intro now p c running
    exact simulates.ran now p c (by simpa [layout] using running)
  · exact fun _ => rfl
  · exact fun _ => rfl
  · exact fun _ => rfl
  · exact fun _ => rfl
  · intro sim core more
    have steady : Steady jobs sim := ⟨more.2, core⟩
    exact ⟨simulates.kept sim steady more.1, simulates.next_descends steady more.1⟩

theorem next_run (simulates : Simulates jobs prepare assign execute run key inv)
    (steady : Steady jobs sim) (holds : inv sim) {i : Fin cpus} {x : Fin np}
    (here : row (assign sim) i = some x) :
    (next assign execute sim).p x =
        (run sim.cycle ((assign sim).p x) ((assign sim).cpu i)).1 ∧
      (next assign execute sim).cpu i =
        (run sim.cycle ((assign sim).p x) ((assign sim).cpu i)).2 :=
  simulates.rounds.next_run steady.core ⟨holds, steady.toDescends⟩ here

theorem next_other (simulates : Simulates jobs prepare assign execute run key inv)
    (steady : Steady jobs sim) (holds : inv sim) {x : Fin np}
    (absent : ∀ i, row (assign sim) i ≠ some x) :
    (next assign execute sim).p x = (assign sim).p x :=
  simulates.rounds.next_other steady.core ⟨holds, steady.toDescends⟩ absent

theorem next_idle (simulates : Simulates jobs prepare assign execute run key inv)
    (steady : Steady jobs sim) (holds : inv sim) {i : Fin cpus}
    (idle : row (assign sim) i = none) : row (next assign execute sim) i = none :=
  simulates.rounds.next_idle steady.core ⟨holds, steady.toDescends⟩ idle

end Simulates

/-! ### Whole runs -/

structure Begins (jobs : Fin np → Process) (sim : Sim np cpus) : Prop where
  cycle : sim.cycle = 0
  finished : sim.finished = 0
  row : ∀ i, row sim i = none
  process : ∀ x, sim.p x = { jobs x with priorityLevel := (sim.p x).priorityLevel }

theorem Begins.ready {jobs : Fin np → Process} {sim : Sim np cpus} (begins : Begins jobs sim)
    (fresh : ∀ x, Fresh (jobs x)) (x : Fin np) : (sim.p x).state = .ready := by
  rw [begins.process x]
  exact (fresh x).ready

theorem Begins.remaining {jobs : Fin np → Process} {sim : Sim np cpus} (begins : Begins jobs sim)
    (fresh : ∀ x, Fresh (jobs x)) (x : Fin np) : (sim.p x).remainingTime = (jobs x).burstTime := by
  rw [begins.process x]
  exact (fresh x).remaining

theorem Begins.steady {jobs : Fin np → Process} {sim : Sim np cpus} (begins : Begins jobs sim)
    (fresh : ∀ x, Fresh (jobs x)) : Steady jobs sim := by
  have ready := begins.ready fresh
  constructor
  · constructor
    all_goals
      intro x
      rw [begins.process x]
  · constructor
    · exact le_of_eq begins.cycle.symm
    · constructor
      · intro i x here
        have none : ((layout np cpus).machine sim).current i = .none := begins.row i
        rw [none] at here
        simp at here
      · intro x running
        simp [Layout.machine, layout, ready x, State.status] at running
    · intro x _
      have burst := (fresh x).burst
      simp only [layout]
      rw [begins.remaining fresh x]
      exact burst
    · simp [layout, begins.finished, ready]

/-- The state in which the row of cycle `now` is printed, with `key` the priority of a process. -/
structure Dispatched (key : Process → ℤ) (now : ℕ) (sim : Sim np cpus) : Prop where
  cycle : sim.cycle = now
  running : ∀ x, (sim.p x).state = .running → ∃ i, (sim.cpu i).currentProcessId = some x ∧
    (sim.p x).cpuId = i ∧ ∀ j, (sim.cpu j).currentProcessId = some x → j = i
  current : ∀ i x, (sim.cpu i).currentProcessId = some x →
    (sim.p x).state = .running ∧ (sim.p x).arrivalTime ≤ now
  idle : ∀ i, (sim.cpu i).currentProcessId = none →
    ∀ x, (sim.p x).state = .ready → now < (sim.p x).arrivalTime
  urgent : ∀ x y, (sim.p x).state = .running → (sim.p y).state = .ready →
    (sim.p y).arrivalTime ≤ now → key (sim.p x) ≤ key (sim.p y)

def executed (assigned : ℕ → Sim np cpus) (x : Fin np) (T : ℕ) : Finset ℕ :=
  (Finset.range T).filter fun t => ∃ i, row (assigned t) i = some x

/-- The cycles before `T`, from its arrival to its completion, in which it is READY without one. -/
def delayed (jobs : Fin np → Process) (assigned : ℕ → Sim np cpus) (p : Fin np → Process)
    (x : Fin np) (T : ℕ) : Finset ℕ :=
  (Finset.range T).filter fun t => (jobs x).arrivalTime ≤ t ∧ (t : ℤ) < (p x).completionTime ∧
    ((assigned t).p x).state = .ready ∧ ∀ i, row (assigned t) i ≠ some x

/-- What the table printed after `T` cycles reports; `assigned t` is the state in which the row of
cycle `t` is printed. -/
structure Reported (jobs : Fin np → Process) (assigned : ℕ → Sim np cpus) (T : ℕ)
    (p : Fin np → Process) : Prop where
  finished : ∀ x, (p x).state = .finished
  arrival : ∀ x, (p x).arrivalTime = (jobs x).arrivalTime
  burst : ∀ x, (p x).burstTime = (jobs x).burstTime
  executes : ∀ x, ((executed assigned x T).card : ℤ) = (jobs x).burstTime
  arrived : ∀ t i x, row (assigned t) i = some x → (jobs x).arrivalTime ≤ t
  once : ∀ t i j x, row (assigned t) i = some x → row (assigned t) j = some x → i = j
  start : ∀ x, ∃ first ∈ executed assigned x T, (p x).startTime = first ∧
    ∀ t ∈ executed assigned x T, first ≤ t
  completion : ∀ x, (jobs x).arrivalTime ≤ (p x).completionTime ∧ (p x).completionTime ≤ T
  waiting : ∀ x, (p x).completionTime - (p x).arrivalTime - (p x).burstTime =
    (delayed jobs assigned p x T).card

namespace Simulates

variable {jobs : Fin np → Process} {prepare assign : Sim np cpus → Sim np cpus}
  {execute : Sim np cpus → Fin cpus → Sim np cpus}
  {run : Int → Process → Cpu np → Process × Cpu np} {key : Sim np cpus → Fin np → ℤ}
  {inv : Sim np cpus → Prop} {first : Sim np cpus}

theorem holds (simulates : Simulates jobs prepare assign execute run key inv)
    (fresh : ∀ x, Fresh (jobs x)) (begins : Begins jobs first) (holds : inv first) (t : ℕ) :
    Steady jobs ((next assign execute)^[t] first) ∧ inv ((next assign execute)^[t] first) ∧
      ((next assign execute)^[t] first).cycle = t := by
  have steady := begins.steady fresh
  obtain ⟨core, more, cycle⟩ :=
    simulates.rounds.holds steady.core begins.cycle ⟨holds, steady.toDescends⟩ t
  exact ⟨⟨more.2, core⟩, more.1, cycle⟩

/-- The states in which rows are printed, when the key is one that assignments leave alone. -/
theorem assigned {rank : Process → ℤ}
    (simulates : Simulates jobs prepare assign execute run (fun sim x => rank (sim.p x)) inv)
    (unmoved : ∀ p p', Unmoved p p' → rank p' = rank p)
    (fresh : ∀ x, Fresh (jobs x)) (begins : Begins jobs first) (holds : inv first) (t : ℕ) :
    Dispatched rank t (assign ((next assign execute)^[t] first)) := by
  obtain ⟨steady, holds, cycle⟩ := simulates.holds fresh begins holds t
  have dispatched := simulates.dispatched steady holds
  have placed := dispatched.placed
  have same := (simulates.visits _ steady holds).unmoved.2.2
  have arrival := (simulates.assign_descends steady holds).arrival
  have waiting : ∀ x, ((assign ((next assign execute)^[t] first)).p x).state = .ready →
      ((assign ((next assign execute)^[t] first)).p x).arrivalTime ≤ t →
      (machine (assign ((next assign execute)^[t] first))).Waiting
        (Arrived jobs ((next assign execute)^[t] first).cycle) x := by
    intro x ready arrived
    constructor
    · simpa [machine] using ready
    · rw [Arrived, cycle, ← arrival]
      exact arrived
  constructor
  · rw [simulates.assign_cycle steady holds, cycle]
  · intro x running
    obtain ⟨i, here⟩ := placed.held x (by simpa [machine] using running)
    refine ⟨i, here, (placed.busy i x here).2.1, ?_⟩
    intro j twice
    exact placed.once twice here
  · intro i x here
    obtain ⟨running, -, arrived⟩ := placed.busy i x here
    rw [Arrived, cycle, ← arrival] at arrived
    exact ⟨by simpa [machine] using running, arrived⟩
  · intro i idle x ready
    by_contra early
    exact dispatched.conserving i idle x (waiting x ready (by omega))
  · intro x y running ready arrived
    rw [unmoved _ _ (same x), unmoved _ _ (same y)]
    exact dispatched.urgent x y (by simpa [machine] using running) (waiting y ready arrived)

theorem running_card (simulates : Simulates jobs prepare assign execute run key inv)
    (fresh : ∀ x, Fresh (jobs x)) (begins : Begins jobs first) (holds : inv first) (t : ℕ) :
    (Finset.univ.filter fun x =>
        ((assign ((next assign execute)^[t] first)).p x).state = .running).card =
      min cpus (Finset.univ.filter fun x =>
        ((assign ((next assign execute)^[t] first)).p x).arrivalTime ≤ t ∧
          ((assign ((next assign execute)^[t] first)).p x).state ≠ .finished).card := by
  obtain ⟨steady, holds, cycle⟩ := simulates.holds fresh begins holds t
  have arrival := (simulates.assign_descends steady holds).arrival
  have count := (simulates.dispatched steady holds).card_running
  simp only [machine, State.status_running, State.status_finished, ne_eq, Arrived, cycle] at count
  simp only [arrival]
  exact count

theorem schedule (simulates : Simulates jobs prepare assign execute run key inv)
    (fresh : ∀ x, Fresh (jobs x)) (nonneg : ∀ x, 0 ≤ (jobs x).arrivalTime)
    (begins : Begins jobs first) (holds : inv first) :
    Schedule (fun x => (jobs x).arrivalTime) (fun x => (jobs x).burstTime)
      (fun t => book ((next assign execute)^[t] first))
      (fun t => row (assign ((next assign execute)^[t] first)))
      (fun t x => ((assign ((next assign execute)^[t] first)).p x).state.status) := by
  have steady := begins.steady fresh
  apply simulates.rounds.schedule steady.core begins.cycle ⟨holds, steady.toDescends⟩ nonneg
  · exact fun x => (fresh x).burst
  · intro x
    simpa [layout] using begins.ready fresh x
  · exact begins.remaining fresh

theorem started (simulates : Simulates jobs prepare assign execute run key inv)
    (fresh : ∀ x, Fresh (jobs x)) (begins : Begins jobs first) (holds : inv first) (t : ℕ) :
    Started ((next assign execute)^[t] first) := by
  induction t with
  | zero =>
      intro x running
      rw [Function.iterate_zero, id_eq, begins.process x] at running
      rw [(fresh x).ready] at running
      simp at running
  | succ t ih =>
      obtain ⟨steady, holds, -⟩ := simulates.holds fresh begins holds t
      have prepared := simulates.prepared ((next assign execute)^[t] first)
      have before : Started (prepare ((next assign execute)^[t] first)) := by
        intro x running
        rw [prepared.state x] at running
        rw [prepared.start x]
        exact ih x running
      have middle := (simulates.visits _ steady holds).started
        (by rw [prepared.cycle]; exact steady.nonneg) before
      intro x running
      rw [Function.iterate_succ_apply'] at running ⊢
      rw [(simulates.next_carried steady holds x).start]
      apply middle
      -- who has no CPU does not come to run in the cycle
      rcases simulates.rounds.next_cases steady.core ⟨holds, steady.toDescends⟩ x with
        ⟨i, -, busy, -⟩ | ⟨-, -, same⟩
      · simpa [layout] using busy
      · simp only [layout] at same
        rwa [same] at running

theorem starts (simulates : Simulates jobs prepare assign execute run key inv)
    (fresh : ∀ x, Fresh (jobs x)) (unstarted : ∀ x, (jobs x).startTime = -1)
    (begins : Begins jobs first) (holds : inv first) :
    Schedule.Starts (fun t x => (((next assign execute)^[t] first).p x).startTime)
      (fun t x => ((assign ((next assign execute)^[t] first)).p x).state.status) := by
  constructor
  · intro x
    simp only [Function.iterate_zero, id_eq]
    rw [begins.process x]
    exact unstarted x
  · intro t x
    obtain ⟨steady, inside, cycle⟩ := simulates.holds fresh begins holds t
    have prepared := simulates.prepared ((next assign execute)^[t] first)
    have started := simulates.started fresh begins holds t
    have placed := steady.placed
    rw [← prepared.machine] at placed
    have set := (simulates.visits _ steady inside).start
      (by rw [prepared.cycle]; exact steady.nonneg)
      (by
        intro y running
        rw [prepared.state y] at running
        rw [prepared.start y]
        exact started y running)
      placed x
    rw [prepared.start x, prepared.cycle, cycle] at set
    simp only [State.status_running]
    rw [Function.iterate_succ_apply', ← set]
    exact (simulates.next_carried steady inside x).start

theorem reported (simulates : Simulates jobs prepare assign execute run key inv)
    (fresh : ∀ x, Fresh (jobs x)) (nonneg : ∀ x, 0 ≤ (jobs x).arrivalTime)
    (unstarted : ∀ x, (jobs x).startTime = -1)
    (begins : Begins jobs first) (holds : inv first) (processors : 0 < cpus) :
    ∃ fuel rounds, whileLoop (fun sim : Sim np cpus => sim.finished < np)
        (next assign execute) fuel first = some ((next assign execute)^[rounds] first) ∧
      Reported jobs (fun t => assign ((next assign execute)^[t] first)) rounds
        ((next assign execute)^[rounds] first).p := by
  have schedule := simulates.schedule fresh nonneg begins holds
  have starts := simulates.starts fresh unstarted begins holds
  have begin := begins.steady fresh
  obtain ⟨fuel, rounds, ended, finished⟩ := simulates.rounds.ends begin.core begins.cycle
    ⟨holds, begin.toDescends⟩ schedule (Fintype.card_fin np) processors
  have past : ∀ x, (((next assign execute)^[rounds] first).p x).state = .finished := by
    intro x
    simpa [layout] using finished x
  have steady := (simulates.holds fresh begins holds rounds).1
  have same : ∀ x, executed (fun t => assign ((next assign execute)^[t] first)) x rounds =
      Schedule.served
        (fun t x => ((assign ((next assign execute)^[t] first)).p x).state.status) x rounds := by
    intro x
    apply Finset.filter_congr
    intro t _
    exact ((schedule.cycle t).running x).symm
  have accounted := fun x => schedule.accounted (State.status_finished.mpr (past x))
  refine ⟨fuel, rounds, ended, ?_⟩
  constructor
  · exact past
  · exact steady.arrival
  · exact steady.burst
  · intro x
    rw [same x]
    exact (accounted x).served
  · exact fun t i x => (schedule.cycle t).arrived i x
  · exact fun t i j x => (schedule.cycle t).once i j x
  · intro x
    rw [same x]
    rcases starts.first rounds x with ⟨none, -⟩ | ⟨start, value, member, least⟩
    · have total := (accounted x).served
      have burst := (fresh x).burst
      rw [none, Finset.card_empty] at total
      omega
    · exact ⟨start, member, value, least⟩
  · intro x
    obtain ⟨c, value, bound, total, -⟩ :=
      (schedule.kept_all rounds x).completed (State.status_finished.mpr (past x))
    have burst := (fresh x).burst
    simp only [book] at value
    omega
  · intro x
    rw [steady.arrival, steady.burst]
    apply (accounted x).waiting.trans
    congr 1
    apply congrArg
    apply Finset.filter_congr
    intro t _
    simp only [State.status_ready]
    constructor
    · rintro ⟨arrived, before, ready⟩
      refine ⟨arrived, before, ready, ?_⟩
      intro i here
      have running := ((schedule.cycle t).running x).mpr ⟨i, here⟩
      rw [State.status_running, ready] at running
      simp at running
    · rintro ⟨arrived, before, ready, -⟩
      exact ⟨arrived, before, ready⟩

end Simulates

end OsLab.Bhanu
