import OsLab.Aryan.Types
import OsLab.Library.Filling
import OsLab.Library.Selective
import OsLab.Library.Selection

/-!
What the three simulators of `Aryan/src/algorithms.c` share: an idle CPU takes a waiting process
that is selected for it, then each CPU runs the process it has for one tick.
-/

namespace OsLab.Aryan

open OsLab.Library

/-- `processes[]`, `cpus[]` and the two counters. -/
structure Sim (np ncpus : ℕ) where
  processes : Fin np → Process
  cpus : Fin ncpus → Cpu np
  currentTime : Int
  completedCount : Int

variable {np ncpus : ℕ}

def start (ncpus : ℕ) (processes : Fin np → Process) : Sim np ncpus where
  processes := processes
  cpus i := { id := i, currentProcessId := none, timeQuantumLeft := 0 }
  currentTime := 0
  completedCount := 0

def dispatch (sim : Sim np ncpus) (i : Fin ncpus) (p : Fin np) (quantum : Int) : Sim np ncpus :=
  { sim with
    cpus := Function.update sim.cpus i { sim.cpus i with
      currentProcessId := some p
      timeQuantumLeft := quantum }
    processes := Function.update sim.processes p { sim.processes p with
      state := .running
      cpuId := i
      startTime := if (sim.processes p).startTime = -1 then sim.currentTime
        else (sim.processes p).startTime } }

def assignIdle (select : (Fin np → Process) → Int → Option (Fin np))
    (quantum : Process → Cpu np → Int) (sim : Sim np ncpus) (i : Fin ncpus) : Sim np ncpus :=
  match (sim.cpus i).currentProcessId with
  | some _ => sim
  | none =>
      match select sim.processes sim.currentTime with
      | none => sim
      | some p => dispatch sim i p (quantum (sim.processes p) (sim.cpus i))

structure Ticked (np : ℕ) where
  process : Process
  cpu : Cpu np
  completed : Int

def execute (tick : Int → Process → Cpu np → Ticked np) (sim : Sim np ncpus) (i : Fin ncpus) :
    Sim np ncpus :=
  match (sim.cpus i).currentProcessId with
  | none => sim
  | some pid =>
      let ticked := tick sim.currentTime (sim.processes pid) (sim.cpus i)
      { sim with
        processes := Function.update sim.processes pid ticked.process
        cpus := Function.update sim.cpus i ticked.cpu
        completedCount := sim.completedCount + ticked.completed }

def runTick (tick : Int → Process → Cpu np → Ticked np) (assigned : Sim np ncpus) : Sim np ncpus :=
  let executed := (List.finRange ncpus).foldl (execute tick) assigned
  { executed with currentTime := executed.currentTime + 1 }

def row (sim : Sim np ncpus) (i : Fin ncpus) : Option (Fin np) := (sim.cpus i).currentProcessId

def machine (sim : Sim np ncpus) : Machine (Fin np) ncpus where
  status x := (sim.processes x).state
  home x := (sim.processes x).cpuId
  current := row sim

def idle (sim : Sim np ncpus) : Finset (Fin ncpus) :=
  Finset.univ.filter fun i => (sim.cpus i).currentProcessId = none

def waiting (sim : Sim np ncpus) : Finset (Fin np) :=
  Finset.univ.filter fun x => (sim.processes x).state = .ready ∧
    (sim.processes x).arrivalTime ≤ sim.currentTime

def ahead (key : Fin np → Process → ℤ) (sim : Sim np ncpus) (x : Fin np) : Finset (Fin np) :=
  (waiting sim).filter fun y => key y (sim.processes y) < key x (sim.processes x)

@[simp] theorem mem_waiting {sim : Sim np ncpus} {x : Fin np} : x ∈ waiting sim ↔
    (sim.processes x).state = .ready ∧ (sim.processes x).arrivalTime ≤ sim.currentTime := by
  simp [waiting]

/-! ### Assigning -/

structure Unmoved (before after : Process) : Prop where
  arrival : after.arrivalTime = before.arrivalTime
  burst : after.burstTime = before.burstTime
  remaining : after.remainingTime = before.remainingTime
  deadline : after.deadline = before.deadline
  level : after.priorityLevel = before.priorityLevel
  completion : after.completionTime = before.completionTime

theorem Unmoved.refl (process : Process) : Unmoved process process := by
  constructor <;> rfl

theorem Unmoved.trans {first second third : Process} (left : Unmoved first second)
    (right : Unmoved second third) : Unmoved first third where
  arrival := right.arrival.trans left.arrival
  burst := right.burst.trans left.burst
  remaining := right.remaining.trans left.remaining
  deadline := right.deadline.trans left.deadline
  level := right.level.trans left.level
  completion := right.completion.trans left.completion

structure Still (before after : Sim np ncpus) : Prop where
  process : ∀ x, Unmoved (before.processes x) (after.processes x)
  time : after.currentTime = before.currentTime
  completed : after.completedCount = before.completedCount

theorem Still.refl (sim : Sim np ncpus) : Still sim sim :=
  ⟨fun _ => .refl _, rfl, rfl⟩

theorem Still.trans {first second third : Sim np ncpus} (left : Still first second)
    (right : Still second third) : Still first third where
  process x := (left.process x).trans (right.process x)
  time := right.time.trans left.time
  completed := right.completed.trans left.completed

variable {sim after : Sim np ncpus}

theorem dispatch_still (sim : Sim np ncpus) (i : Fin ncpus) (p : Fin np) (quantum : Int) :
    Still sim (dispatch sim i p quantum) := by
  refine ⟨?_, rfl, rfl⟩
  intro x
  by_cases same : x = p
  · subst x
    simp only [dispatch, Function.update_self]
    constructor <;> rfl
  · simp only [dispatch, Function.update_of_ne same]
    exact .refl _

theorem dispatch_machine {i : Fin ncpus} (idle : row sim i = none) (p : Fin np) (quantum : Int) :
    machine (dispatch sim i p quantum) = (machine sim).put i p := by
  simp only [machine, Machine.put, Machine.mk.injEq]
  refine ⟨?_, ?_, ?_⟩
  · funext x
    by_cases same : x = p
    · subst x
      simp [dispatch]
    · simp [dispatch, same, idle]
  · funext x
    by_cases same : x = p
    · subst x
      simp [dispatch]
    · simp [dispatch, same]
  · funext j
    by_cases same : j = i
    · subst j
      simp [row, dispatch]
    · simp [row, dispatch, same]

/-- `select` takes the least `key` among the waiting processes that fit. -/
structure Selects (select : (Fin np → Process) → Int → Option (Fin np)) (fits : Process → Prop)
    (key : Fin np → Process → ℤ) : Prop where
  none : ∀ p now, select p now = none → ∀ x, (p x).state = .ready → (p x).arrivalTime ≤ now →
    ¬ fits (p x)
  some : ∀ p now b, select p now = some b → (p b).state = .ready ∧ (p b).arrivalTime ≤ now ∧
    fits (p b) ∧ ∀ x, (p x).state = .ready → (p x).arrivalTime ≤ now → fits (p x) →
      key b (p b) ≤ key x (p x)
  fits_still : ∀ p p', Unmoved p p' → (fits p' ↔ fits p)
  key_still : ∀ x p p', Unmoved p p' → key x p' = key x p

def Eligible (fits : Process → Prop) (sim : Sim np ncpus) (x : Fin np) : Prop :=
  (sim.processes x).arrivalTime ≤ sim.currentTime ∧ fits (sim.processes x)

instance (fits : Process → Prop) [DecidablePred fits] (sim : Sim np ncpus) :
    DecidablePred (Eligible fits sim) :=
  fun _ => inferInstanceAs (Decidable (_ ∧ _))

theorem idle_eq (sim : Sim np ncpus) : idle sim = (machine sim).idle := by
  ext i
  simp [idle, machine, row]

theorem waiting_iff {x : Fin np} : x ∈ waiting sim ↔
    (machine sim).Waiting (Eligible (fun _ => True) sim) x := by
  simp [Machine.Waiting, machine, Eligible]

theorem waiting_eq (sim : Sim np ncpus) :
    waiting sim = (machine sim).queue (Eligible (fun _ => True) sim) := by
  ext x
  simp [Machine.Waiting, machine, Eligible]

theorem ahead_eq (key : Fin np → Process → ℤ) (sim : Sim np ncpus) (x : Fin np) :
    ahead key sim x = (machine sim).ahead (Eligible (fun _ => True) sim)
      (fun x => key x (sim.processes x)) x := by
  rw [ahead, waiting_eq]
  rfl

variable {select : (Fin np → Process) → Int → Option (Fin np)} {fits : Process → Prop}
  {key : Fin np → Process → ℤ} {quantum : Process → Cpu np → Int}

theorem Selects.eligible (selects : Selects select fits key) (still : Still sim after) :
    Eligible fits after = Eligible fits sim := by
  funext x
  simp only [Eligible, (still.process x).arrival, still.time,
    selects.fits_still _ _ (still.process x)]

theorem Selects.keys (selects : Selects select fits key) (still : Still sim after) :
    (fun x => key x (after.processes x)) = fun x => key x (sim.processes x) := by
  funext x
  exact selects.key_still x _ _ (still.process x)

theorem assignIdle_still (sim : Sim np ncpus) (i : Fin ncpus) :
    Still sim (assignIdle select quantum sim i) := by
  simp only [assignIdle]
  split
  · exact .refl _
  · split
    · exact .refl _
    · exact dispatch_still sim i _ _

theorem assignIdle_foldl_still (select : (Fin np → Process) → Int → Option (Fin np))
    (quantum : Process → Cpu np → Int) (visits : List (Fin ncpus)) (sim : Sim np ncpus) :
    Still sim (visits.foldl (assignIdle select quantum) sim) := by
  induction visits generalizing sim with
  | nil => exact .refl _
  | cons i rest ih => exact (assignIdle_still sim i).trans (ih _)

theorem Selects.fill (selects : Selects select fits key) (quantum : Process → Cpu np → Int)
    (visits : List (Fin ncpus)) (sim : Sim np ncpus) :
    Machine.Fill (Eligible fits sim) (fun x => key x (sim.processes x)) visits (machine sim)
      (machine (visits.foldl (assignIdle select quantum) sim)) := by
  induction visits generalizing sim with
  | nil => exact .nil _
  | cons i rest ih =>
      rw [List.foldl_cons]
      cases here : (sim.cpus i).currentProcessId with
      | some x =>
          simp only [assignIdle, here]
          apply Machine.Fill.keep _ (ih sim)
          intro idle
          simp [machine, row, here] at idle
      | none =>
          cases found : select sim.processes sim.currentTime with
          | none =>
              simp only [assignIdle, here, found]
              apply Machine.Fill.keep _ (ih sim)
              rintro - y ⟨ready, arrived, suited⟩
              exact selects.none _ _ found y ready arrived suited
          | some b =>
              obtain ⟨ready, arrived, suited, least⟩ := selects.some _ _ _ found
              simp only [assignIdle, here, found]
              have still := dispatch_still sim i b (quantum (sim.processes b) (sim.cpus i))
              have later := ih (dispatch sim i b (quantum (sim.processes b) (sim.cpus i)))
              rw [selects.eligible still, selects.keys still, dispatch_machine here] at later
              apply Machine.Fill.take here ⟨ready, arrived, suited⟩ _ later
              rintro y ⟨state, here, fit⟩
              exact least y state here fit

/-! ### What an assignment reaches -/

theorem Still.waiting (still : Still sim after) {y : Fin np} :
    (machine after).Waiting (Eligible (fun _ => True) sim) y ↔
      (after.processes y).state = .ready ∧ (after.processes y).arrivalTime ≤ after.currentTime := by
  simp [Machine.Waiting, machine, Eligible, (still.process y).arrival, still.time]

/-- The processes that have a CPU come before those that wait exactly when the idle CPUs sufficed
for all that come before a process that had one already. -/
theorem ordered_iff (still : Still sim after)
    (stable : ∀ x p p', Unmoved p p' → key x p' = key x p)
    (fill : Machine.Fill (Eligible (fun _ => True) sim) (fun x => key x (sim.processes x))
      (List.finRange ncpus) (machine sim) (machine after)) :
    (∀ i x, (after.cpus i).currentProcessId = some x → ∀ y, (after.processes y).state = .ready →
        (after.processes y).arrivalTime ≤ after.currentTime →
        key x (after.processes x) ≤ key y (after.processes y)) ↔
      ∀ i x, (sim.cpus i).currentProcessId = some x →
        (ahead key sim x).card ≤ (idle sim).card := by
  have same : ∀ x, key x (after.processes x) = key x (sim.processes x) :=
    fun x => stable x _ _ (still.process x)
  have ordered := fill.ordered_iff
  simp only [still.waiting, and_imp] at ordered
  simp only [same, idle_eq, ahead_eq]
  exact ordered

end OsLab.Aryan
