import OsLab.Aryan.Cycles
import OsLab.Library.Loop
import Mathlib.Data.Fin.VecNotation

/-!
`run_edf`. A CPU keeps its process until it finishes, so a process with a nearer deadline that
arrives later waits for an idle CPU.
-/

namespace OsLab.Aryan.Edf

open OsLab.Library

variable {np ncpus : ℕ}

/-- `best_process`; `earliest_deadline` starts at 100000. -/
def bestProcess (processes : Fin np → Process) (currentTime : Int) : Option (Fin np) :=
  scanLeast (fun p => (processes p).state = .ready && (processes p).arrivalTime ≤ currentTime)
    (fun p => (processes p).deadline) (List.finRange np) none 100000

def assign (sim : Sim np ncpus) : Sim np ncpus :=
  (List.finRange ncpus).foldl (assignIdle bestProcess fun _ cpu => cpu.timeQuantumLeft) sim

def tick (currentTime : Int) (process : Process) (cpu : Cpu np) : Ticked np :=
  let process := { process with remainingTime := process.remainingTime - 1 }
  if process.remainingTime = 0 then
    { process := { process with state := .finished, completionTime := currentTime + 1 }
      cpu := { cpu with currentProcessId := none }
      completed := 1 }
  else
    { process := process, cpu := cpu, completed := 0 }

def clockCycle (sim : Sim np ncpus) : Sim np ncpus :=
  runTick tick (assign sim)

/-- `processes[]` when the `while` loop ends within `fuel` ticks. -/
def runEdf (fuel : ℕ) (processes : Fin np → Process) (ncpus : ℕ) : Option (Fin np → Process) :=
  (whileLoop (fun sim : Sim np ncpus => sim.completedCount < np) clockCycle fuel
    (start ncpus processes)).map Sim.processes

def Near (process : Process) : Prop := process.deadline < 100000

instance : DecidablePred Near := fun _ => inferInstanceAs (Decidable (_ < _))

def deadline (_ : Fin np) (process : Process) : ℤ := process.deadline

theorem bestProcess_selects :
    Selects (bestProcess : (Fin np → Process) → Int → Option (Fin np)) Near deadline := by
  constructor
  · intro p now nothing x ready arrived near
    have large := scanLeast_none nothing x (List.mem_finRange x) (by simp [ready, arrived])
    simp only [Near] at near
    omega
  · intro p now b found
    obtain ⟨-, chosen, small, least⟩ := scanLeast_some found
    simp only [Bool.and_eq_true, decide_eq_true_eq] at chosen
    refine ⟨chosen.1, chosen.2, small, ?_⟩
    intro x ready arrived _
    exact least x (List.mem_finRange x) (by simp [ready, arrived])
  · intro p p' unmoved
    rw [Near, Near, unmoved.deadline]
  · intro _ p p' unmoved
    exact unmoved.deadline

theorem tick_deadline (now : Int) (p : Process) (c : Cpu np) :
    (tick now p c).process.deadline = p.deadline := by
  simp only [tick]
  split_ifs <;> rfl

theorem tick_ticks : Ticks (tick : Int → Process → Cpu np → Ticked np) Near := by
  constructor
  · intro now p c
    simp only [tick]
    split_ifs <;> rfl
  · intro now p c
    simp only [tick]
    split_ifs <;> rfl
  · intro now p c
    rw [Near, Near, tick_deadline]
  · intro now p c
    simp only [tick]
    split_ifs <;> rfl
  · intro now p c last
    have zero : p.remainingTime - 1 = 0 := by omega
    simp [tick, zero]
  · intro now p c more
    have some : p.remainingTime - 1 ≠ 0 := by omega
    simp [tick, some]

/-! ### The rows -/

def head (ncpus : ℕ) (jobs : Fin np → Process) (t : ℕ) : Sim np ncpus :=
  clockCycle^[t] (start ncpus jobs)

theorem head_succ (ncpus : ℕ) (jobs : Fin np → Process) (t : ℕ) :
    head ncpus jobs (t + 1) = clockCycle (head ncpus jobs t) :=
  Function.iterate_succ_apply' _ _ _

theorem assign_still (sim : Sim np ncpus) : Still sim (assign sim) :=
  assignIdle_foldl_still _ _ _ sim

theorem clockCycle_deadline (sim : Sim np ncpus) (x : Fin np) :
    ((clockCycle sim).processes x).deadline = (sim.processes x).deadline := by
  have kept : ∀ x now p (c : Cpu np), p.deadline = (sim.processes x).deadline →
      (tick now p c).process.deadline = (sim.processes x).deadline := by
    intro x now p c same
    rw [tick_deadline, same]
  exact runTick_process kept (fun y => ((assign_still sim).process y).deadline) x

variable {jobs : Fin np → Process}

theorem head_consistent (ncpus : ℕ) (ready : ∀ x, (jobs x).state = .ready) (t : ℕ) :
    Consistent (head ncpus jobs t) := by
  induction t with
  | zero => exact start_consistent ready
  | succ t ih =>
      rw [head_succ]
      exact runTick_consistent tick_ticks.runs (bestProcess_selects.consistent _ _ ih)

theorem head_deadline (ncpus : ℕ) (jobs : Fin np → Process) (t : ℕ) (x : Fin np) :
    ((head ncpus jobs t).processes x).deadline = (jobs x).deadline := by
  induction t with
  | zero => rfl
  | succ t ih => rw [head_succ, clockCycle_deadline, ih]

/-- Every RUNNING process has a deadline no later than those of the arrived READY ones, and no CPU
is idle while there is one. -/
structure NearestFirst (sim : Sim np ncpus) : Prop where
  deadlines : ∀ x y, (sim.processes x).state = .running → (sim.processes y).state = .ready →
    (sim.processes y).arrivalTime ≤ sim.currentTime →
    (sim.processes x).deadline ≤ (sim.processes y).deadline
  conserving : ∀ i, (sim.cpus i).currentProcessId = none → ∀ y, (sim.processes y).state = .ready →
    sim.currentTime < (sim.processes y).arrivalTime

/-- The nearest deadlines run exactly when, before the assignment, the idle CPUs suffice for all
waiting processes with a deadline nearer than that of a RUNNING one. -/
theorem runEdf_nearestFirst_iff (jobs : Fin np → Process) (ncpus : ℕ)
    (ready : ∀ x, (jobs x).state = .ready) (bounded : ∀ x, (jobs x).deadline < 100000) (t : ℕ) :
    NearestFirst (assign (head ncpus jobs t)) ↔
      ∀ x, ((head ncpus jobs t).processes x).state = .running →
        (ahead deadline (head ncpus jobs t) x).card ≤ (idle (head ncpus jobs t)).card := by
  have consistent := head_consistent ncpus ready t
  have near : ∀ x, Near ((head ncpus jobs t).processes x) := by
    intro x
    rw [Near, head_deadline]
    exact bounded x
  generalize head ncpus jobs t = sim at consistent near ⊢
  have fill := bestProcess_selects.fill (fun _ cpu => cpu.timeQuantumLeft) (List.finRange ncpus) sim
  have all : Eligible Near sim = Eligible (fun _ => True) sim := by
    funext x
    simp [Eligible, near x]
  rw [all] at fill
  have still := assign_still sim
  have ordered := ordered_iff still (fun _ _ _ unmoved => unmoved.deadline) fill
  have placed := bestProcess_selects.consistent (fun _ cpu => cpu.timeQuantumLeft)
    (List.finRange ncpus) consistent
  constructor
  · intro first x running
    obtain ⟨i, here⟩ := consistent.held x running
    refine ordered.mp ?_ i x here
    intro j z there y state arrived
    exact first.deadlines z y (placed.busy j z there).1 state arrived
  · intro few
    have nearest := ordered.mpr fun i x here => few x (consistent.busy i x here).1
    constructor
    · intro x y running state arrived
      obtain ⟨i, here⟩ := placed.held x running
      exact nearest i x here y state arrived
    · intro i idle y state
      by_contra late
      exact fill.conserving (List.mem_finRange i) idle y (still.waiting.mpr ⟨state, by omega⟩)

/-- A long process and one with a nearer deadline that arrives while it runs. -/
def nearer : Fin 2 → Process := ![initial 1 0 5 50, initial 2 1 2 10]

/-- With a second CPU the nearer deadline gets that one. -/
theorem runEdf_nearestFirst_iff_nearer : NearestFirst (assign (head 2 nearer 1)) ∧
    ¬ NearestFirst (assign (head 1 nearer 1)) := by
  constructor
  · exact (runEdf_nearestFirst_iff nearer 2 (by decide) (by decide) 1).mpr (by decide)
  · rw [runEdf_nearestFirst_iff nearer 1 (by decide) (by decide) 1]
    decide

theorem runEdf_not_nearestFirst : (∀ x, 1 ≤ (nearer x).burstTime ∧
    (nearer x).remainingTime = (nearer x).burstTime ∧ (nearer x).state = .ready ∧
    (nearer x).deadline < 100000) ∧ ¬ NearestFirst (assign (head 1 nearer 1)) := by
  refine ⟨by decide, ?_⟩
  intro first
  have less := first.deadlines 0 1 (by decide) (by decide) (by decide)
  exact absurd less (by decide)

/-! ### The end of the loop -/

/-- The loop ends with every process FINISHED exactly when every deadline is below the initial
`earliest_deadline`. -/
theorem runEdf_ends_iff {ncpus : ℕ} (fresh : ∀ x, Fresh (jobs x)) (processors : 0 < ncpus) :
    (∃ fuel p, runEdf fuel jobs ncpus = some p ∧ ∀ x, (p x).state = .finished) ↔
      ∀ x, (jobs x).deadline < 100000 := by
  have ends : _ ↔ ∀ x, Near (jobs x) := ends_iff bestProcess_selects tick_ticks
    (fun _ cpu => cpu.timeQuantumLeft) fresh processors
  refine Iff.trans ?_ ends
  simp only [runEdf, Option.map_eq_some_iff]
  constructor
  · rintro ⟨fuel, p, ⟨final, ended, rfl⟩, finished⟩
    exact ⟨fuel, final, ended, finished⟩
  · rintro ⟨fuel, final, ended, finished⟩
    exact ⟨fuel, final.processes, ⟨final, ended, rfl⟩, finished⟩

end OsLab.Aryan.Edf
