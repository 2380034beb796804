import OsLab.Bhanu.Metrics
import OsLab.Library.Demand
import Mathlib.Data.Fin.VecNotation
import Mathlib.Tactic.FinCases

/-!
Optimality of `run_edf` on one CPU. The run is compared with any schedule at
all through the demand that schedule can absorb: each clock cycle goes to the
earliest deadline among the arrived unfinished jobs, so the work left always
fits in the cycles left before its deadlines.
-/

namespace OsLab.Bhanu.Edf

open OsLab.Library

variable {np : ℕ}

/-- A job as `main.c` hands it to `run_edf`. -/
structure Job (process : Process) : Prop where
  arrival : 0 ≤ process.arrivalTime
  burst : 1 ≤ process.burstTime
  remaining : process.remainingTime = process.burstTime
  deadline : process.deadline < 100000
  ready : process.state = .ready
  unstarted : process.startTime = -1

/-- Some schedule completes every job between its arrival and its deadline. -/
def Feasible (jobs : Fin np → Process) : Prop :=
  Nonempty (UnitSchedule (fun i => (jobs i).arrivalTime) (fun i => (jobs i).deadline)
    (fun i => (jobs i).burstTime))

def current (sim : Sim np 1) : Option (Fin np) := (sim.cpu 0).currentProcessId

def left (sim : Sim np 1) (i : Fin np) : Int := (sim.p i).remainingTime

structure SameWork (before after : Sim np 1) : Prop where
  cycle : after.cycle = before.cycle
  finished : after.finished = before.finished
  arrival : ∀ i, (after.p i).arrivalTime = (before.p i).arrivalTime
  burst : ∀ i, (after.p i).burstTime = (before.p i).burstTime
  deadline : ∀ i, (after.p i).deadline = (before.p i).deadline
  remaining : ∀ i, (after.p i).remainingTime = (before.p i).remainingTime
  completion : ∀ i, (after.p i).completionTime = (before.p i).completionTime
  done : ∀ i, (after.p i).state = .finished ↔ (before.p i).state = .finished

theorem SameWork.refl (sim : Sim np 1) : SameWork sim sim :=
  ⟨rfl, rfl, fun _ => rfl, fun _ => rfl, fun _ => rfl, fun _ => rfl, fun _ => rfl, fun _ => Iff.rfl⟩

theorem SameWork.trans {first second third : Sim np 1} (left : SameWork first second)
    (right : SameWork second third) : SameWork first third where
  cycle := right.cycle.trans left.cycle
  finished := right.finished.trans left.finished
  arrival i := (right.arrival i).trans (left.arrival i)
  burst i := (right.burst i).trans (left.burst i)
  deadline i := (right.deadline i).trans (left.deadline i)
  remaining i := (right.remaining i).trans (left.remaining i)
  completion i := (right.completion i).trans (left.completion i)
  done i := (right.done i).trans (left.done i)

theorem dispatch_sameWork (sim : Sim np 1) (best : Fin np) (live : (sim.p best).state ≠ .finished) :
    SameWork sim (dispatch sim 0 best) := by
  constructor <;> try rfl
  all_goals
    intro i
    by_cases same : i = best
    · subst i
      simp [dispatch, live]
    · simp [dispatch, same]

theorem preempt_sameWork (sim : Sim np 1) (running : Fin np)
    (live : (sim.p running).state ≠ .finished) : SameWork sim (preempt sim running) := by
  constructor <;> try rfl
  all_goals
    intro i
    by_cases same : i = running
    · subst i
      simp [preempt, live]
    · simp [preempt, same]

structure Progress (jobs : Fin np → Process) (sim : Sim np 1) : Prop where
  arrival : ∀ i, (sim.p i).arrivalTime = (jobs i).arrivalTime
  burst : ∀ i, (sim.p i).burstTime = (jobs i).burstTime
  deadline : ∀ i, (sim.p i).deadline = (jobs i).deadline
  running : ∀ i, (sim.p i).state = .running ↔ current sim = some i
  arrived : ∀ i, current sim = some i → (sim.p i).arrivalTime ≤ sim.cycle
  nonneg : ∀ i, 0 ≤ left sim i
  done : ∀ i, (sim.p i).state = .finished ↔ left sim i = 0
  untouched : ∀ i, sim.cycle ≤ (sim.p i).arrivalTime → left sim i = (jobs i).burstTime
  completed : ∀ i, (sim.p i).state = .finished → (sim.p i).completionTime ≤ (sim.p i).deadline
  counted : sim.finished = ((Finset.univ.filter fun i => (sim.p i).state = .finished).card : ℤ)
  met : DemandMet (fun i => (jobs i).deadline) (left sim) sim.cycle

variable {jobs : Fin np → Process}

theorem start_progress (good : ∀ i, Job (jobs i)) (feasible : Feasible jobs) :
    Progress jobs (start 1 jobs) := by
  obtain ⟨schedule⟩ := feasible
  have initially : left (start 1 jobs) = fun i => (jobs i).burstTime := by
    funext i
    exact (good i).remaining
  refine ⟨fun _ => rfl, fun _ => rfl, fun _ => rfl, ?_, ?_, ?_, ?_, ?_, ?_, ?_, ?_⟩
  · intro i
    simp [start, current, (good i).ready]
  · intro i running
    simp [start, current] at running
  · intro i
    have := (good i).burst
    simp only [initially]
    omega
  · intro i
    have work := (good i).burst
    have some := congrFun initially i
    have ready : ((start 1 jobs).p i).state = .ready := (good i).ready
    rw [ready, some]
    constructor
    · intro impossible
      simp at impossible
    · intro zero
      omega
  · intro i _
    rw [initially]
  · intro i finished
    simp [start, (good i).ready] at finished
  · simp [start, (good _).ready]
  · rw [initially]
    exact schedule.demandMet fun i => (good i).arrival

/-- After assignment the CPU holds the earliest deadline among the arrived unfinished jobs,
or nothing when there is none. -/
inductive Assigned (before after : Sim np 1) : Prop
  | idle : current after = none →
      (∀ i, (before.p i).arrivalTime ≤ before.cycle → (before.p i).state = .finished) →
      Assigned before after
  | busy (job : Fin np) : current after = some job → (before.p job).state ≠ .finished →
      (before.p job).arrivalTime ≤ before.cycle →
      (∀ i, (before.p i).arrivalTime ≤ before.cycle → (before.p i).state ≠ .finished →
        (before.p job).deadline ≤ (before.p i).deadline) →
      Assigned before after

@[simp] theorem current_dispatch (sim : Sim np 1) (best : Fin np) :
    current (dispatch sim 0 best) = some best := by
  simp [current, dispatch]

theorem dispatch_running {sim : Sim np 1} {best : Fin np}
    (vacant : ∀ i, (sim.p i).state ≠ .running) (i : Fin np) :
    ((dispatch sim 0 best).p i).state = .running ↔ current (dispatch sim 0 best) = some i := by
  by_cases same : i = best
  · subst i
    simp [dispatch, current]
  · simp [dispatch, current, same, Ne.symm same, vacant i]

/-- A job that precedes the waiting ones and the one with the CPU precedes all unfinished ones. -/
theorem Progress.earliest {sim : Sim np 1} (progress : Progress jobs sim) {bound : Int}
    (waiting : ∀ i, (sim.p i).state = .ready → (sim.p i).arrivalTime ≤ sim.cycle →
      bound ≤ (sim.p i).deadline)
    (held : ∀ i, current sim = some i → bound ≤ (sim.p i).deadline) (i : Fin np)
    (arrived : (sim.p i).arrivalTime ≤ sim.cycle) (live : (sim.p i).state ≠ .finished) :
    bound ≤ (sim.p i).deadline := by
  cases state : (sim.p i).state with
  | ready => exact waiting i state arrived
  | running => exact held i ((progress.running i).mp state)
  | finished => exact absurd state live

theorem assign_one (good : ∀ i, Job (jobs i)) {sim : Sim np 1} (progress : Progress jobs sim) :
    let after := assign (List.finRange 1) (pickEarliestDeadline sim.p sim.cycle) sim
    SameWork sim after ∧ Assigned sim after ∧
      (∀ i, (after.p i).state = .running ↔ current after = some i) := by
  have early : ∀ i, (sim.p i).deadline < 100000 := fun i => by
    have := (good i).deadline
    rw [progress.deadline i]
    exact this
  simp only [List.finRange_succ, List.finRange_zero, List.map_nil]
  cases picked : pickEarliestDeadline sim.p sim.cycle with
  | none =>
      simp only [assign]
      refine ⟨.refl sim, ?_, progress.running⟩
      have nobody : ∀ i, (sim.p i).state = .ready → ¬ (sim.p i).arrivalTime ≤ sim.cycle := by
        intro i ready arrived
        have := pickEarliestDeadline_none picked ready arrived
        have := early i
        omega
      cases holder : current sim with
      | none =>
          refine .idle holder ?_
          intro i arrived
          by_contra live
          have held : ∀ i, current sim = some i → (100000 : Int) ≤ (sim.p i).deadline := by
            simp [holder]
          have late := progress.earliest (fun i ready here => absurd here (nobody i ready)) held i
            arrived live
          have := early i
          omega
      | some job =>
          have running := (progress.running job).mpr holder
          refine .busy job holder (by simp [running]) (progress.arrived job holder) ?_
          refine progress.earliest (fun i ready here => absurd here (nobody i ready)) ?_
          intro i held
          rw [holder, Option.some.injEq] at held
          rw [held]
  | some best =>
      obtain ⟨ready, arrived, least⟩ := pickEarliestDeadline_some picked
      have live : (sim.p best).state ≠ .finished := by simp [ready]
      simp only [assign]
      cases holder : (sim.cpu 0).currentProcessId with
      | none =>
          have vacant : ∀ i, (sim.p i).state ≠ .running := by
            intro i running
            have held := (progress.running i).mp running
            simp [current, holder] at held
          refine ⟨dispatch_sameWork sim best live, ?_, dispatch_running vacant⟩
          refine .busy best (current_dispatch sim best) live arrived ?_
          exact progress.earliest least (by simp [current, holder])
      | some job =>
          have running : (sim.p job).state = .running := (progress.running job).mpr holder
          have different : best ≠ job := by
            rintro rfl
            simp [running] at ready
          simp only
          split
          · rename_i sooner
            have kept := preempt_sameWork sim job (by simp [running])
            have vacant : ∀ i, ((preempt sim job).p i).state ≠ .running := by
              intro i
              by_cases same : i = job
              · simp [preempt, same]
              · intro running
                simp only [preempt, Function.update_of_ne same] at running
                have held := (progress.running i).mp running
                simp only [current, holder, Option.some.injEq] at held
                exact same held.symm
            refine ⟨kept.trans (dispatch_sameWork _ best (by simpa [kept.done best] using live)), ?_,
              dispatch_running vacant⟩
            refine .busy best (current_dispatch _ best) live arrived (progress.earliest least ?_)
            intro i held
            simp only [current, holder, Option.some.injEq] at held
            subst held
            omega
          · rename_i later
            refine ⟨.refl sim, ?_, progress.running⟩
            refine .busy job holder (by simp [running]) (progress.arrived job holder) ?_
            refine progress.earliest (fun i waiting here => ?_) fun i held => ?_
            · have := least i waiting here
              omega
            · simp only [current, holder, Option.some.injEq] at held
              rw [held]

theorem execute_idle {sim : Sim np 1} (idle : current sim = none) : execute sim 0 = sim := by
  have empty : (sim.cpu 0).currentProcessId = none := idle
  simp [execute, empty]

structure Executed (before after : Sim np 1) (job : Fin np) : Prop where
  cycle : after.cycle = before.cycle
  others : ∀ i, i ≠ job → after.p i = before.p i
  arrival : (after.p job).arrivalTime = (before.p job).arrivalTime
  burst : (after.p job).burstTime = (before.p job).burstTime
  deadline : (after.p job).deadline = (before.p job).deadline
  remaining : (after.p job).remainingTime = (before.p job).remainingTime - 1
  outcome : ((before.p job).remainingTime = 1 ∧ (after.p job).state = .finished ∧
      current after = none ∧ (after.p job).completionTime = before.cycle + 1 ∧
      after.finished = before.finished + 1) ∨
    ((before.p job).remainingTime ≠ 1 ∧ (after.p job).state = (before.p job).state ∧
      current after = some job ∧ after.finished = before.finished)

theorem execute_busy {sim : Sim np 1} {job : Fin np} (busy : current sim = some job) :
    Executed sim (execute sim 0) job := by
  have holder : (sim.cpu 0).currentProcessId = some job := busy
  by_cases last : (sim.p job).remainingTime = 1
  · constructor <;> simp +contextual [execute, holder, current, last]
  · have more : (sim.p job).remainingTime - 1 ≠ 0 := by omega
    constructor <;> simp +contextual [execute, holder, more, current, last]

theorem Progress.due {sim : Sim np 1} (progress : Progress jobs sim) (job : Fin np) :
    left sim job ≤ max 0 ((jobs job).deadline - sim.cycle) := by
  have room := progress.met (jobs job).deadline
  have single : left sim job ≤
      ∑ i with (jobs i).deadline ≤ (jobs job).deadline, left sim i :=
    Finset.single_le_sum (fun i _ => progress.nonneg i) (by simp)
  exact single.trans room

theorem Progress.pass {sim after : Sim np 1} (progress : Progress jobs sim)
    (same : SameWork sim after) (running : ∀ i, (after.p i).state = .running ↔ current after = some i)
    (schedule : UnitSchedule (fun i => (jobs i).arrivalTime) (fun i => (jobs i).deadline)
      (fun i => (jobs i).burstTime))
    (idle : current after = none)
    (finished : ∀ i, (sim.p i).arrivalTime ≤ sim.cycle → (sim.p i).state = .finished) :
    Progress jobs { after with cycle := after.cycle + 1 } := by
  have work : left { after with cycle := after.cycle + 1 } = left sim := funext same.remaining
  refine ⟨fun i => (same.arrival i).trans (progress.arrival i),
    fun i => (same.burst i).trans (progress.burst i),
    fun i => (same.deadline i).trans (progress.deadline i), running, ?_, ?_, ?_, ?_, ?_, ?_, ?_⟩
  · intro i held
    simp [show current { after with cycle := after.cycle + 1 } = none from idle] at held
  · intro i
    rw [work]
    exact progress.nonneg i
  · intro i
    rw [work, same.done i]
    exact progress.done i
  · intro i later
    simp only [same.arrival i, same.cycle] at later
    rw [work]
    exact progress.untouched i (by omega)
  · intro i ended
    simp only [same.completion i, same.deadline i]
    exact progress.completed i ((same.done i).mp ended)
  · simp only [same.finished, same.done, progress.counted]
  · rw [work]
    simp only [same.cycle]
    refine DemandMet.advance schedule progress.met progress.nonneg ?_ (Or.inr ⟨rfl, ?_⟩)
    · intro i later
      exact progress.untouched i (by rw [progress.arrival i]; omega)
    · intro i arrived
      rw [← progress.arrival i] at arrived
      exact le_of_eq ((progress.done i).mp (finished i arrived))

section Served

variable {sim assigned after : Sim np 1} {job : Fin np} (executed : Executed assigned after job)
include executed

theorem Executed.field {α : Type} (field : Process → α)
    (before : ∀ i, field (assigned.p i) = field (sim.p i))
    (mine : field (after.p job) = field (assigned.p job)) (i : Fin np) :
    field (after.p i) = field (sim.p i) := by
  by_cases equal : i = job
  · subst i
    exact mine.trans (before job)
  · rw [executed.others i equal]
    exact before i

theorem Executed.running
    (running : ∀ i, (assigned.p i).state = .running ↔ current assigned = some i)
    (busy : current assigned = some job) (i : Fin np) :
    (after.p i).state = .running ↔ current after = some i := by
  by_cases mine : i = job
  · subst i
    have held := (running job).mpr busy
    rcases executed.outcome with ⟨_, ended, released, _⟩ | ⟨_, kept, still, _⟩
    · simp [ended, released]
    · simp [kept, held, still]
  · rw [executed.others i mine, running i, busy]
    rcases executed.outcome with ⟨_, _, released, _⟩ | ⟨_, _, still, _⟩
    · simp [released, Ne.symm mine]
    · simp [still]

variable (same : SameWork sim assigned)
include same

theorem Executed.work : left after = Function.update (left sim) job (left sim job - 1) := by
  funext i
  by_cases mine : i = job
  · subst i
    simp only [left, executed.remaining, same.remaining, Function.update_self]
  · simp only [left, executed.others i mine, same.remaining, Function.update_of_ne mine]

theorem Executed.done (held : (assigned.p job).state = .running)
    (done : ∀ i, (sim.p i).state = .finished ↔ left sim i = 0) (i : Fin np) :
    (after.p i).state = .finished ↔ left after i = 0 := by
  rw [executed.work same]
  by_cases mine : i = job
  · subst i
    have amount : (assigned.p job).remainingTime = left sim job := same.remaining job
    simp only [Function.update_self]
    rcases executed.outcome with ⟨one, ended, _⟩ | ⟨more, kept, _⟩
    · simp only [ended, true_iff]
      omega
    · simp only [kept, held, reduceCtorEq, false_iff]
      omega
  · rw [executed.others i mine, same.done i, done i, Function.update_of_ne mine]

theorem Executed.counted (held : (assigned.p job).state = .running)
    (live : (sim.p job).state ≠ .finished)
    (counted : sim.finished = ((Finset.univ.filter fun i => (sim.p i).state = .finished).card : ℤ)) :
    after.finished = ((Finset.univ.filter fun i => (after.p i).state = .finished).card : ℤ) := by
  have others : ∀ i, i ≠ job → ((after.p i).state = .finished ↔ (sim.p i).state = .finished) := by
    intro i mine
    rw [executed.others i mine]
    exact same.done i
  rcases executed.outcome with ⟨_, ended, _, _, total⟩ | ⟨_, kept, _, total⟩
  · have grown : (Finset.univ.filter fun i => (after.p i).state = .finished) =
        insert job (Finset.univ.filter fun i => (sim.p i).state = .finished) := by
      ext i
      by_cases mine : i = job
      · subst i
        simp [ended]
      · simp [mine, others i mine]
    rw [total, same.finished, counted, grown, Finset.card_insert_of_notMem (by simp [live])]
    push_cast
    rfl
  · have equal : (Finset.univ.filter fun i => (after.p i).state = .finished) =
        Finset.univ.filter fun i => (sim.p i).state = .finished := by
      ext i
      by_cases mine : i = job
      · subst i
        simp [kept, held, live]
      · simp [others i mine]
    rw [total, same.finished, counted, equal]

theorem Executed.completed (progress : Progress jobs sim)
    (held : (assigned.p job).state = .running) (i : Fin np)
    (ended : (after.p i).state = .finished) : (after.p i).completionTime ≤ (sim.p i).deadline := by
  by_cases mine : i = job
  · subst i
    have due := progress.due job
    have amount : (assigned.p job).remainingTime = left sim job := same.remaining job
    rw [← progress.deadline job] at due
    rcases executed.outcome with ⟨one, _, _, completed, _⟩ | ⟨_, kept, _⟩
    · rw [completed, same.cycle]
      omega
    · rw [ended, held] at kept
      simp at kept
  · rw [executed.others i mine] at ended ⊢
    rw [same.completion i]
    exact progress.completed i ((same.done i).mp ended)

end Served

theorem Progress.serve {sim assigned after : Sim np 1} {job : Fin np} (progress : Progress jobs sim)
    (same : SameWork sim assigned)
    (running : ∀ i, (assigned.p i).state = .running ↔ current assigned = some i)
    (schedule : UnitSchedule (fun i => (jobs i).arrivalTime) (fun i => (jobs i).deadline)
      (fun i => (jobs i).burstTime))
    (busy : current assigned = some job) (live : (sim.p job).state ≠ .finished)
    (arrived : (sim.p job).arrivalTime ≤ sim.cycle)
    (earliest : ∀ i, (sim.p i).arrivalTime ≤ sim.cycle → (sim.p i).state ≠ .finished →
      (sim.p job).deadline ≤ (sim.p i).deadline)
    (executed : Executed assigned after job) :
    Progress jobs { after with cycle := after.cycle + 1 } := by
  have positive : 1 ≤ left sim job := by
    have nonneg := progress.nonneg job
    have nonzero : left sim job ≠ 0 := fun zero => live ((progress.done job).mpr zero)
    omega
  have work : left { after with cycle := after.cycle + 1 } =
      Function.update (left sim) job (left sim job - 1) := executed.work same
  have clock : after.cycle = sim.cycle := executed.cycle.trans same.cycle
  have held : (assigned.p job).state = .running := (running job).mpr busy
  have nonneg : ∀ i, 0 ≤ Function.update (left sim) job (left sim job - 1) i := by
    intro i
    by_cases mine : i = job
    · subst i
      simp only [Function.update_self]
      omega
    · simpa [mine] using progress.nonneg i
  have untouched : ∀ i, sim.cycle + 1 ≤ (sim.p i).arrivalTime →
      Function.update (left sim) job (left sim job - 1) i = (jobs i).burstTime := by
    intro i later
    have other : i ≠ job := by
      rintro rfl
      omega
    rw [Function.update_of_ne other]
    exact progress.untouched i (by omega)
  have arrivals := executed.field Process.arrivalTime same.arrival executed.arrival
  have deadlines := executed.field Process.deadline same.deadline executed.deadline
  have bursts := executed.field Process.burstTime same.burst executed.burst
  refine ⟨fun i => (arrivals i).trans (progress.arrival i),
    fun i => (bursts i).trans (progress.burst i),
    fun i => (deadlines i).trans (progress.deadline i), executed.running running busy, ?_, ?_,
    executed.done same held progress.done, ?_, ?_,
    executed.counted same held live progress.counted, ?_⟩
  · intro i holder
    have own : i = job := by
      rcases executed.outcome with ⟨_, _, released, _⟩ | ⟨_, _, still, _⟩
      · simp [show current after = some i from holder] at released
      · rw [show current after = some i from holder, Option.some.injEq] at still
        exact still
    subst i
    simp only [arrivals, clock]
    omega
  · rw [work]
    exact nonneg
  · intro i later
    simp only [arrivals, clock] at later
    rw [work]
    exact untouched i later
  · intro i ended
    change (after.p i).completionTime ≤ (after.p i).deadline
    rw [deadlines i]
    exact executed.completed same progress held i ended
  · rw [work]
    simp only [clock]
    refine DemandMet.advance schedule progress.met nonneg ?_ (Or.inl ⟨job, rfl, ?_⟩)
    · intro i later
      exact untouched i (by rw [progress.arrival i]; omega)
    · intro i here unfinished
      rw [← progress.arrival i] at here
      rw [← progress.deadline i, ← progress.deadline job]
      refine earliest i here ?_
      rw [ne_eq, progress.done i]
      omega

theorem clockCycle_progress (good : ∀ i, Job (jobs i)) (feasible : Feasible jobs)
    {sim : Sim np 1} (progress : Progress jobs sim) : Progress jobs (clockCycle sim) := by
  obtain ⟨schedule⟩ := feasible
  obtain ⟨same, assigned, running⟩ := assign_one good progress
  have one : clockCycle sim =
      let after := assign (List.finRange 1) (pickEarliestDeadline sim.p sim.cycle) sim
      { execute after 0 with cycle := (execute after 0).cycle + 1 } := rfl
  rw [one]
  cases assigned with
  | idle empty finished =>
      simp only [execute_idle empty]
      exact progress.pass same running schedule empty finished
  | busy job holder live arrived earliest =>
      exact progress.serve same running schedule holder live arrived earliest (execute_busy holder)

theorem Progress.all_finished {sim : Sim np 1} (progress : Progress jobs sim)
    (stopped : (np : ℤ) ≤ sim.finished) (i : Fin np) : (sim.p i).state = .finished := by
  have full : np ≤ (Finset.univ.filter fun i => (sim.p i).state = .finished).card := by
    have := progress.counted
    omega
  have everyone : (Finset.univ.filter fun i => (sim.p i).state = .finished) = Finset.univ := by
    apply Finset.eq_univ_of_card
    have := Finset.card_le_univ (Finset.univ.filter fun i => (sim.p i).state = .finished)
    rw [Fintype.card_fin] at *
    omega
  have member : i ∈ Finset.univ.filter fun i => (sim.p i).state = .finished := by simp [everyone]
  exact (Finset.mem_filter.mp member).2

theorem Progress.clock_lt (good : ∀ i, Job (jobs i)) {sim : Sim np 1}
    (progress : Progress jobs sim) (waiting : sim.finished < np) : sim.cycle < 100000 := by
  by_contra late
  have all : (Finset.univ.filter fun i => (sim.p i).state = .finished) = Finset.univ := by
    apply Finset.filter_true_of_mem
    intro i _
    have due := progress.due i
    have nonneg := progress.nonneg i
    have bound := (good i).deadline
    exact (progress.done i).mpr (by omega)
  have total := progress.counted
  rw [all, Finset.card_univ, Fintype.card_fin] at total
  omega

theorem Job.fresh {process : Process} (job : Job process) : Fresh process :=
  ⟨job.burst, job.remaining, job.ready⟩

/-- Earliest deadline first on one CPU completes every job by its deadline whenever some
schedule does, and its table reports the cycles in which the jobs execute. -/
theorem runEdf_optimal (jobs : Fin np → Process) (good : ∀ i, Job (jobs i))
    (feasible : Feasible jobs) :
    ∃ fuel rounds, runEdf fuel jobs 1 = some (clockCycle^[rounds] (start 1 jobs)).p ∧
      Reported jobs (fun t => assigned (clockCycle^[t] (start 1 jobs))) rounds
        (clockCycle^[rounds] (start 1 jobs)).p ∧
      (∀ i, ((clockCycle^[rounds] (start 1 jobs)).p i).state = .finished ∧
        ((clockCycle^[rounds] (start 1 jobs)).p i).deadline = (jobs i).deadline ∧
        ((clockCycle^[rounds] (start 1 jobs)).p i).completionTime ≤ (jobs i).deadline) ∧
      misses (clockCycle^[rounds] (start 1 jobs)).p = 0 := by
  obtain ⟨fuel, sim, ended, progress, stopped⟩ :=
    @whileLoop_total _ (fun sim : Sim np 1 => decide (sim.finished < np)) clockCycle (Progress jobs)
      (fun sim => (100000 - sim.cycle).toNat)
      (fun sim progress _ => clockCycle_progress good feasible progress)
      (by
        intro sim progress running
        have early := progress.clock_lt good (by simpa using running)
        have ticks : (clockCycle sim).cycle = sim.cycle + 1 := by
          obtain ⟨same, assigned, _⟩ := assign_one good progress
          change (execute _ 0).cycle + 1 = _
          cases assigned with
          | idle empty _ => rw [execute_idle empty, same.cycle]
          | busy job holder _ _ _ => rw [(execute_busy holder).cycle, same.cycle]
        simp only [ticks]
        omega)
      _ (start_progress good feasible)
  simp only [decide_eq_false_iff_not, not_lt] at stopped
  have finished := progress.all_finished stopped
  obtain ⟨more, rounds, ran, reported⟩ := run_reported jobs (fun i => (good i).fresh)
    (fun i => (good i).arrival) (fun i => (good i).unstarted) Nat.zero_lt_one
    fun i => (good i).deadline
  have table : sim.p = (clockCycle^[rounds] (start 1 jobs)).p := by
    obtain ⟨last, again, same⟩ := Option.map_eq_some_iff.mp ran
    rw [← same, whileLoop_unique ended again]
  refine ⟨more, rounds, ran, reported, ?_⟩
  rw [← table]
  constructor
  · intro i
    have met := progress.completed i (finished i)
    rw [progress.deadline i] at met
    exact ⟨finished i, progress.deadline i, met⟩
  · exact misses_eq_zero fun i => progress.completed i (finished i)

def preemptedPair : Fin 2 → Process := ![
  { id := 1, arrivalTime := 0, burstTime := 3, remainingTime := 3, deadline := 5,
    priorityLevel := 0, state := .ready, completionTime := 0, startTime := -1, cpuId := -1,
    waitTimeAcc := 0 },
  { id := 2, arrivalTime := 1, burstTime := 1, remainingTime := 1, deadline := 2,
    priorityLevel := 0, state := .ready, completionTime := 0, startTime := -1, cpuId := -1,
    waitTimeAcc := 0 }]

theorem runEdf_optimal_preemptedPair :
    ∃ fuel rounds,
      runEdf fuel preemptedPair 1 = some (clockCycle^[rounds] (start 1 preemptedPair)).p ∧
      Reported preemptedPair (fun t => assigned (clockCycle^[t] (start 1 preemptedPair))) rounds
        (clockCycle^[rounds] (start 1 preemptedPair)).p ∧
      (∀ i, ((clockCycle^[rounds] (start 1 preemptedPair)).p i).state = .finished ∧
        ((clockCycle^[rounds] (start 1 preemptedPair)).p i).deadline =
          (preemptedPair i).deadline ∧
        ((clockCycle^[rounds] (start 1 preemptedPair)).p i).completionTime ≤
          (preemptedPair i).deadline) ∧
      misses (clockCycle^[rounds] (start 1 preemptedPair)).p = 0 := by
  refine runEdf_optimal preemptedPair ?_ ⟨{
    cycles := ![{0, 2, 3}, {1}]
    within := by decide
    complete := by decide
    exclusive := by decide }⟩
  intro i
  fin_cases i <;> constructor <;> decide

end OsLab.Bhanu.Edf
