import OsLab.Library.Selection
import OsLab.Library.TimeDemand
import Mathlib.Data.Fin.VecNotation
import Mathlib.Data.List.Sort
import Mathlib.Tactic.FinCases

/-!
`rms_scheduling` of `Vijay/algorithms.c`, for any number of processes and any simulation time:
tasks that pass the time-demand test get their burst in every period.
-/

namespace OsLab.Vijay

open OsLab.Library

structure Process where
  pid : Int
  burstTime : Int
  arrivalTime : Int
  tickets : Int
  period : Int
  remainingTime : Int
  deriving DecidableEq, Repr

structure TraceEntry where
  time : Int
  pid : Int
  algorithm : String
  deriving DecidableEq, Repr

/-- `next_deadline[]`, `remaining[]` and the entries of `trace[]` below `*trace_count`. -/
structure Sim (n : ℕ) where
  nextDeadline : Fin n → Int
  remaining : Fin n → Int
  trace : List TraceEntry

namespace Rms

variable {n : ℕ}

def start (procs : Fin n → Process) (trace : List TraceEntry) : Sim n where
  nextDeadline i := (procs i).arrivalTime + (procs i).period
  remaining i := (procs i).burstTime
  trace := trace

def Due (procs : Fin n → Process) (time : Int) (sim : Sim n) (i : Fin n) : Prop :=
  time ≥ sim.nextDeadline i ∧ (procs i).arrivalTime ≤ time

instance (procs : Fin n → Process) (time : Int) (sim : Sim n) :
    DecidablePred (Due procs time sim) :=
  fun _ => inferInstanceAs (Decidable (_ ∧ _))

/-- The loop that releases processes again; each pass has its own entries of the two arrays. -/
def release (procs : Fin n → Process) (time : Int) (sim : Sim n) : Sim n :=
  { sim with
    remaining := fun i => if Due procs time sim i then (procs i).burstTime else sim.remaining i
    nextDeadline := fun i =>
      if Due procs time sim i then sim.nextDeadline i + (procs i).period
      else sim.nextDeadline i }

/-- The ready process with the shortest period. -/
def select (procs : Fin n → Process) (time : Int) (remaining : Fin n → Int) : Option (Fin n) :=
  scanLeast (fun i => remaining i > 0 && (procs i).arrivalTime ≤ time)
    (fun i => (procs i).period) (List.finRange n) none 99999

def tick (procs : Fin n → Process) (time : Int) (sim : Sim n) : Sim n :=
  let released := release procs time sim
  match select procs time released.remaining with
  | some selected =>
      { released with
        remaining :=
          Function.update released.remaining selected (released.remaining selected - 1)
        trace := released.trace ++
          [{ time := time, pid := (procs selected).pid, algorithm := "RMS" }] }
  | none =>
      { released with
        trace := released.trace ++ [{ time := time, pid := -1, algorithm := "RMS" }] }

def head (procs : Fin n → Process) (trace : List TraceEntry) : ℕ → Sim n
  | 0 => start procs trace
  | t + 1 => tick procs t (head procs trace t)

def rmsScheduling (procs : Fin n → Process) (trace : List TraceEntry) (totalTime : ℕ) :
    List TraceEntry :=
  (head procs trace totalTime).trace

def appended (procs : Fin n → Process) (trace : List TraceEntry) (totalTime : ℕ) :
    List TraceEntry :=
  (rmsScheduling procs trace totalTime).drop trace.length

/-! ### The choice of a tick -/

def left (procs : Fin n → Process) (trace : List TraceEntry) (t : ℕ) : Fin n → Int :=
  (release procs t (head procs trace t)).remaining

def chosen (procs : Fin n → Process) (trace : List TraceEntry) (t : ℕ) : Option (Fin n) :=
  select procs t (left procs trace t)

/-- Priority by period, then by index. -/
def Above (procs : Fin n → Process) (j i : Fin n) : Prop :=
  (procs j).period < (procs i).period ∨ (procs j).period = (procs i).period ∧ j < i

instance (procs : Fin n → Process) : DecidableRel (Above procs) :=
  fun _ _ => inferInstanceAs (Decidable (_ ∨ _))

variable {procs : Fin n → Process} {trace : List TraceEntry}

theorem select_some {time : Int} {remaining : Fin n → Int} {j : Fin n}
    (found : select procs time remaining = some j) :
    0 < remaining j ∧ (procs j).arrivalTime ≤ time ∧
      ∀ i, 0 < remaining i → (procs i).arrivalTime ≤ time → j = i ∨ Above procs j i := by
  obtain ⟨-, eligible, -, least⟩ := scanLeast_some found
  obtain ⟨before, after, split, first⟩ := scanLeast_first found
  simp only [Bool.and_eq_true, decide_eq_true_eq] at eligible
  refine ⟨eligible.1, eligible.2, ?_⟩
  intro i some arrived
  have ready : (decide (remaining i > 0) && decide ((procs i).arrivalTime ≤ time)) = true := by
    simp [some, arrived]
  have bound := least i (List.mem_finRange i) ready
  have sorted := (List.sortedLT_finRange n).pairwise
  rw [split, List.pairwise_append, List.pairwise_cons] at sorted
  have member := List.mem_finRange i
  rw [split, List.mem_append, List.mem_cons] at member
  rcases member with earlier | same | later
  · exact Or.inr (Or.inl (first i earlier ready))
  · exact Or.inl same.symm
  · have order := sorted.2.1.1 i later
    right
    rcases Int.lt_or_eq_of_le bound with shorter | equal
    · exact Or.inl shorter
    · exact Or.inr ⟨equal, order⟩

theorem select_none {time : Int} {remaining : Fin n → Int}
    (nothing : select procs time remaining = none) {i : Fin n} (some : 0 < remaining i)
    (arrived : (procs i).arrivalTime ≤ time) : 99999 ≤ (procs i).period :=
  scanLeast_none nothing i (List.mem_finRange i) (by simp [some, arrived])

def entry (procs : Fin n → Process) (trace : List TraceEntry) (t : ℕ) : TraceEntry where
  time := t
  pid := ((chosen procs trace t).map fun i => (procs i).pid).getD (-1)
  algorithm := "RMS"

theorem head_succ (procs : Fin n → Process) (trace : List TraceEntry) (t : ℕ) :
    (∀ j, (head procs trace (t + 1)).remaining j =
      left procs trace t j - if chosen procs trace t = some j then 1 else 0) ∧
    (head procs trace (t + 1)).nextDeadline =
      (release procs t (head procs trace t)).nextDeadline ∧
    (head procs trace (t + 1)).trace = (head procs trace t).trace ++ [entry procs trace t] := by
  cases found : chosen procs trace t with
  | none =>
      have nobody : select procs t (release procs t (head procs trace t)).remaining = none := found
      simp only [head, tick, nobody, entry, found]
      refine ⟨?_, trivial, rfl⟩
      intro j
      simp [left]
  | some i =>
      have picked : select procs t (release procs t (head procs trace t)).remaining = some i :=
        found
      simp only [head, tick, picked, entry, found]
      refine ⟨?_, trivial, rfl⟩
      intro j
      by_cases same : j = i
      · subst j
        simp [left]
      · have other : i ≠ j := fun equal => same equal.symm
        simp [left, same, other]

/-! ### Releases -/

/-- What `next_deadline[i]` and `remaining[i]` are at the head of tick `t`. -/
structure Kept (procs : Fin n → Process) (sim : Sim n) (t : ℕ) (i : Fin n) : Prop where
  multiple : ∃ k : ℕ, sim.nextDeadline i =
    (procs i).arrivalTime + (procs i).period + k * (procs i).period
  ahead : t ≤ sim.nextDeadline i
  next : sim.nextDeadline i < t + (procs i).period ∨
    sim.nextDeadline i = (procs i).arrivalTime + (procs i).period
  waiting : t ≤ (procs i).arrivalTime → sim.remaining i = (procs i).burstTime

structure Periodic (procs : Fin n → Process) : Prop where
  arrival : ∀ i, 0 ≤ (procs i).arrivalTime
  period : ∀ i, 1 ≤ (procs i).period

structure Tasks (procs : Fin n → Process) : Prop where
  arrival : ∀ i, 0 ≤ (procs i).arrivalTime
  burst : ∀ i, 1 ≤ (procs i).burstTime
  period : ∀ i, 1 ≤ (procs i).period ∧ (procs i).period < 99999

theorem Tasks.periodic (tasks : Tasks procs) : Periodic procs where
  arrival := tasks.arrival
  period i := (tasks.period i).1

theorem Kept.due {sim : Sim n} {t : ℕ} {i : Fin n} (kept : Kept procs sim t i)
    (periodic : Periodic procs) :
    Due procs t sim i ↔ t = sim.nextDeadline i := by
  have ahead := kept.ahead
  have period := periodic.period i
  obtain ⟨k, same⟩ := kept.multiple
  have nonneg : (0 : Int) ≤ k * (procs i).period := Int.mul_nonneg (by omega) (by omega)
  constructor
  · rintro ⟨late, -⟩
    omega
  · intro now
    exact ⟨by omega, by omega⟩

theorem Kept.left {t : ℕ} {i : Fin n} (kept : Kept procs (head procs trace t) t i)
    (periodic : Periodic procs) : Rms.left procs trace t i =
      if t = (head procs trace t).nextDeadline i then (procs i).burstTime
      else (head procs trace t).remaining i := by
  simp only [Rms.left, release, kept.due periodic]

theorem kept_all (trace : List TraceEntry) (periodic : Periodic procs) (t : ℕ) (i : Fin n) :
    Kept procs (head procs trace t) t i := by
  have period := periodic.period i
  have arrival := periodic.arrival i
  induction t with
  | zero =>
      constructor
      · exact ⟨0, by simp [head, start]⟩
      · simp only [head, start]
        omega
      · exact Or.inr rfl
      · exact fun _ => rfl
  | succ t ih =>
      obtain ⟨remaining, deadline, -⟩ := head_succ procs trace t
      obtain ⟨k, same⟩ := ih.multiple
      have ahead := ih.ahead
      have left := ih.left periodic
      have nonneg : (0 : Int) ≤ k * (procs i).period := Int.mul_nonneg (by omega) (by omega)
      by_cases now : (t : Int) = (head procs trace t).nextDeadline i
      · have moved : (head procs trace (t + 1)).nextDeadline i =
            (head procs trace t).nextDeadline i + (procs i).period := by
          rw [deadline]
          exact if_pos ((ih.due periodic).mpr now)
        constructor
        · refine ⟨k + 1, ?_⟩
          rw [moved, same]
          push_cast
          rw [Int.add_mul, Int.one_mul]
          omega
        · rw [moved]
          push_cast
          omega
        · left
          rw [moved]
          push_cast
          omega
        · intro early
          push_cast at early
          omega
      · have kept : (head procs trace (t + 1)).nextDeadline i =
            (head procs trace t).nextDeadline i := by
          rw [deadline]
          exact if_neg fun due => now ((ih.due periodic).mp due)
        constructor
        · exact ⟨k, by rw [kept, same]⟩
        · rw [kept]
          push_cast
          omega
        · rw [kept]
          push_cast
          rcases ih.next with near | first
          · left
            omega
          · exact Or.inr first
        · intro early
          push_cast at early
          have nobody : chosen procs trace t ≠ some i := by
            intro here
            have arrived := (select_some here).2.1
            omega
          rw [remaining, if_neg nobody, left, if_neg now, ih.waiting (by omega)]
          omega

theorem releases_iff (trace : List TraceEntry) (periodic : Periodic procs) (t : ℕ) (i : Fin n) :
    Releases (procs i).arrivalTime.toNat (procs i).period.toNat t ↔
      (t : Int) = (procs i).arrivalTime ∨ (t : Int) = (head procs trace t).nextDeadline i := by
  have kept := kept_all trace periodic t i
  have period := periodic.period i
  have arrival := periodic.arrival i
  obtain ⟨k, same⟩ := kept.multiple
  have ahead := kept.ahead
  constructor
  · rintro ⟨arrived, multiple⟩
    have whole := Nat.div_add_mod (t - (procs i).arrivalTime.toNat) (procs i).period.toNat
    rw [multiple, Nat.add_zero, Nat.mul_comm] at whole
    generalize (t - (procs i).arrivalTime.toNat) / (procs i).period.toNat = m at whole
    have time : (t : Int) = (procs i).arrivalTime + m * (procs i).period := by
      have cast := congrArg (Nat.cast (R := ℤ)) whole
      push_cast at cast
      rw [Int.toNat_of_nonneg (by omega : 0 ≤ (procs i).period)] at cast
      omega
    cases m with
    | zero =>
        left
        simpa using time
    | succ m =>
        right
        push_cast at time
        rw [Int.add_mul, Int.one_mul] at time
        have upper : (m : Int) * (procs i).period ≤ k * (procs i).period := by omega
        have lower : (k : Int) * (procs i).period ≤ m * (procs i).period := by
          rcases kept.next with near | first
          · have less : (k : Int) * (procs i).period < (m + 1) * (procs i).period := by
              rw [Int.add_mul, Int.one_mul]
              omega
            have order := Int.lt_of_mul_lt_mul_right less (by omega)
            exact Int.mul_le_mul_of_nonneg_right (by omega) (by omega)
          · have nonneg : (0 : Int) ≤ m * (procs i).period := Int.mul_nonneg (by omega) (by omega)
            omega
        omega
  · intro which
    have multiple : ∃ m : ℕ, (t : Int) = (procs i).arrivalTime + m * (procs i).period := by
      rcases which with first | later
      · exact ⟨0, by simp [first]⟩
      · refine ⟨k + 1, ?_⟩
        push_cast
        rw [Int.add_mul, Int.one_mul]
        omega
    obtain ⟨m, time⟩ := multiple
    have cast : t = (procs i).arrivalTime.toNat + m * (procs i).period.toNat := by
      have back : ((m * (procs i).period.toNat : ℕ) : Int) = m * (procs i).period := by
        push_cast
        rw [Int.toNat_of_nonneg (by omega : 0 ≤ (procs i).period)]
      omega
    constructor
    · omega
    · rw [cast, Nat.add_sub_cancel_left, Nat.mul_mod_left]

theorem periodicJobs (trace : List TraceEntry) (periodic : Periodic procs) :
    PeriodicJobs (fun i => (procs i).arrivalTime.toNat) (fun i => (procs i).period.toNat)
      (fun i => (procs i).burstTime) (left procs trace) (chosen procs trace) where
  released := by
    intro t j release
    have kept := kept_all trace periodic t j
    rw [kept.left periodic]
    rcases (releases_iff trace periodic t j).mp release with first | due
    · split
      · rfl
      · exact kept.waiting (le_of_eq first)
    · rw [if_pos due]
  kept := by
    intro t j _ quiet
    have kept := kept_all trace periodic (t + 1) j
    rw [releases_iff trace periodic, not_or] at quiet
    rw [kept.left periodic, if_neg quiet.2, (head_succ procs trace t).1]

theorem fixedPriority (trace : List TraceEntry) (tasks : Tasks procs) :
    FixedPriority (fun i => (procs i).arrivalTime.toNat) (fun i => (procs i).period.toNat)
      (fun i => (procs i).burstTime) (Above procs) (left procs trace) (chosen procs trace) := by
  have early : ∀ {t : ℕ} {i : Fin n}, (procs i).arrivalTime.toNat ≤ t →
      (procs i).arrivalTime ≤ t := by
    intro t i arrived
    have arrival := tasks.arrival i
    omega
  constructor
  · intro j
    have period := (tasks.period j).1
    omega
  · intro j
    have burst := tasks.burst j
    omega
  · intro i above
    simp only [Above] at above
    omega
  · intro i j k first second
    simp only [Above] at first second ⊢
    omega
  · exact (periodicJobs trace tasks.periodic).released
  · exact (periodicJobs trace tasks.periodic).kept
  · intro t j here
    obtain ⟨some, arrived, -⟩ := select_some here
    exact ⟨by omega, some⟩
  · intro t i arrived some
    cases found : chosen procs trace t with
    | none =>
        have long := select_none found some (early arrived)
        have short := (tasks.period i).2
        omega
    | some j => exact ⟨j, rfl, (select_some found).2.2 i some (early arrived)⟩

/-! ### The trace -/

theorem appended_eq (procs : Fin n → Process) (trace : List TraceEntry) (t : ℕ) :
    appended procs trace t = (List.range t).map (entry procs trace) := by
  have whole : ∀ t, (head procs trace t).trace =
      trace ++ (List.range t).map (entry procs trace) := by
    intro t
    induction t with
    | zero => simp [head, start]
    | succ t ih =>
        rw [(head_succ procs trace t).2.2, ih, List.range_succ, List.map_append, List.append_assoc]
        rfl
  rw [appended, rmsScheduling, whole, List.drop_left]

/-- The entries of a task with a time from `r` to `last`, without the latter. -/
def entriesOf (procs : Fin n → Process) (entries : List TraceEntry) (i : Fin n) (r last : Int) :
    List TraceEntry :=
  entries.filter fun e => e.pid = (procs i).pid && r ≤ e.time && e.time < last

theorem length_entriesOf (distinct : Function.Injective fun i => (procs i).pid) {i : Fin n}
    (named : (procs i).pid ≠ -1) {r last total : ℕ} (within : last ≤ total) :
    (entriesOf procs (appended procs trace total) i r last).length =
      (FixedPriority.ticks (chosen procs trace) i r last).card := by
  have same : ∀ t, (entry procs trace t).pid = (procs i).pid ↔ chosen procs trace t = some i := by
    intro t
    simp only [entry]
    cases chosen procs trace t with
    | none =>
        simp only [Option.map_none, Option.getD_none, reduceCtorEq, iff_false]
        exact fun idle => named idle.symm
    | some j =>
        simp only [Option.map_some, Option.getD_some, Option.some.injEq]
        exact ⟨fun equal => distinct equal, fun equal => by rw [equal]⟩
  have ticks : FixedPriority.ticks (chosen procs trace) i r last =
      ((List.range total).filter fun t =>
        decide ((entry procs trace t).pid = (procs i).pid) && decide ((r : Int) ≤ t) &&
          decide ((t : Int) < last)).toFinset := by
    ext t
    simp only [FixedPriority.ticks, Finset.mem_filter, Finset.mem_Ico, List.mem_toFinset,
      List.mem_filter, List.mem_range, Bool.and_eq_true, decide_eq_true_eq, same]
    constructor
    · rintro ⟨⟨lower, upper⟩, here⟩
      exact ⟨by omega, ⟨here, by omega⟩, by omega⟩
    · rintro ⟨-, ⟨here, lower⟩, upper⟩
      exact ⟨⟨by omega, by omega⟩, here⟩
  have distinct : ((List.range total).filter fun t =>
      decide ((entry procs trace t).pid = (procs i).pid) && decide ((r : Int) ≤ t) &&
        decide ((t : Int) < last)).Nodup := List.nodup_range.filter _
  rw [ticks, List.toFinset_card_of_nodup distinct, entriesOf, appended_eq, List.filter_map,
    List.length_map]
  rfl

/-! ### The time-demand test -/

/-- The burst of the task, and of each task above it as many as periods begin in `t` ticks. -/
def demand (procs : Fin n → Process) (i : Fin n) (t : Int) : Int :=
  (procs i).burstTime + ∑ j ∈ Finset.univ.filter (Above procs · i),
    (t + (procs j).period - 1) / (procs j).period * (procs j).burstTime

theorem demand_eq (tasks : Tasks procs) (i : Fin n) (t : ℕ) :
    demand procs i t = FixedPriority.demand (fun i => (procs i).period.toNat)
      (fun i => (procs i).burstTime) (Above procs) i t := by
  rw [demand, FixedPriority.demand]
  congr 1
  apply Finset.sum_congr rfl
  intro j _
  have period := (tasks.period j).1
  have whole : ((t + (procs j).period.toNat - 1 : ℕ) : Int) = t + (procs j).period - 1 := by omega
  rw [Int.natCast_div, whole, Int.toNat_of_nonneg (by omega)]

/-- When every task passes the time-demand test, each gets its burst in every one of its periods
that the simulation covers, whatever the arrivals are. In the trace `-1` stands for idle. -/
theorem bursts_met (procs : Fin n → Process) (trace : List TraceEntry) (totalTime : ℕ)
    (tasks : Tasks procs) (distinct : Function.Injective fun i => (procs i).pid)
    (test : ∀ i, ∃ t, 1 ≤ t ∧ t ≤ (procs i).period ∧ demand procs i t ≤ t) (i : Fin n) (k : ℕ)
    (covered : (procs i).arrivalTime + k * (procs i).period + (procs i).period ≤ totalTime) :
    (((Finset.range totalTime).filter fun time : ℕ => chosen procs trace time = some i ∧
      (procs i).arrivalTime + k * (procs i).period ≤ time ∧
      time < (procs i).arrivalTime + k * (procs i).period + (procs i).period).card : Int) =
        (procs i).burstTime ∧
    ((procs i).pid ≠ -1 → ((entriesOf procs (appended procs trace totalTime) i
      ((procs i).arrivalTime + k * (procs i).period)
      ((procs i).arrivalTime + k * (procs i).period + (procs i).period)).length : Int) =
        (procs i).burstTime) := by
  have period := (tasks.period i).1
  have arrival := tasks.arrival i
  have nonneg : (0 : Int) ≤ k * (procs i).period := Int.mul_nonneg (by omega) (by omega)
  obtain ⟨r, start⟩ : ∃ r : ℕ, (r : Int) = (procs i).arrivalTime + k * (procs i).period :=
    ⟨((procs i).arrivalTime + k * (procs i).period).toNat, by omega⟩
  have last : ((r + (procs i).period.toNat : ℕ) : Int) = r + (procs i).period := by omega
  have release : Releases (procs i).arrivalTime.toNat (procs i).period.toNat r := by
    have shift : r = (procs i).arrivalTime.toNat + k * (procs i).period.toNat := by
      have back : ((k * (procs i).period.toNat : ℕ) : Int) = k * (procs i).period := by
        push_cast
        rw [Int.toNat_of_nonneg (by omega : 0 ≤ (procs i).period)]
      omega
    constructor
    · omega
    · rw [shift, Nat.add_sub_cancel_left, Nat.mul_mod_left]
  obtain ⟨t, positive, within, fits⟩ := test i
  obtain ⟨window, size⟩ : ∃ window : ℕ, (window : Int) = t := ⟨t.toNat, by omega⟩
  rw [← size, demand_eq tasks] at fits
  have complete := (fixedPriority trace tasks).job_complete window (by omega) fits
    release
  rw [← start]
  constructor
  · rw [← complete]
    congr 2
    ext u
    simp only [FixedPriority.ticks, Finset.mem_filter, Finset.mem_range, Finset.mem_Ico]
    constructor
    · rintro ⟨-, here, lower, upper⟩
      exact ⟨⟨by omega, by omega⟩, here⟩
    · rintro ⟨⟨lower, upper⟩, here⟩
      exact ⟨by omega, here, by omega, by omega⟩
  · intro named
    rw [← last, length_entriesOf distinct named (by omega)]
    exact complete

/-- The second task arrives at 1 and needs the whole of `[1, 4)` when the first is released at
3. -/
def twoTasks : Fin 2 → Process := ![
  { pid := 1, burstTime := 1, arrivalTime := 0, tickets := 0, period := 3, remainingTime := 1 },
  { pid := 2, burstTime := 2, arrivalTime := 1, tickets := 0, period := 5, remainingTime := 2 }]

theorem bursts_met_twoTasks :
    (((Finset.range 20).filter fun time : ℕ => chosen twoTasks [] time = some 1 ∧
      (1 : Int) + (2 : ℕ) * 5 ≤ time ∧ time < (1 : Int) + (2 : ℕ) * 5 + 5).card : Int) = 2 ∧
    ((2 : Int) ≠ -1 → ((entriesOf twoTasks (appended twoTasks [] 20) 1
      (1 + (2 : ℕ) * 5) (1 + (2 : ℕ) * 5 + 5)).length : Int) = 2) := by
  refine bursts_met twoTasks [] 20 ?_ ?_ ?_ 1 2 (by decide)
  · constructor <;> intro i <;> fin_cases i <;> decide
  · intro i j same
    fin_cases i <;> fin_cases j <;> simp_all [twoTasks]
  · intro i
    fin_cases i
    · exact ⟨1, by decide⟩
    · exact ⟨3, by decide⟩

end Rms

end OsLab.Vijay
