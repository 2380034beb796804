import OsLab.Library.Drawing
import OsLab.Library.Loop
import OsLab.Vijay.Rms

/-!
`lottery_scheduling` of `Vijay/algorithms.c`, for any number of processes, any simulation time and
any results of `rand()`. It leaves its loop when nobody who has arrived has work left, also when
somebody is still to arrive.
-/

namespace OsLab.Vijay.Lottery

open OsLab.Library

/-- `remaining_time` of `procs[]`, the only field that changes, and the entries of `trace[]`. -/
structure Sim (n : ℕ) where
  remainingTime : Fin n → Int
  trace : List TraceEntry

variable {n : ℕ}

def start (procs : Fin n → Process) (trace : List TraceEntry) : Sim n where
  remainingTime i := (procs i).remainingTime
  trace := trace

def eligible (procs : Fin n → Process) (time : ℕ) (sim : Sim n) (i : Fin n) : Bool :=
  sim.remainingTime i > 0 && (procs i).arrivalTime ≤ time

def totalTickets (procs : Fin n → Process) (time : ℕ) (sim : Sim n) : Int :=
  sumWeights (· + ·) (eligible procs time sim) (fun i => (procs i).tickets) (List.finRange n) 0

def serve (procs : Fin n → Process) (time : ℕ) (sim : Sim n) (found : Fin n) : Sim n where
  remainingTime := Function.update sim.remainingTime found (sim.remainingTime found - 1)
  trace := sim.trace ++ [{ time := time, pid := (procs found).pid, algorithm := "Lottery" }]

/-- The body of the loop over `time`; `none` is the `break`. Each round calls `rand()` once. -/
def tick (procs : Fin n → Process) (rand : ℕ → ℕ) (time : ℕ) (sim : Sim n) : Option (Sim n) :=
  let total := totalTickets procs time sim
  if total = 0 then none
  else
    let running := (rand time : Int).tmod total
    match scanDrawn (· + ·) (eligible procs time sim) (fun i => (procs i).tickets) running
      (List.finRange n) 0 with
    | some found => some (serve procs time sim found)
    | none => some sim

/-- The last state, and the time of the `break`, if any. -/
def lotteryScheduling (procs : Fin n → Process) (trace : List TraceEntry) (rand : ℕ → ℕ)
    (totalTime : ℕ) : Sim n × Option ℕ :=
  forLoop (tick procs rand) totalTime 0 (start procs trace)

/-! ### A tick -/

structure Fresh (process : Process) : Prop where
  burst : 1 ≤ process.burstTime
  whole : process.remainingTime = process.burstTime
  arrival : 0 ≤ process.arrivalTime
  tickets : 1 ≤ process.tickets

variable {procs : Fin n → Process} {trace : List TraceEntry} {rand : ℕ → ℕ}

theorem totalTickets_pos (fresh : ∀ i, Fresh (procs i)) (time : ℕ) (sim : Sim n) :
    0 ≤ totalTickets procs time sim ∧ (totalTickets procs time sim = 0 →
      ∀ i, eligible procs time sim i = false) := by
  refine ⟨sumWeights_ge fun i _ _ => (fresh i).tickets.trans' zero_le_one, ?_⟩
  intro zero i
  exact sumWeights_zero (fun i _ _ => (fresh i).tickets) zero i (List.mem_finRange i)

theorem tick_cases (fresh : ∀ i, Fresh (procs i)) (rand : ℕ → ℕ) (time : ℕ) (sim : Sim n) :
    (tick procs rand time sim = none ∧
      ∀ i, (procs i).arrivalTime ≤ time → sim.remainingTime i ≤ 0) ∨
    ∃ i, tick procs rand time sim = some (serve procs time sim i) ∧
      0 < sim.remainingTime i ∧ (procs i).arrivalTime ≤ time := by
  obtain ⟨nonneg, nobody⟩ := totalTickets_pos fresh time sim
  by_cases zero : totalTickets procs time sim = 0
  · left
    refine ⟨by simp [tick, zero], ?_⟩
    intro i arrived
    have idle := nobody zero i
    simp only [eligible, Bool.and_eq_false_imp, decide_eq_true_eq, decide_eq_false_iff_not] at idle
    by_contra some
    exact idle (by omega) arrived
  · right
    have lower : 0 ≤ (rand time : Int).tmod (totalTickets procs time sim) :=
      Int.tmod_nonneg _ (Int.natCast_nonneg _)
    have upper : (rand time : Int).tmod (totalTickets procs time sim) <
        totalTickets procs time sim := Int.tmod_lt_of_pos _ (by omega)
    obtain ⟨i, found⟩ := scanDrawn_found lower upper
    obtain ⟨-, ready⟩ := scanDrawn_some found
    simp only [eligible, Bool.and_eq_true, decide_eq_true_eq] at ready
    exact ⟨i, by simp only [tick, if_neg zero, found], ready.1, ready.2⟩

/-! ### The run -/

/-- What the entries of a call say, with `remaining` the work left at its end. -/
structure Records (procs : Fin n → Process) (remaining : Fin n → Int)
    (entries : List TraceEntry) : Prop where
  increasing : entries.Pairwise fun first second => first.time < second.time
  arrived : ∀ e ∈ entries, ∀ i, e.pid = (procs i).pid → (procs i).arrivalTime ≤ e.time
  counted : ∀ i, ((entries.countP fun e => e.pid = (procs i).pid : ℕ) : Int) =
    (procs i).burstTime - remaining i

def arrivedWork (procs : Fin n → Process) (t : ℕ) : Int :=
  ∑ i with (procs i).arrivalTime ≤ t, (procs i).burstTime

/-- What holds at the head of tick `t`: every tick before it has served somebody. -/
structure Inv (procs : Fin n → Process) (trace : List TraceEntry) (t : ℕ) (sim : Sim n) :
    Prop where
  nonneg : ∀ i, 0 ≤ sim.remainingTime i
  waiting : ∀ i, (t : Int) ≤ (procs i).arrivalTime → sim.remainingTime i = (procs i).burstTime
  served : ∑ i, ((procs i).burstTime - sim.remainingTime i) = t
  busy : ∀ u < t, (u : Int) < arrivedWork procs u
  recorded : ∃ entries, sim.trace = trace ++ entries ∧ Records procs sim.remainingTime entries ∧
    ∀ e ∈ entries, e.time < t

theorem start_inv (fresh : ∀ i, Fresh (procs i)) : Inv procs trace 0 (start procs trace) := by
  have whole : ∀ i, (start procs trace).remainingTime i = (procs i).burstTime :=
    fun i => (fresh i).whole
  constructor
  · intro i
    have burst := (fresh i).burst
    rw [whole]
    omega
  · exact fun i _ => whole i
  · simp [whole]
  · intro u before
    omega
  · refine ⟨[], by simp [start], ?_, by simp⟩
    constructor
    · exact List.Pairwise.nil
    · simp
    · simp [whole]

theorem Inv.arrivedWork_eq {t : ℕ} {sim : Sim n} (inv : Inv procs trace t sim) :
    arrivedWork procs t = t + ∑ i with (procs i).arrivalTime ≤ t, sim.remainingTime i := by
  have later : ∑ i with ¬ (procs i).arrivalTime ≤ t,
      ((procs i).burstTime - sim.remainingTime i) = 0 := by
    apply Finset.sum_eq_zero
    intro i absent
    have after := (Finset.mem_filter.mp absent).2
    rw [inv.waiting i (by omega), sub_self]
  have split := Finset.sum_filter_add_sum_filter_not Finset.univ
    (fun i => (procs i).arrivalTime ≤ (t : Int))
    fun i => (procs i).burstTime - sim.remainingTime i
  rw [later, inv.served, Finset.sum_sub_distrib] at split
  rw [arrivedWork]
  omega

theorem Records.serve {t : ℕ} {sim : Sim n} {entries : List TraceEntry}
    (distinct : Function.Injective fun i => (procs i).pid)
    (records : Records procs sim.remainingTime entries) (before : ∀ e ∈ entries, e.time < t)
    {found : Fin n} (arrived : (procs found).arrivalTime ≤ t) :
    Records procs (serve procs t sim found).remainingTime
      (entries ++ [{ time := t, pid := (procs found).pid, algorithm := "Lottery" }]) := by
  constructor
  · rw [List.pairwise_append]
    refine ⟨records.increasing, List.pairwise_singleton _ _, ?_⟩
    intro first member second last
    rw [List.mem_singleton] at last
    subst second
    exact before first member
  · intro e member i named
    rcases List.mem_append.mp member with earlier | last
    · exact records.arrived e earlier i named
    · rw [List.mem_singleton] at last
      subst e
      rw [← distinct named]
      exact arrived
  · intro i
    rw [List.countP_append, Nat.cast_add, records.counted i]
    by_cases same : i = found
    · subst i
      simp [Lottery.serve]
      omega
    · have other : (procs found).pid ≠ (procs i).pid := fun equal => same (distinct equal).symm
      simp [Lottery.serve, same, other]

theorem Inv.tick {t : ℕ} {sim next : Sim n} (inv : Inv procs trace t sim)
    (fresh : ∀ i, Fresh (procs i)) (distinct : Function.Injective fun i => (procs i).pid)
    (step : tick procs rand t sim = some next) : Inv procs trace (t + 1) next := by
  rcases tick_cases fresh rand t sim with ⟨stopped, -⟩ | ⟨found, served, some, arrived⟩
  · rw [stopped] at step
    cases step
  · rw [served, Option.some.injEq] at step
    subst next
    have others : ∀ i, i ≠ found →
        (serve procs t sim found).remainingTime i = sim.remainingTime i :=
      fun i other => Function.update_of_ne other _ _
    have mine : (serve procs t sim found).remainingTime found = sim.remainingTime found - 1 :=
      Function.update_self _ _ _
    constructor
    · intro i
      by_cases same : i = found
      · subst i
        omega
      · rw [others i same]
        exact inv.nonneg i
    · intro i early
      push_cast at early
      rw [others i (by rintro rfl; omega)]
      exact inv.waiting i (by omega)
    · have member := Finset.mem_univ found
      have total := inv.served
      rw [← Finset.add_sum_erase _ _ member] at total ⊢
      have rest : ∑ i ∈ Finset.univ.erase found,
          ((procs i).burstTime - (serve procs t sim found).remainingTime i) =
            ∑ i ∈ Finset.univ.erase found, ((procs i).burstTime - sim.remainingTime i) :=
        Finset.sum_congr rfl fun i other => by rw [others i (Finset.ne_of_mem_erase other)]
      rw [rest, mine]
      push_cast
      omega
    · intro u before
      by_cases last : u = t
      · subst u
        have positive : 0 < ∑ i with (procs i).arrivalTime ≤ t, sim.remainingTime i :=
          Finset.sum_pos' (fun i _ => inv.nonneg i)
            ⟨found, Finset.mem_filter.mpr ⟨Finset.mem_univ found, arrived⟩, some⟩
        rw [inv.arrivedWork_eq]
        omega
      · exact inv.busy u (by omega)
    · obtain ⟨entries, whole, records, before⟩ := inv.recorded
      refine ⟨entries ++ [{ time := t, pid := (procs found).pid, algorithm := "Lottery" }], ?_,
        records.serve distinct before arrived, ?_⟩
      · simp [serve, whole]
      · intro e member
        rcases List.mem_append.mp member with earlier | last
        · have bound := before e earlier
          push_cast
          omega
        · rw [List.mem_singleton] at last
          subst e
          push_cast
          omega

/-- What a call is meant to do: the loop is left early only when all are done, and the entries say
who ran. -/
structure Faithful (procs : Fin n → Process) (trace : List TraceEntry) (rand : ℕ → ℕ)
    (totalTime : ℕ) : Prop where
  done : (lotteryScheduling procs trace rand totalTime).2 ≠ none →
    ∀ i, (lotteryScheduling procs trace rand totalTime).1.remainingTime i = 0
  recorded : ∃ entries, (lotteryScheduling procs trace rand totalTime).1.trace = trace ++ entries ∧
    Records procs (lotteryScheduling procs trace rand totalTime).1.remainingTime entries

/-- Whenever the work of those who have arrived fits in the time that has passed, all have arrived. -/
def GapFree (procs : Fin n → Process) (totalTime : ℕ) : Prop :=
  ∀ t < totalTime, arrivedWork procs t ≤ t → ∀ i, (procs i).arrivalTime ≤ t

instance (procs : Fin n → Process) (totalTime : ℕ) : Decidable (GapFree procs totalTime) :=
  inferInstanceAs (Decidable (∀ t < totalTime, _ → _))

theorem lotteryScheduling_cases (trace : List TraceEntry) (rand : ℕ → ℕ) (totalTime : ℕ)
    (fresh : ∀ i, Fresh (procs i)) (distinct : Function.Injective fun i => (procs i).pid) :
    ∃ final left, lotteryScheduling procs trace rand totalTime = (final, left) ∧
      ((left = none ∧ Inv procs trace totalTime final) ∨
        ∃ t < totalTime, left = some t ∧ Inv procs trace t final ∧
          ∀ i, (procs i).arrivalTime ≤ t → final.remainingTime i = 0) := by
  obtain ⟨final, left, result⟩ : ∃ final left,
      lotteryScheduling procs trace rand totalTime = (final, left) := ⟨_, _, rfl⟩
  refine ⟨final, left, result, ?_⟩
  have steps : ∀ (t : ℕ) (sim next : Sim n), Inv procs trace t sim →
      tick procs rand t sim = some next → Inv procs trace (t + 1) next :=
    fun t sim next inv step => inv.tick fresh distinct step
  rcases forLoop_sound steps (start_inv fresh) result with
    ⟨whole, inv⟩ | ⟨t, early, -, before, inv, stopped⟩
  · left
    rw [Nat.zero_add] at inv
    exact ⟨whole, inv⟩
  · right
    refine ⟨t, by omega, early, inv, ?_⟩
    intro i arrived
    rcases tick_cases fresh rand t final with ⟨-, idle⟩ | ⟨found, served, -⟩
    · have lower := inv.nonneg i
      have upper := idle i arrived
      omega
    · rw [served] at stopped
      cases stopped

/-- The lottery does what it is meant to do exactly when no gap comes before the last arrival. -/
theorem lottery_done_iff (procs : Fin n → Process) (trace : List TraceEntry) (rand : ℕ → ℕ)
    (totalTime : ℕ) (fresh : ∀ i, Fresh (procs i))
    (distinct : Function.Injective fun i => (procs i).pid) :
    Faithful procs trace rand totalTime ↔ GapFree procs totalTime := by
  obtain ⟨final, left, result, cases⟩ :=
    lotteryScheduling_cases trace rand totalTime fresh distinct
  constructor
  · intro faithful t before fits i
    have done := faithful.done
    rw [result] at done
    rcases cases with ⟨-, inv⟩ | ⟨stop, -, early, inv, -⟩
    · have busy := inv.busy t before
      omega
    · by_contra absent
      have past : stop ≤ t := by
        by_contra later
        have busy := inv.busy t (by omega)
        omega
      have zero := done (by simp [early]) i
      have burst := (fresh i).burst
      rw [inv.waiting i (by omega)] at zero
      omega
  · intro gapFree
    rcases cases with ⟨whole, inv⟩ | ⟨stop, before, early, inv, idle⟩
    · obtain ⟨entries, all, records, -⟩ := inv.recorded
      constructor
      · rw [result]
        exact fun some => absurd whole some
      · rw [result]
        exact ⟨entries, all, records⟩
    · obtain ⟨entries, all, records, -⟩ := inv.recorded
      have fits : arrivedWork procs stop ≤ stop := by
        rw [inv.arrivedWork_eq, Finset.sum_eq_zero fun i arrived =>
          idle i (Finset.mem_filter.mp arrived).2]
        omega
      constructor
      · rw [result]
        exact fun _ i => idle i (gapFree stop before fits i)
      · rw [result]
        exact ⟨entries, all, records⟩

def overlapping : Fin 2 → Process := ![
  { pid := 1, burstTime := 3, arrivalTime := 0, tickets := 5, period := 0, remainingTime := 3 },
  { pid := 2, burstTime := 2, arrivalTime := 2, tickets := 9, period := 0, remainingTime := 2 }]

theorem lottery_done_iff_overlapping : Faithful overlapping [] (fun k => 7 * k + 3) 20 := by
  refine (lottery_done_iff overlapping [] (fun k => 7 * k + 3) 20 ?_ ?_).mpr (by decide)
  · intro i
    fin_cases i <;> constructor <;> decide
  · intro i j same
    fin_cases i <;> fin_cases j <;> simp_all [overlapping]

def late : Fin 1 → Process := ![
  { pid := 1, burstTime := 1, arrivalTime := 1, tickets := 1, period := 0, remainingTime := 1 }]

/-- Nobody is there in the first tick: the loop is left for good. -/
theorem lottery_stops_early : (∀ i, Fresh (late i)) ∧
    (Function.Injective fun i => (late i).pid) ∧ ¬ Faithful late [] (fun _ => 0) 10 := by
  refine ⟨?_, fun i j _ => Subsingleton.elim i j, ?_⟩
  · intro i
    fin_cases i
    constructor <;> decide
  · intro faithful
    have zero := faithful.done (by decide) 0
    revert zero
    decide

end OsLab.Vijay.Lottery
