import OsLab.Library.Prescribed
import OsLab.Vijay.Rms
import Mathlib.Data.Prod.Lex

/-!
The trace of `rms_scheduling` against the rule it stands for: at each tick the arrived task of the
least period, then index, whose current job is unfinished. The selection starts from 99999, so
tasks with that period or a longer one never get the CPU.
-/

namespace OsLab.Vijay.Rms

open OsLab.Library

variable {n : ℕ}

/-! ### The rule -/

/-- The task of the least period, then index, among the ready ones. -/
def highest (procs : Fin n → Process) (ready : Fin n → Bool) : Option (Fin n) :=
  (List.finRange n).find? fun i => ready i ∧ ∀ j, ready j = true → i = j ∨ Above procs i j

def ruled (procs : Fin n → Process) : ℕ → Option (Fin n) :=
  prescribedAt (fun i => (procs i).arrivalTime.toNat) (fun i => (procs i).period.toNat)
    (fun i => (procs i).burstTime) (highest procs)

def ruledEntry (procs : Fin n → Process) (t : ℕ) : TraceEntry where
  time := t
  pid := ((ruled procs t).map fun i => (procs i).pid).getD (-1)
  algorithm := "RMS"

variable {procs : Fin n → Process} {trace : List TraceEntry}

theorem highest_some {ready : Fin n → Bool} {i : Fin n} (found : highest procs ready = some i) :
    ready i = true ∧ ∀ j, ready j = true → i = j ∨ Above procs i j := by
  have holds := List.find?_some found
  simpa using holds

theorem highest_none {ready : Fin n → Bool} (nothing : highest procs ready = none) (i : Fin n) :
    ready i = false := by
  by_contra some
  have candidates : (Finset.univ.filter fun j => ready j = true).Nonempty :=
    ⟨i, by simpa using some⟩
  obtain ⟨j, member, least⟩ := Finset.exists_min_image _
    (fun j => toLex ((procs j).period, j)) candidates
  have missed := List.find?_eq_none.mp nothing j (List.mem_finRange j)
  refine missed (decide_eq_true ⟨(Finset.mem_filter.mp member).2, ?_⟩)
  intro k eligible
  have order := least k (Finset.mem_filter.mpr ⟨Finset.mem_univ k, eligible⟩)
  rw [Prod.Lex.toLex_le_toLex] at order
  rcases order with shorter | ⟨same, before⟩
  · exact Or.inr (Or.inl shorter)
  · rcases before.eq_or_lt with equal | less
    · exact Or.inl equal
    · exact Or.inr (Or.inr ⟨same, less⟩)

theorem Above.asymm {i j : Fin n} (first : Above procs i j) : ¬ Above procs j i := by
  intro second
  simp only [Above] at first second
  omega

theorem select_short {time : Int} {remaining : Fin n → Int} {j : Fin n}
    (found : select procs time remaining = some j) : (procs j).period < 99999 :=
  (scanLeast_some found).2.2.1

/-! ### One tick -/

/-- As long as the choices have followed the rule, the tasks with work left are those it is about. -/
theorem ready_iff (trace : List TraceEntry) (periodic : Periodic procs) {t : ℕ}
    (followed : ∀ u < t, chosen procs trace u = ruled procs u) (i : Fin n) :
    unfinished (fun i => (procs i).arrivalTime.toNat) (fun i => (procs i).period.toNat)
      (fun i => (procs i).burstTime) (prescribed (fun i => (procs i).arrivalTime.toNat)
        (fun i => (procs i).period.toNat) (fun i => (procs i).burstTime) (highest procs) t) i =
          true ↔ (procs i).arrivalTime ≤ t ∧ 0 < left procs trace t i := by
  have positive : ∀ i, 0 < (procs i).period.toNat := by
    intro i
    have period := periodic.period i
    omega
  rw [(periodicJobs trace periodic).unfinished_iff positive followed]
  have arrival := periodic.arrival i
  apply and_congr_left
  intro _
  omega

/-- The next choice follows the rule when that picks a task below the sentinel, or nobody. -/
theorem chosen_eq (trace : List TraceEntry) (periodic : Periodic procs) {t : ℕ}
    (followed : ∀ u < t, chosen procs trace u = ruled procs u)
    (short : ∀ i, ruled procs t = some i → (procs i).period < 99999) :
    chosen procs trace t = ruled procs t := by
  cases rule : ruled procs t with
  | none =>
      by_contra picked
      obtain ⟨j, found⟩ := Option.ne_none_iff_exists'.mp picked
      obtain ⟨some, arrived, -⟩ := select_some found
      have idle := highest_none rule j
      rw [← Bool.not_eq_true, ready_iff trace periodic followed] at idle
      exact idle ⟨arrived, some⟩
  | some i =>
      obtain ⟨ready, first⟩ := highest_some rule
      obtain ⟨arrived, some⟩ := (ready_iff trace periodic followed i).mp ready
      cases found : chosen procs trace t with
      | none =>
          have long := select_none found some arrived
          have less := short i rule
          omega
      | some j =>
          obtain ⟨work, here, least⟩ := select_some found
          rcases least i some arrived with same | above
          · rw [same]
          · rcases first j ((ready_iff trace periodic followed j).mpr ⟨here, work⟩) with
              same | below
            · rw [same]
            · exact absurd below above.asymm

theorem chosen_long (trace : List TraceEntry) (periodic : Periodic procs) {t : ℕ} {i : Fin n}
    (followed : ∀ u < t, chosen procs trace u = ruled procs u) (rule : ruled procs t = some i)
    (long : 99999 ≤ (procs i).period) : chosen procs trace t = none := by
  by_contra picked
  obtain ⟨j, found⟩ := Option.ne_none_iff_exists'.mp picked
  obtain ⟨some, arrived, -⟩ := select_some found
  have less := select_short found
  rcases (highest_some rule).2 j ((ready_iff trace periodic followed j).mpr ⟨arrived, some⟩) with
    same | above
  · rw [same] at long
    omega
  · simp only [Above] at above
    omega

/-! ### The trace -/

theorem releases_iff_exists (periodic : Periodic procs) (t : ℕ) (i : Fin n) :
    Releases (procs i).arrivalTime.toNat (procs i).period.toNat t ↔
      ∃ k : ℕ, (t : Int) = (procs i).arrivalTime + k * (procs i).period := by
  obtain ⟨arrival, first⟩ := Int.eq_ofNat_of_zero_le (periodic.arrival i)
  obtain ⟨period, length⟩ : ∃ period : ℕ, (procs i).period = period :=
    Int.eq_ofNat_of_zero_le (by have bound := periodic.period i; omega)
  rw [first, length, Int.toNat_natCast, Int.toNat_natCast]
  constructor
  · rintro ⟨arrived, multiple⟩
    obtain ⟨k, whole⟩ := Nat.dvd_of_mod_eq_zero multiple
    refine ⟨k, ?_⟩
    have shift : t = arrival + k * period := by
      rw [Nat.mul_comm]
      omega
    exact_mod_cast shift
  · rintro ⟨k, time⟩
    have shift : t = arrival + k * period := by exact_mod_cast time
    refine ⟨by omega, ?_⟩
    rw [shift, Nat.add_sub_cancel_left, Nat.mul_mod_left]

/-- The current job of the task begins in tick `t`: it arrives, or the loop releases it again. -/
def Begins (procs : Fin n → Process) (trace : List TraceEntry) (t : ℕ) (i : Fin n) : Prop :=
  (t : Int) = (procs i).arrivalTime ∨ Due procs t (head procs trace t) i

structure Specified (procs : Fin n → Process) (trace : List TraceEntry) (totalTime : ℕ) :
    Prop where
  length : (appended procs trace totalTime).length = totalTime
  begins : ∀ t < totalTime, ∀ i, Begins procs trace t i ↔
    ∃ k : ℕ, (t : Int) = (procs i).arrivalTime + k * (procs i).period
  replaced : ∀ t < totalTime, ∀ i, Begins procs trace t i →
    left procs trace t i = (procs i).burstTime
  entries : ∀ t < totalTime, (appended procs trace totalTime)[t]? = some (ruledEntry procs t)
  idle : ∀ t < totalTime, ∀ e, (appended procs trace totalTime)[t]? = some e →
    (e.pid = -1 ↔ ruled procs t = none)

/-- The rule picks no task that the selection passes over, nor one that is named like an idle
tick. -/
def Representable (procs : Fin n → Process) (totalTime : ℕ) : Prop :=
  ∀ t < totalTime, ∀ i, ruled procs t = some i →
    (procs i).period < 99999 ∧ (procs i).pid ≠ -1

instance (procs : Fin n → Process) (totalTime : ℕ) : Decidable (Representable procs totalTime) :=
  inferInstanceAs (Decidable (∀ t < totalTime, ∀ _, _ → _))

theorem begins_iff (trace : List TraceEntry) (periodic : Periodic procs) (t : ℕ) (i : Fin n) :
    Begins procs trace t i ↔
      Releases (procs i).arrivalTime.toNat (procs i).period.toNat t := by
  rw [releases_iff trace periodic, Begins, (kept_all trace periodic t i).due periodic]

theorem appended_get (procs : Fin n → Process) (trace : List TraceEntry) {t totalTime : ℕ}
    (before : t < totalTime) :
    (appended procs trace totalTime)[t]? = some (entry procs trace t) := by
  rw [appended_eq, List.getElem?_map, List.getElem?_range before]
  rfl

theorem followed (trace : List TraceEntry) (periodic : Periodic procs) {totalTime : ℕ}
    (short : ∀ t < totalTime, ∀ i, ruled procs t = some i → (procs i).period < 99999) :
    ∀ t < totalTime, chosen procs trace t = ruled procs t := by
  intro t
  induction t using Nat.strongRecOn with
  | ind t ih =>
      intro before
      exact chosen_eq trace periodic (fun u earlier => ih u earlier (by omega)) (short t before)

/-- The trace is the one the rule gives exactly when, before the end of the simulation, the rule
picks no task with a period of 99999 or more (and none whose pid means idle). -/
theorem trace_specified_iff (procs : Fin n → Process) (trace : List TraceEntry) (totalTime : ℕ)
    (periodic : Periodic procs) :
    Specified procs trace totalTime ↔ Representable procs totalTime := by
  constructor
  · intro specified t
    induction t using Nat.strongRecOn with
    | ind t ih =>
        intro before i rule
        have agreed : ∀ u < t, chosen procs trace u = ruled procs u :=
          followed trace periodic fun u earlier j here => (ih u earlier (by omega) j here).1
        have named := specified.idle t before (ruledEntry procs t) (specified.entries t before)
        have pid : (ruledEntry procs t).pid = (procs i).pid := by simp [ruledEntry, rule]
        rw [pid, rule, iff_false_right (by simp)] at named
        refine ⟨?_, named⟩
        by_contra long
        have nobody := chosen_long trace periodic agreed rule (by omega)
        have same := specified.entries t before
        rw [appended_get procs trace before, Option.some.injEq] at same
        have idle : (entry procs trace t).pid = -1 := by simp [entry, nobody]
        rw [same, pid] at idle
        exact named idle
  · intro representable
    have choices := followed trace periodic fun t before i rule =>
      (representable t before i rule).1
    have entries : ∀ t < totalTime, entry procs trace t = ruledEntry procs t := by
      intro t before
      rw [entry, choices t before, ruledEntry]
    constructor
    · rw [appended_eq, List.length_map, List.length_range]
    · intro t _ i
      rw [begins_iff trace periodic, releases_iff_exists periodic]
    · intro t _ i begins
      exact (periodicJobs trace periodic).released t i ((begins_iff trace periodic t i).mp begins)
    · intro t before
      rw [appended_get procs trace before, entries t before]
    · intro t before e here
      rw [appended_get procs trace before, entries t before, Option.some.injEq] at here
      subst e
      cases rule : ruled procs t with
      | none => simp [ruledEntry, rule]
      | some i => simpa [ruledEntry, rule] using (representable t before i rule).2

/-- The tasks of the README's second test. -/
def threeTasks : Fin 3 → Process := ![
  { pid := 1, burstTime := 1, arrivalTime := 0, tickets := 0, period := 4, remainingTime := 1 },
  { pid := 2, burstTime := 2, arrivalTime := 0, tickets := 0, period := 6, remainingTime := 2 },
  { pid := 3, burstTime := 2, arrivalTime := 0, tickets := 0, period := 8, remainingTime := 2 }]

theorem trace_specified_iff_threeTasks : Specified threeTasks [] 20 := by
  refine (trace_specified_iff threeTasks [] 20 ?_).mpr ?_
  · constructor <;> intro i <;> fin_cases i <;> decide
  · intro t _ i _
    fin_cases i <;> decide

def rare : Fin 1 → Process := ![
  { pid := 1, burstTime := 1, arrivalTime := 0, tickets := 0, period := 100000
    remainingTime := 1 }]

/-- It is ready in the first tick, and the CPU idles. -/
theorem trace_not_specified : Periodic rare ∧ ruled rare 0 = some 0 ∧
    ¬ Specified rare [] 1 := by
  refine ⟨?_, by decide, ?_⟩
  · constructor <;> intro i <;> fin_cases i <;> decide
  · intro specified
    have same := specified.entries 0 (by decide)
    revert same
    decide

end OsLab.Vijay.Rms
