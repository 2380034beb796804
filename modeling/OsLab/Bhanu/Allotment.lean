import OsLab.Bhanu.Turns
import Mathlib.Order.Interval.Finset.Nat

/-!
The time allotment of `run_mlfq`. What is left of a quantum is kept with the CPU and set anew
whenever a process gets one, so a process that is preempted in the second queue and comes back to it
has more than the queue's quantum.
-/

namespace OsLab.Bhanu.Mlfq

open OsLab.Library
open Edf (Sim preempt)

variable {np cpus : ℕ} {sim : Sim np cpus}

/-! ### What the assignment does to a CPU -/

theorem assignAll_other {visits : List (Fin cpus)} {i : Fin cpus} (outside : i ∉ visits) :
    (visits.foldl assignOne sim).cpu i = sim.cpu i := by
  induction visits generalizing sim with
  | nil => rfl
  | cons j rest ih =>
      simp only [List.mem_cons, not_or] at outside
      rw [List.foldl_cons, ih outside.2]
      rcases assignOne_cases sim j with same | ⟨b, -, cpu, -⟩
      · rw [same]
      · rw [cpu, Function.update_of_ne outside.1]

theorem assignAll_cpu {visits : List (Fin cpus)} (distinct : visits.Nodup) (i : Fin cpus) :
    (visits.foldl assignOne sim).cpu i = sim.cpu i ∨
      ∃ b, row sim i ≠ some b ∧ row (visits.foldl assignOne sim) i = some b ∧
        ((visits.foldl assignOne sim).cpu i).timeQuantumLeft = TQ (sim.p b).priorityLevel := by
  induction visits generalizing sim with
  | nil => exact Or.inl rfl
  | cons j rest ih =>
      obtain ⟨fresh, distinct⟩ := List.nodup_cons.mp distinct
      rw [List.foldl_cons]
      rcases assignOne_cases sim j with same | ⟨b, less, cpu, -⟩
      · rw [same]
        exact ih distinct
      · by_cases equal : i = j
        · subst j
          right
          have own : (rest.foldl assignOne (assignOne sim i)).cpu i = (assignOne sim i).cpu i :=
            assignAll_other fresh
          refine ⟨b, ?_, ?_, ?_⟩
          · intro here
            have lower := less b here
            omega
          · rw [row, own, cpu, Function.update_self]
          · rw [own, cpu, Function.update_self]
        · have same : (assignOne sim j).cpu i = sim.cpu i := by
            rw [cpu, Function.update_of_ne equal]
          have later := @ih (assignOne sim j) distinct
          simp only [row, same, assignOne_level] at later ⊢
          exact later

variable {jobs : Fin np → Process}

def Given (cpus : ℕ) (jobs : Fin np → Process) (t : ℕ) (i : Fin cpus) (x : Fin np) : Prop :=
  row (head cpus jobs t) i ≠ some x ∧ row (printed cpus jobs t) i = some x

theorem printed_cpu (cpus : ℕ) (jobs : Fin np → Process) (t : ℕ) (i : Fin cpus) :
    (printed cpus jobs t).cpu i = (boost (head cpus jobs t)).cpu i ∨
      ∃ b, Given cpus jobs t i b ∧ ((printed cpus jobs t).cpu i).timeQuantumLeft =
        TQ ((boost (head cpus jobs t)).p b).priorityLevel := by
  have cases := @assignAll_cpu _ _ (boost (head cpus jobs t)) _ (List.nodup_finRange cpus) i
  rw [(boost_boosted (head cpus jobs t)).row] at cases
  rcases cases with same | ⟨b, apart, here, quantum⟩
  · exact Or.inl same
  · exact Or.inr ⟨b, ⟨apart, here⟩, quantum⟩

/-- Away from a boost a process goes on with what was left of its quantum, or gets a whole one. -/
theorem printed_quantum (fresh : ∀ x, Fresh (jobs x)) {t : ℕ} (later : ¬ Boosts t) {i : Fin cpus}
    {x : Fin np} (here : row (printed cpus jobs t) i = some x) :
    row (head cpus jobs t) i = some x ∧
        (printed cpus jobs t).cpu i = (head cpus jobs t).cpu i ∨
      Given cpus jobs t i x ∧ ((printed cpus jobs t).cpu i).timeQuantumLeft =
        TQ ((printed cpus jobs t).p x).priorityLevel := by
  have cycle := (head_reach cpus fresh t).2.2
  have quiet : boost (head cpus jobs t) = head cpus jobs t := boost_not (by rwa [cycle])
  have cases := printed_cpu cpus jobs t i
  rw [quiet] at cases
  rcases cases with same | ⟨b, given, quantum⟩
  · left
    refine ⟨?_, same⟩
    rw [row, ← same]
    exact here
  · have equal := given.2
    rw [here, Option.some.injEq] at equal
    subst b
    right
    refine ⟨given, ?_⟩
    rw [quantum, printed_level fresh later]

/-! ### Preemption -/

/-- The state before the assignment loop comes to CPU `i` in cycle `t`. -/
def visited (cpus : ℕ) (jobs : Fin np → Process) (t : ℕ) (i : Fin cpus) : Sim np cpus :=
  ((List.finRange cpus).take i).foldl assignOne (boost (head cpus jobs t))

/-- Whenever the loop takes a process from CPU `i` in the second queue, what is left of its quantum
lasts until it ends or the next boost comes. -/
def Lasting (cpus : ℕ) (jobs : Fin np → Process) : Prop :=
  ∀ t i x best, row (visited cpus jobs t i) i = some x →
    ((visited cpus jobs t i).p x).priorityLevel = 1 →
    pickByQueue (visited cpus jobs t i).p (visited cpus jobs t i).cycle = some best →
    ((visited cpus jobs t i).p best).priorityLevel < 1 →
    ((visited cpus jobs t i).p x).remainingTime ≤ ((visited cpus jobs t i).cpu i).timeQuantumLeft ∨
      BOOST_CYCLE - (visited cpus jobs t i).cycle % BOOST_CYCLE ≤
        ((visited cpus jobs t i).cpu i).timeQuantumLeft

theorem finRange_split (i : Fin cpus) :
    List.finRange cpus = (List.finRange cpus).take i ++ i :: (List.finRange cpus).drop (i + 1) := by
  have here : (i : ℕ) < (List.finRange cpus).length := by simp
  have rest := List.drop_eq_getElem_cons here
  rw [List.getElem_finRange] at rest
  nth_rewrite 1 [← List.take_append_drop (i : ℕ) (List.finRange cpus), rest]
  simp

theorem visited_cpu (cpus : ℕ) (jobs : Fin np → Process) (t : ℕ) (i : Fin cpus) :
    (visited cpus jobs t i).cpu i = (boost (head cpus jobs t)).cpu i ∧
      (printed cpus jobs t).cpu i = (assignOne (visited cpus jobs t i) i).cpu i := by
  have distinct := List.nodup_finRange cpus
  rw [finRange_split i, List.nodup_append] at distinct
  obtain ⟨-, last, apart⟩ := distinct
  constructor
  · exact assignAll_other fun inside => apart i inside i List.mem_cons_self rfl
  · rw [printed, assign, finRange_split i, List.foldl_append, List.foldl_cons]
    exact assignAll_other (List.nodup_cons.mp last).1

theorem visited_task (fresh : ∀ x, Fresh (jobs x)) (t : ℕ) (i : Fin cpus) :
    (visited cpus jobs t i).cycle = t ∧
      ∀ x, Unmoved ((boost (head cpus jobs t)).p x) ((visited cpus jobs t i).p x) := by
  obtain ⟨steady, levels, cycle⟩ := head_reach cpus fresh t
  have prepared := boost_prepared (head cpus jobs t)
  have loop := (assign_visits ((List.finRange cpus).take i) rfl
    (fun x => by rw [prepared.arrival, steady.arrival]) (fun _ => rfl)
    (fun x => (boost_levels levels x).2)).unmoved
  refine ⟨?_, loop.2.2⟩
  rw [visited, loop.1, prepared.cycle, cycle]

theorem Lasting.preempted (lasting : Lasting cpus jobs) (fresh : ∀ x, Fresh (jobs x)) {t : ℕ}
    (later : ¬ Boosts t) {i : Fin cpus} {x : Fin np} (held : row (head cpus jobs t) i = some x)
    (level : ((head cpus jobs t).p x).priorityLevel = 1)
    (gone : row (printed cpus jobs t) i ≠ some x) :
    ((head cpus jobs t).p x).remainingTime ≤ ((head cpus jobs t).cpu i).timeQuantumLeft ∨
      BOOST_CYCLE - (t : Int) % BOOST_CYCLE ≤ ((head cpus jobs t).cpu i).timeQuantumLeft := by
  have quiet : boost (head cpus jobs t) = head cpus jobs t :=
    boost_not (by rwa [(head_reach cpus fresh t).2.2])
  obtain ⟨before, after⟩ := visited_cpu cpus jobs t i
  obtain ⟨cycle, unmoved⟩ := @visited_task np cpus jobs fresh t i
  rw [quiet] at before unmoved
  have here : row (visited cpus jobs t i) i = some x := by
    rw [row, before]
    exact held
  cases found : pickByQueue (visited cpus jobs t i).p (visited cpus jobs t i).cycle with
  | none =>
      have same : assignOne (visited cpus jobs t i) i = visited cpus jobs t i := by
        simp only [assignOne, found]
      exact absurd (by rw [row, after, same]; exact here) gone
  | some best =>
      have one : ((visited cpus jobs t i).p x).priorityLevel = 1 := by
        rw [(unmoved x).level, level]
      by_cases lower : ((visited cpus jobs t i).p best).priorityLevel < 1
      · have lasts := lasting t i x best here one found lower
        rwa [(unmoved x).remaining, before, cycle] at lasts
      · have same : assignOne (visited cpus jobs t i) i = visited cpus jobs t i := by
          simp only [row] at here
          simp only [assignOne, found, here, one]
          rw [if_neg lower]
        exact absurd (by rw [row, after, same]; exact here) gone

/-! ### Cycles in a queue -/

/-- The process executes in cycle `t`, in the queue of that level. -/
def Executes (cpus : ℕ) (jobs : Fin np → Process) (level : Int) (x : Fin np) (t : ℕ) : Prop :=
  (∃ i, row (printed cpus jobs t) i = some x) ∧
    ((printed cpus jobs t).p x).priorityLevel = level

instance (cpus : ℕ) (jobs : Fin np → Process) (level : Int) (x : Fin np) :
    DecidablePred (Executes cpus jobs level x) :=
  fun _ => inferInstanceAs (Decidable (_ ∧ _))

/-- The cycles from `first` to `last`, without the latter, in which it does. -/
def used (cpus : ℕ) (jobs : Fin np → Process) (level : Int) (x : Fin np) (first last : ℕ) :
    Finset ℕ :=
  (Finset.Ico first last).filter (Executes cpus jobs level x)

theorem card_used_succ (cpus : ℕ) (jobs : Fin np → Process) (level : Int) (x : Fin np)
    {first last : ℕ} (order : first ≤ last) : (used cpus jobs level x first (last + 1)).card =
      (used cpus jobs level x first last).card +
        if Executes cpus jobs level x last then 1 else 0 := by
  rw [used, Nat.Ico_succ_right_eq_insert_Ico order, Finset.filter_insert]
  split
  · exact Finset.card_insert_of_notMem (by simp)
  · rfl

/-- The cycles before the next boost in which the process may still execute, from cycle `t` on. -/
def remains (cpus : ℕ) (jobs : Fin np → Process) (first t : ℕ) (x : Fin np) : Int :=
  min ((printed cpus jobs t).p x).remainingTime (first + BOOST_CYCLE - t)

/-- What a process has had of the upper queues since the boost, with what it may still have. -/
structure Allotted (cpus : ℕ) (jobs : Fin np → Process) (first t : ℕ) (x : Fin np) : Prop where
  top : ∀ i, row (printed cpus jobs t) i = some x →
    ((printed cpus jobs t).p x).priorityLevel = 0 →
      1 ≤ ((printed cpus jobs t).cpu i).timeQuantumLeft ∧
        (used cpus jobs 0 x first t).card + ((printed cpus jobs t).cpu i).timeQuantumLeft ≤ TQ 0
  second : ∀ i, row (printed cpus jobs t) i = some x →
    ((printed cpus jobs t).p x).priorityLevel = 1 →
      1 ≤ ((printed cpus jobs t).cpu i).timeQuantumLeft ∧
        (used cpus jobs 1 x first t).card +
          min ((printed cpus jobs t).cpu i).timeQuantumLeft (remains cpus jobs first t x) ≤ TQ 1
  waits : ((printed cpus jobs t).p x).state = .ready →
    ((printed cpus jobs t).p x).priorityLevel = 1 →
      (used cpus jobs 1 x first t).card + min (TQ 1) (remains cpus jobs first t x) ≤ TQ 1
  had : (used cpus jobs 0 x first t).card ≤ TQ 0 ∧ (used cpus jobs 1 x first t).card ≤ TQ 1
  unused : ((printed cpus jobs t).p x).state = .ready →
    ((printed cpus jobs t).p x).priorityLevel = 0 → used cpus jobs 0 x first t = ∅
  below : ((printed cpus jobs t).p x).priorityLevel = 0 → used cpus jobs 1 x first t = ∅

theorem first_level (fresh : ∀ x, Fresh (jobs x)) {m : ℕ} {i : Fin cpus} {x : Fin np}
    (here : row (printed cpus jobs (30 * m)) i = some x) :
    ((printed cpus jobs (30 * m)).p x).priorityLevel = 0 := by
  have running := ((printed_dispatched cpus fresh (30 * m)).placed.busy i x here).1
  apply period_level fresh
  rw [ne_eq, ← printed_finished fresh]
  intro finished
  simp [machine, finished, State.status] at running

theorem Allotted.first (fresh : ∀ x, Fresh (jobs x)) (m : ℕ) (x : Fin np) :
    Allotted cpus jobs (30 * m) (30 * m) x := by
  have none : ∀ level, used cpus jobs level x (30 * m) (30 * m) = ∅ := by
    intro level
    simp [used]
  constructor
  · intro i here top
    have bounds := (head_quanta fresh (30 * m)).2 i x here top
    rw [none, Finset.card_empty]
    exact ⟨bounds.1, by simpa [TQ] using bounds.2⟩
  · intro i here level
    have top := first_level fresh here
    omega
  · intro _ _
    rw [none, Finset.card_empty]
    simp
  · rw [none, none, Finset.card_empty]
    simp [TQ]
  · exact fun _ _ => none 0
  · exact fun _ => none 1

theorem remains_ran (fresh : ∀ x, Fresh (jobs x)) (first : ℕ) {t : ℕ} {i : Fin cpus} {x : Fin np}
    (here : row (printed cpus jobs t) i = some x) :
    remains cpus jobs first (t + 1) x = remains cpus jobs first t x - 1 := by
  simp only [remains, printed_left fresh, (ran_left fresh here).2]
  push_cast
  omega

theorem remains_other (fresh : ∀ x, Fresh (jobs x)) (first : ℕ) {t : ℕ} {x : Fin np}
    (absent : ∀ i, row (printed cpus jobs t) i ≠ some x) :
    remains cpus jobs first (t + 1) x ≤ remains cpus jobs first t x := by
  simp only [remains, printed_left fresh (t + 1), printed_other fresh absent]
  push_cast
  omega

theorem remains_some (fresh : ∀ x, Fresh (jobs x)) {first t : ℕ} {i : Fin cpus} {x : Fin np}
    (here : row (printed cpus jobs t) i = some x) (upper : t < first + 30) :
    1 ≤ remains cpus jobs first t x := by
  have more := (ran_left fresh here).1
  simp only [remains, printed_left fresh, BOOST_CYCLE]
  omega

theorem Allotted.had_next (fresh : ∀ x, Fresh (jobs x)) {first t : ℕ} {x : Fin np}
    (allotted : Allotted cpus jobs first t x) (order : first ≤ t) (upper : t < first + 30) :
    (used cpus jobs 0 x first (t + 1)).card ≤ TQ 0 ∧
      (used cpus jobs 1 x first (t + 1)).card ≤ TQ 1 := by
  have had := allotted.had
  rw [card_used_succ cpus jobs 0 x order, card_used_succ cpus jobs 1 x order]
  constructor
  · split
    · rename_i executes
      obtain ⟨⟨i, here⟩, top⟩ := executes
      have granted := allotted.top i here top
      push_cast
      omega
    · exact had.1
  · split
    · rename_i executes
      obtain ⟨⟨i, here⟩, second⟩ := executes
      have granted := allotted.second i here second
      have some := remains_some fresh here upper
      push_cast
      omega
    · exact had.2

theorem keeps (fresh : ∀ x, Fresh (jobs x)) {t : ℕ} (later : ¬ Boosts t) {i : Fin cpus} {x : Fin np}
    (here : row (head cpus jobs t) i = some x)
    (top : ((head cpus jobs t).p x).priorityLevel = 0) : row (printed cpus jobs t) i = some x := by
  obtain ⟨-, levels, cycle⟩ := head_reach cpus fresh t
  have kept := assignAll_keeps levels here top (List.finRange cpus)
  rw [printed, assign, boost_not (by rwa [cycle]), row, kept]
  exact here

theorem absent_before (fresh : ∀ x, Fresh (jobs x)) {t : ℕ} {x : Fin np}
    (absent : ∀ i, row (head cpus jobs (t + 1)) i ≠ some x)
    (alive : ((head cpus jobs (t + 1)).p x).state ≠ .finished) :
    ((head cpus jobs (t + 1)).p x).priorityLevel = ((printed cpus jobs t).p x).priorityLevel + 1 ∨
      (∀ i, row (printed cpus jobs t) i ≠ some x) ∧ ((printed cpus jobs t).p x).state = .ready ∧
        (head cpus jobs (t + 1)).p x = (printed cpus jobs t).p x := by
  by_cases idle : ∀ i, row (printed cpus jobs t) i ≠ some x
  · right
    have same := printed_other fresh idle
    rw [same] at alive
    refine ⟨idle, ?_, same⟩
    cases state : ((printed cpus jobs t).p x).state with
    | ready => rfl
    | finished => exact absurd state alive
    | running =>
        have placed := (printed_dispatched cpus fresh t).placed
        obtain ⟨i, here⟩ := placed.held x (by simpa [machine] using state)
        exact absurd here (idle i)
  · left
    simp only [not_forall, not_not] at idle
    obtain ⟨i, here⟩ := idle
    obtain ⟨task, cpu⟩ := printed_run fresh here
    rcases tick_cases t ((printed cpus jobs t).p x) ((printed cpus jobs t).cpu i) with
      ⟨finished, -⟩ | ⟨more, -⟩ | ⟨-, same, -⟩
    · exact absurd (by rw [task, finished]) alive
    · rw [task, more]
    · exact absurd (by rw [row, cpu, same]; exact here) (absent i)

theorem granted_before (fresh : ∀ x, Fresh (jobs x)) {t : ℕ} {i : Fin cpus} {x : Fin np}
    (here : row (head cpus jobs (t + 1)) i = some x)
    (low : ((head cpus jobs (t + 1)).p x).priorityLevel < 2) :
    row (printed cpus jobs t) i = some x ∧
      ((printed cpus jobs t).p x).priorityLevel = ((head cpus jobs (t + 1)).p x).priorityLevel ∧
      ((head cpus jobs (t + 1)).cpu i).timeQuantumLeft =
        ((printed cpus jobs t).cpu i).timeQuantumLeft - 1 ∧
      ((head cpus jobs (t + 1)).cpu i).timeQuantumLeft ≠ 0 := by
  cases held : row (printed cpus jobs t) i with
  | none => simp [printed_idle fresh held] at here
  | some y =>
      obtain ⟨task, cpu⟩ := printed_run fresh held
      rw [row, cpu] at here
      rcases tick_cases t ((printed cpus jobs t).p y) ((printed cpus jobs t).cpu i) with
        ⟨-, gone⟩ | ⟨-, gone, -⟩ | ⟨level, same, left, more⟩
      · simp [gone] at here
      · simp [gone] at here
      · rw [same] at here
        simp only [row] at held
        rw [held, Option.some.injEq] at here
        subst y
        rw [task, level] at low ⊢
        refine ⟨rfl, rfl, ?_, ?_⟩
        · rw [cpu, left, quantumLeft, if_pos (by simpa [LEVELS] using low)]
        · rw [cpu, left]
          exact more low

theorem Allotted.unused_next (fresh : ∀ x, Fresh (jobs x)) {first t : ℕ} {x : Fin np}
    (allotted : Allotted cpus jobs first t x) (order : first ≤ t)
    (top : ((head cpus jobs (t + 1)).p x).priorityLevel = 0)
    (absent : ∀ i, row (head cpus jobs (t + 1)) i ≠ some x)
    (alive : ((head cpus jobs (t + 1)).p x).state ≠ .finished) :
    used cpus jobs 0 x first (t + 1) = ∅ := by
  rcases absent_before fresh absent alive with more | ⟨idle, ready, same⟩
  · have bound := (printed_levels cpus fresh t x).1
    omega
  · rw [same] at top
    rw [← Finset.card_eq_zero, card_used_succ cpus jobs 0 x order,
      if_neg fun executes => executes.1.elim idle, allotted.unused ready top]
    rfl

theorem Allotted.top_next (fresh : ∀ x, Fresh (jobs x)) {first t : ℕ} {x : Fin np}
    (allotted : Allotted cpus jobs first t x) (order : first ≤ t) (later : ¬ Boosts (t + 1 : ℕ))
    {i : Fin cpus} (here : row (printed cpus jobs (t + 1)) i = some x)
    (top : ((printed cpus jobs (t + 1)).p x).priorityLevel = 0) :
    1 ≤ ((printed cpus jobs (t + 1)).cpu i).timeQuantumLeft ∧
      (used cpus jobs 0 x first (t + 1)).card +
        ((printed cpus jobs (t + 1)).cpu i).timeQuantumLeft ≤ TQ 0 := by
  rcases printed_quantum fresh later here with ⟨held, cpu⟩ | ⟨given, quantum⟩
  · -- the process goes on
    rw [printed_level fresh later] at top
    obtain ⟨before, level, left, some⟩ := granted_before fresh held (by omega)
    have granted := allotted.top i before (by omega)
    rw [card_used_succ cpus jobs 0 x order, if_pos ⟨⟨i, before⟩, by omega⟩, cpu, left]
    rw [left] at some
    push_cast
    omega
  · -- it gets a whole quantum
    have alive : ((head cpus jobs (t + 1)).p x).state ≠ .finished := by
      have running := ((printed_dispatched cpus fresh (t + 1)).placed.busy i x here).1
      rw [ne_eq, ← printed_finished fresh]
      intro finished
      simp [machine, finished, State.status] at running
    have absent : ∀ j, row (head cpus jobs (t + 1)) j ≠ some x := by
      intro j held
      have kept := keeps fresh later held (by rw [← printed_level fresh later, top])
      have equal := (printed_dispatched cpus fresh (t + 1)).placed.once kept here
      subst j
      exact given.1 held
    rw [allotted.unused_next fresh order (by rw [← printed_level fresh later, top]) absent alive,
      quantum, top, Finset.card_empty]
    simp [TQ]

theorem Allotted.waits_next (fresh : ∀ x, Fresh (jobs x)) (lasting : Lasting cpus jobs) {m t : ℕ}
    (lower : 30 * m ≤ t) (upper : t + 1 < 30 * m + 30) {x : Fin np}
    (allotted : Allotted cpus jobs (30 * m) t x)
    (level : ((head cpus jobs (t + 1)).p x).priorityLevel = 1)
    (alive : ((head cpus jobs (t + 1)).p x).state ≠ .finished)
    (off : ∀ j, row (head cpus jobs (t + 1)) j = some x →
      row (printed cpus jobs (t + 1)) j ≠ some x) :
    (used cpus jobs 1 x (30 * m) (t + 1)).card +
      min (TQ 1) (remains cpus jobs (30 * m) (t + 1) x) ≤ TQ 1 := by
  have later : ¬ Boosts (t + 1 : ℕ) := quiet_period (m := m) (by omega) upper
  have eight : TQ 1 = 8 := rfl
  by_cases absent : ∀ j, row (head cpus jobs (t + 1)) j ≠ some x
  · rcases absent_before fresh absent alive with more | ⟨idle, ready, same⟩
    · -- it comes from the first queue
      have top : ((printed cpus jobs t).p x).priorityLevel = 0 := by omega
      have none : ¬ Executes cpus jobs 1 x t := by
        rintro ⟨-, second⟩
        omega
      rw [card_used_succ cpus jobs 1 x lower, if_neg none, allotted.below top]
      simp
    · have waits := allotted.waits ready (by rw [← same, level])
      have shorter := remains_other fresh (30 * m) idle
      rw [card_used_succ cpus jobs 1 x lower, if_neg fun executes => executes.1.elim idle]
      omega
  · -- it is preempted
    simp only [not_forall, not_not] at absent
    obtain ⟨j, held⟩ := absent
    obtain ⟨before, same, left, some⟩ := granted_before fresh held (by omega)
    have granted := allotted.second j before (by omega)
    have shorter := remains_ran fresh (30 * m) before
    have lasts : remains cpus jobs (30 * m) (t + 1) x ≤
        ((head cpus jobs (t + 1)).cpu j).timeQuantumLeft := by
      simp only [remains, printed_left fresh, BOOST_CYCLE]
      rcases lasting.preempted fresh later held level (off j held) with short | near
      · omega
      · simp only [BOOST_CYCLE] at near
        omega
    rw [card_used_succ cpus jobs 1 x lower, if_pos ⟨⟨j, before⟩, by omega⟩]
    push_cast
    omega

theorem Allotted.second_next (fresh : ∀ x, Fresh (jobs x)) (lasting : Lasting cpus jobs) {m t : ℕ}
    (lower : 30 * m ≤ t) (upper : t + 1 < 30 * m + 30) {x : Fin np}
    (allotted : Allotted cpus jobs (30 * m) t x) {i : Fin cpus}
    (here : row (printed cpus jobs (t + 1)) i = some x)
    (second : ((printed cpus jobs (t + 1)).p x).priorityLevel = 1) :
    1 ≤ ((printed cpus jobs (t + 1)).cpu i).timeQuantumLeft ∧
      (used cpus jobs 1 x (30 * m) (t + 1)).card +
        min ((printed cpus jobs (t + 1)).cpu i).timeQuantumLeft
          (remains cpus jobs (30 * m) (t + 1) x) ≤ TQ 1 := by
  have later : ¬ Boosts (t + 1 : ℕ) := quiet_period (m := m) (by omega) upper
  have level : ((head cpus jobs (t + 1)).p x).priorityLevel = 1 := by
    rw [← printed_level fresh later, second]
  rcases printed_quantum fresh later here with ⟨held, cpu⟩ | ⟨given, quantum⟩
  · obtain ⟨before, same, left, some⟩ := granted_before fresh held (by omega)
    have granted := allotted.second i before (by omega)
    have shorter := remains_ran fresh (30 * m) before
    rw [card_used_succ cpus jobs 1 x lower, if_pos ⟨⟨i, before⟩, by omega⟩, cpu, left]
    rw [left] at some
    push_cast
    omega
  · have placed := (printed_dispatched cpus fresh (t + 1)).placed
    have alive : ((head cpus jobs (t + 1)).p x).state ≠ .finished := by
      have running := (placed.busy i x here).1
      rw [ne_eq, ← printed_finished fresh]
      intro finished
      simp [machine, finished, State.status] at running
    rw [quantum, second]
    refine ⟨by decide, allotted.waits_next fresh lasting lower upper level alive ?_⟩
    intro j held still
    have equal := placed.once still here
    subst j
    exact given.1 held

theorem Allotted.below_next (fresh : ∀ x, Fresh (jobs x)) {first t : ℕ} {x : Fin np}
    (allotted : Allotted cpus jobs first t x) (order : first ≤ t)
    (top : ((head cpus jobs (t + 1)).p x).priorityLevel = 0) :
    used cpus jobs 1 x first (t + 1) = ∅ := by
  have bound := (printed_levels cpus fresh t x).1
  have zero : ((printed cpus jobs t).p x).priorityLevel = 0 := by
    by_cases here : ∃ i, row (printed cpus jobs t) i = some x
    · obtain ⟨i, here⟩ := here
      rw [(printed_run fresh here).1] at top
      simp only [tick] at top
      split at top
      · exact top
      · split at top
        · simp only at top
          omega
        · exact top
    · rwa [printed_other fresh fun i same => here ⟨i, same⟩] at top
  have none : ¬ Executes cpus jobs 1 x t := by
    rintro ⟨-, second⟩
    omega
  rw [← Finset.card_eq_zero, card_used_succ cpus jobs 1 x order, if_neg none, allotted.below zero]
  rfl

theorem Allotted.next (fresh : ∀ x, Fresh (jobs x)) (lasting : Lasting cpus jobs) {m t : ℕ}
    (lower : 30 * m ≤ t) (upper : t + 1 < 30 * m + 30) {x : Fin np}
    (allotted : Allotted cpus jobs (30 * m) t x) : Allotted cpus jobs (30 * m) (t + 1) x := by
  have later : ¬ Boosts (t + 1 : ℕ) := quiet_period (m := m) (by omega) upper
  have idle : ((printed cpus jobs (t + 1)).p x).state = .ready →
      ∀ i, row (printed cpus jobs (t + 1)) i ≠ some x := by
    intro ready i here
    have running := ((printed_dispatched cpus fresh (t + 1)).placed.busy i x here).1
    simp [machine, ready, State.status] at running
  have alive : ((printed cpus jobs (t + 1)).p x).state = .ready →
      ((head cpus jobs (t + 1)).p x).state ≠ .finished := by
    intro ready
    rw [ne_eq, ← printed_finished fresh, ready]
    simp
  constructor
  · intro i here top
    exact allotted.top_next fresh lower later here top
  · intro i here second
    exact allotted.second_next fresh lasting lower upper here second
  · intro ready second
    rw [printed_level fresh later] at second
    exact allotted.waits_next fresh lasting lower upper second (alive ready)
      fun j _ => idle ready j
  · exact allotted.had_next fresh lower (by omega)
  · intro ready top
    rw [printed_level fresh later] at top
    exact allotted.unused_next fresh lower top
      (fun i held => idle ready i (keeps fresh later held top)) (alive ready)
  · intro top
    rw [printed_level fresh later] at top
    exact allotted.below_next fresh lower top

theorem allotted (fresh : ∀ x, Fresh (jobs x)) (lasting : Lasting cpus jobs) {m t : ℕ}
    (lower : 30 * m ≤ t) (upper : t < 30 * m + 30) (x : Fin np) :
    Allotted cpus jobs (30 * m) t x := by
  induction t, lower using Nat.le_induction with
  | base => exact Allotted.first fresh m x
  | succ t lower ih => exact (ih (by omega)).next fresh lasting lower upper

/-- Between two boosts a process has at most its allotment of the two upper queues, in every run in
which what is left of the quantum is enough for whoever loses a CPU in the second one. -/
theorem allotment_kept (cpus : ℕ) (jobs : Fin np → Process) (fresh : ∀ x, Fresh (jobs x))
    (lasting : Lasting cpus jobs) (m : ℕ) (x : Fin np) :
    (used cpus jobs 0 x (30 * m) (30 * m + 30)).card ≤ TQ 0 ∧
      (used cpus jobs 1 x (30 * m) (30 * m + 30)).card ≤ TQ 1 :=
  (allotted fresh lasting (by omega) (by omega) x).had_next fresh
    (by omega : 30 * m ≤ 30 * m + 29) (by omega)

/-- A process that is preempted in the second queue, with seven cycles to go, and has eight there
in all. -/
def resumed : Fin 2 → Process := ![initial 1 0 12 100, initial 2 5 1 100]

theorem resumed_fresh (x : Fin 2) : Fresh (resumed x) := by
  fin_cases x <;> exact initial_fresh (by decide)

theorem resumed_finished {t : ℕ} (late : 13 ≤ t) (x : Fin 2) :
    ((head 1 resumed t).p x).state = .finished := by
  induction t, late using Nat.le_induction with
  | base => fin_cases x <;> decide +kernel
  | succ t late ih =>
      have past := (printed_finished resumed_fresh t x).mpr ih
      rw [printed_other resumed_fresh, past]
      intro i here
      have running := ((printed_dispatched 1 resumed_fresh t).placed.busy i x here).1
      simp [machine, past, State.status] at running

theorem resumed_lasting : Lasting 1 resumed := by
  intro t i x best here
  by_cases early : t < 13
  · have loop : ∀ t : Fin 13, ∀ i x best, row (visited 1 resumed t i) i = some x →
        ((visited 1 resumed t i).p x).priorityLevel = 1 →
        pickByQueue (visited 1 resumed t i).p (visited 1 resumed t i).cycle = some best →
        ((visited 1 resumed t i).p best).priorityLevel < 1 →
        ((visited 1 resumed t i).p x).remainingTime ≤
          ((visited 1 resumed t i).cpu i).timeQuantumLeft := by
      decide
    intro level found lower
    exact Or.inl (loop ⟨t, early⟩ i x best here level found lower)
  · -- everybody has ended
    have past := resumed_finished (by omega : 13 ≤ t) x
    rw [row, (visited_cpu 1 resumed t i).1] at here
    have held : row (head 1 resumed t) i = some x := by
      rw [← (boost_boosted (head 1 resumed t)).row]
      exact here
    have running := ((head_reach 1 resumed_fresh t).1.placed.busy i x held).1
    simp [machine, past, State.status] at running

theorem allotment_kept_resumed :
    (({4, 6, 7, 8, 9, 10, 11, 12} : Finset ℕ) ⊆ used 1 resumed 1 0 (30 * 0) (30 * 0 + 30)) ∧
      row (printed 1 resumed 5) 0 = some 1 ∧
      (used 1 resumed 0 0 (30 * 0) (30 * 0 + 30)).card ≤ TQ 0 ∧
      (used 1 resumed 1 0 (30 * 0) (30 * 0 + 30)).card ≤ TQ 1 :=
  ⟨by decide, by decide, allotment_kept 1 resumed resumed_fresh resumed_lasting 0 0⟩

/-- A long process, and a short one that arrives when the long one is in the second queue. -/
def interrupted : Fin 2 → Process := ![initial 1 0 13 100, initial 2 5 1 100]

theorem interrupted_fresh (x : Fin 2) : Fresh (interrupted x) := by
  fin_cases x <;> exact initial_fresh (by decide)

/-- The long process has nine cycles in the second queue before the first boost. -/
theorem allotment_exceeded : (∀ x, Fresh (interrupted x)) ∧
    TQ 1 < (used 1 interrupted 1 0 (30 * 0) (30 * 0 + 30)).card := by
  refine ⟨interrupted_fresh, ?_⟩
  have within : ({4, 6, 7, 8, 9, 10, 11, 12, 13} : Finset ℕ) ⊆
      used 1 interrupted 1 0 (30 * 0) (30 * 0 + 30) := by
    decide
  have less := Finset.card_le_card within
  have nine : ({4, 6, 7, 8, 9, 10, 11, 12, 13} : Finset ℕ).card = 9 := by decide
  have eight : TQ 1 = 8 := by decide
  omega

end OsLab.Bhanu.Mlfq
