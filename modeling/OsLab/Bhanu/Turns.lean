import OsLab.Bhanu.MlfqDispatch
import Mathlib.Algebra.BigOperators.Fin
import Mathlib.Algebra.Order.BigOperators.Group.Finset
import Mathlib.Order.Interval.Finset.Nat

/-!
Turns in the top queue of `run_mlfq`. Between two boosts a process has at most one turn there,
of at most four cycles, and nobody takes the CPU away during it.
-/

namespace OsLab.Bhanu.Mlfq

open OsLab.Library
open Edf (Sim preempt)

variable {np cpus : ℕ} {sim : Sim np cpus}

/-! ### Quanta -/

def Quanta (sim : Sim np cpus) : Prop :=
  ∀ i x, row sim i = some x → (sim.p x).priorityLevel = 0 →
    1 ≤ (sim.cpu i).timeQuantumLeft ∧ (sim.cpu i).timeQuantumLeft ≤ 4

theorem boostOne_quantum (sim : Sim np cpus) (y : Fin np) (i : Fin cpus) :
    ((boostOne sim y).cpu i).timeQuantumLeft =
      if (sim.p y).state = .running ∧ (i : Int) = (sim.p y).cpuId then 4
      else (sim.cpu i).timeQuantumLeft := by
  cases state : (sim.p y).state with
  | ready => simp [boostOne, state]
  | finished => simp [boostOne, state]
  | running =>
      simp only [boostOne, state, true_and]
      split <;> rfl

theorem boostAll_quantum {visits : List (Fin np)} {sim : Sim np cpus} {i : Fin cpus} {x : Fin np}
    (running : (sim.p x).state = .running) (here : (sim.p x).cpuId = i)
    (some : x ∈ visits ∨ (sim.cpu i).timeQuantumLeft = 4) :
    ((visits.foldl boostOne sim).cpu i).timeQuantumLeft = 4 := by
  induction visits generalizing sim with
  | nil => exact some.resolve_left (by simp)
  | cons y rest ih =>
      have one := boostOne_boosted sim y
      have place : ((boostOne sim y).p x).cpuId = (sim.p x).cpuId := by
        by_cases inside : x = y ∧ (sim.p x).state ≠ .finished
        · rw [one.level x inside.1 inside.2]
        · rw [one.kept x (by tauto)]
      rw [List.foldl_cons]
      apply ih
      · rw [one.state x, running]
      · rw [place, here]
      · rw [boostOne_quantum]
        rcases some with member | full
        · rcases List.mem_cons.mp member with same | later
          · subst y
            right
            rw [if_pos ⟨running, here.symm⟩]
          · exact Or.inl later
        · right
          split
          · rfl
          · exact full

theorem boost_quantum {i : Fin cpus} {x : Fin np} (now : Boosts sim.cycle)
    (running : (sim.p x).state = .running) (here : (sim.p x).cpuId = i) :
    ((boost sim).cpu i).timeQuantumLeft = 4 := by
  rw [boost, if_pos (by exact now)]
  exact boostAll_quantum running here (Or.inl (List.mem_finRange x))

theorem boost_not (later : ¬ Boosts sim.cycle) : boost sim = sim := by
  rw [boost, if_neg (by exact later)]

theorem boost_quanta {arrived : Fin np → Prop} (placed : (machine sim).Placed arrived)
    (quanta : Quanta sim) : Quanta (boost sim) := by
  by_cases now : Boosts sim.cycle
  · intro i x here _
    rw [(boost_boosted sim).row] at here
    obtain ⟨running, home, -⟩ := placed.busy i x here
    rw [boost_quantum now (by simpa [machine] using running) home]
    decide
  · rw [boost_not now]
    exact quanta

theorem assignOne_cases (sim : Sim np cpus) (i : Fin cpus) :
    assignOne sim i = sim ∨
      ∃ b, (∀ x, row sim i = some x → (sim.p b).priorityLevel < (sim.p x).priorityLevel) ∧
        (assignOne sim i).cpu = Function.update sim.cpu i { sim.cpu i with
          currentProcessId := some b
          timeQuantumLeft := TQ (sim.p b).priorityLevel } ∧
        ∀ x, ((assignOne sim i).p x).priorityLevel = (sim.p x).priorityLevel := by
  cases found : pickByQueue sim.p sim.cycle with
  | none => exact Or.inl (by simp only [assignOne, found])
  | some b =>
      cases here : (sim.cpu i).currentProcessId with
      | none =>
          right
          refine ⟨b, ?_, ?_, ?_⟩
          · intro x held
            simp [row, here] at held
          · simp only [assignOne, found, here, dispatch]
          · intro x
            simp only [assignOne, found, here]
            exact ((dispatch_placing here).unmoved x).level
      | some running =>
          by_cases lower : (sim.p b).priorityLevel < (sim.p running).priorityLevel
          · have other : b ≠ running := by
              intro same
              subst b
              omega
            right
            refine ⟨b, ?_, ?_, ?_⟩
            · intro x held
              simp only [row, here, Option.some.injEq] at held
              subst x
              exact lower
            · simp only [assignOne, found, here, lower, if_true, dispatch, preempt]
              rw [Function.update_of_ne other]
            · intro x
              simp only [assignOne, found, here, lower, if_true]
              exact ((preempt_placing here other).unmoved x).level
          · exact Or.inl (by simp only [assignOne, found, here, lower, if_false])

theorem assignOne_level (sim : Sim np cpus) (i : Fin cpus) (x : Fin np) :
    ((assignOne sim i).p x).priorityLevel = (sim.p x).priorityLevel := by
  rcases assignOne_cases sim i with same | ⟨b, -, -, level⟩
  · rw [same]
  · exact level x

theorem assignOne_quanta (quanta : Quanta sim) (i : Fin cpus) : Quanta (assignOne sim i) := by
  intro j x here top
  rw [assignOne_level] at top
  rcases assignOne_cases sim i with same | ⟨b, -, cpu, -⟩
  · rw [same] at here ⊢
    exact quanta j x here top
  · rw [row, cpu] at here
    rw [cpu]
    by_cases equal : j = i
    · subst j
      simp only [Function.update_self, Option.some.injEq] at here ⊢
      subst x
      rw [top]
      decide
    · rw [Function.update_of_ne equal] at here ⊢
      exact quanta j x here top

theorem assignOne_keeps (levels : Levels sim) {i : Fin cpus} {x : Fin np}
    (here : row sim i = some x) (top : (sim.p x).priorityLevel = 0) (j : Fin cpus) :
    (assignOne sim j).cpu i = sim.cpu i := by
  rcases assignOne_cases sim j with same | ⟨b, less, cpu, -⟩
  · rw [same]
  · by_cases equal : i = j
    · subst j
      have lower := less x here
      have bound := (levels b).1
      omega
    · rw [cpu, Function.update_of_ne equal]

theorem assignAll_quanta (quanta : Quanta sim) (visits : List (Fin cpus)) :
    Quanta (visits.foldl assignOne sim) := by
  induction visits generalizing sim with
  | nil => exact quanta
  | cons j rest ih =>
      rw [List.foldl_cons]
      exact ih (assignOne_quanta quanta j)

theorem assignAll_keeps (levels : Levels sim) {i : Fin cpus} {x : Fin np}
    (here : row sim i = some x) (top : (sim.p x).priorityLevel = 0) (visits : List (Fin cpus)) :
    (visits.foldl assignOne sim).cpu i = sim.cpu i := by
  induction visits generalizing sim with
  | nil => rfl
  | cons j rest ih =>
      have same := assignOne_keeps levels here top j
      rw [List.foldl_cons, ih, same]
      · intro y
        rw [assignOne_level]
        exact levels y
      · rw [row, same]
        exact here
      · rw [assignOne_level]
        exact top

theorem tick_cases (now : Int) (proc : Process) (cpu : Cpu np) :
    ((tick now proc cpu).1.state = .finished ∧ (tick now proc cpu).2.currentProcessId = none) ∨
      ((tick now proc cpu).1.priorityLevel = proc.priorityLevel + 1 ∧
        (tick now proc cpu).2.currentProcessId = none ∧ quantumLeft proc cpu = 0) ∨
      ((tick now proc cpu).1.priorityLevel = proc.priorityLevel ∧
        (tick now proc cpu).2.currentProcessId = cpu.currentProcessId ∧
        (tick now proc cpu).2.timeQuantumLeft = quantumLeft proc cpu ∧
        (proc.priorityLevel < 2 → quantumLeft proc cpu ≠ 0)) := by
  by_cases last : proc.remainingTime - 1 = 0
  · left
    simp only [tick, last, if_true, and_self]
  · by_cases demoted : proc.priorityLevel < LEVELS - 1 ∧ quantumLeft proc cpu = 0
    · right
      left
      simp only [tick, last, demoted, and_self, if_true, if_false]
    · right
      right
      simp only [tick, last, demoted, if_false, true_and]
      intro low spent
      exact demoted ⟨low, spent⟩

/-! ### The run -/

def head (cpus : ℕ) (jobs : Fin np → Process) (t : ℕ) : Sim np cpus :=
  clockCycle^[t] (start cpus jobs)

/-- The state in which the row of cycle `t` is printed. -/
def printed (cpus : ℕ) (jobs : Fin np → Process) (t : ℕ) : Sim np cpus :=
  assign (head cpus jobs t)

variable {jobs : Fin np → Process}

theorem head_succ (t : ℕ) : head cpus jobs (t + 1) = clockCycle (head cpus jobs t) :=
  Function.iterate_succ_apply' clockCycle t (start cpus jobs)

theorem head_reach (cpus : ℕ) (fresh : ∀ x, Fresh (jobs x)) (t : ℕ) :
    Steady jobs (head cpus jobs t) ∧ Levels (head cpus jobs t) ∧ (head cpus jobs t).cycle = t :=
  (simulates jobs).holds fresh (start_begins cpus jobs) (start_levels cpus jobs) t

theorem printed_dispatched (cpus : ℕ) (fresh : ∀ x, Fresh (jobs x)) (t : ℕ) :
    (machine (printed cpus jobs t)).Dispatched (Arrived jobs t)
      fun x => ((printed cpus jobs t).p x).priorityLevel := by
  obtain ⟨steady, levels, cycle⟩ := head_reach cpus fresh t
  have dispatched := (simulates jobs).dispatched steady levels
  have same := (assign_run steady levels).unmoved.2.2
  rw [cycle] at dispatched
  have keys : (fun x => ((printed cpus jobs t).p x).priorityLevel) =
      fun x => ((boost (head cpus jobs t)).p x).priorityLevel := by
    funext x
    exact (same x).level
  rw [keys]
  exact dispatched

theorem printed_levels (cpus : ℕ) (fresh : ∀ x, Fresh (jobs x)) (t : ℕ) :
    Levels (printed cpus jobs t) := by
  obtain ⟨steady, levels, -⟩ := head_reach cpus fresh t
  exact assign_levels steady levels

theorem printed_run (fresh : ∀ x, Fresh (jobs x)) {t : ℕ} {i : Fin cpus} {x : Fin np}
    (here : row (printed cpus jobs t) i = some x) :
    (head cpus jobs (t + 1)).p x =
        (tick t ((printed cpus jobs t).p x) ((printed cpus jobs t).cpu i)).1 ∧
      (head cpus jobs (t + 1)).cpu i =
        (tick t ((printed cpus jobs t).p x) ((printed cpus jobs t).cpu i)).2 := by
  obtain ⟨steady, levels, cycle⟩ := head_reach cpus fresh t
  have run := (simulates jobs).next_run steady levels here
  rw [cycle] at run
  rw [head_succ]
  exact run

theorem printed_other (fresh : ∀ x, Fresh (jobs x)) {t : ℕ} {x : Fin np}
    (absent : ∀ i, row (printed cpus jobs t) i ≠ some x) :
    (head cpus jobs (t + 1)).p x = (printed cpus jobs t).p x := by
  obtain ⟨steady, levels, -⟩ := head_reach cpus fresh t
  rw [head_succ]
  exact (simulates jobs).next_other steady levels absent

theorem printed_idle (fresh : ∀ x, Fresh (jobs x)) {t : ℕ} {i : Fin cpus}
    (idle : row (printed cpus jobs t) i = none) : row (head cpus jobs (t + 1)) i = none := by
  obtain ⟨steady, levels, -⟩ := head_reach cpus fresh t
  rw [head_succ]
  exact (simulates jobs).next_idle steady levels idle

theorem printed_level (fresh : ∀ x, Fresh (jobs x)) {t : ℕ} (later : ¬ Boosts t) (x : Fin np) :
    ((printed cpus jobs t).p x).priorityLevel = ((head cpus jobs t).p x).priorityLevel := by
  obtain ⟨steady, levels, cycle⟩ := head_reach cpus fresh t
  have same := ((assign_run steady levels).unmoved.2.2 x).level
  rw [boost_not (by rwa [cycle])] at same
  exact same

theorem printed_finished (fresh : ∀ x, Fresh (jobs x)) (t : ℕ) (x : Fin np) :
    ((printed cpus jobs t).p x).state = .finished ↔ ((head cpus jobs t).p x).state = .finished := by
  obtain ⟨steady, levels, -⟩ := head_reach cpus fresh t
  exact (simulates jobs).assign_finished steady levels x

theorem head_quanta (fresh : ∀ x, Fresh (jobs x)) (t : ℕ) :
    Quanta (head cpus jobs t) ∧ Quanta (printed cpus jobs t) := by
  have assigned : ∀ t, Quanta (head cpus jobs t) → Quanta (printed cpus jobs t) := by
    intro t quanta
    exact assignAll_quanta (boost_quanta (head_reach cpus fresh t).1.placed quanta) _
  induction t with
  | zero =>
      have first : Quanta (head cpus jobs 0) := by
        intro i x here
        simp [head, start, row] at here
      exact ⟨first, assigned 0 first⟩
  | succ t ih =>
      have next : Quanta (head cpus jobs (t + 1)) := by
        intro i x here top
        cases held : row (printed cpus jobs t) i with
        | none => simp [printed_idle fresh held] at here
        | some y =>
            obtain ⟨task, cpu⟩ := printed_run fresh held
            have bound := (printed_levels cpus fresh t y).1
            rw [row, cpu] at here
            rw [cpu]
            rcases tick_cases t ((printed cpus jobs t).p y) ((printed cpus jobs t).cpu i) with
              ⟨-, gone⟩ | ⟨-, gone, -⟩ | ⟨level, same, left, more⟩
            · simp [gone] at here
            · simp [gone] at here
            · rw [same] at here
              simp only [row] at held
              rw [held, Option.some.injEq] at here
              subst y
              rw [task, level] at top
              have before := ih.2 i x held top
              have spent := more (by omega)
              rw [left]
              simp only [quantumLeft, top, LEVELS] at spent ⊢
              simp only [Int.reduceSub, Int.reduceLT, if_true] at spent ⊢
              omega
      exact ⟨next, assigned (t + 1) next⟩

/-! ### Turns -/

def Spent (sim : Sim np cpus) (x : Fin np) : Prop :=
  1 ≤ (sim.p x).priorityLevel ∨ (sim.p x).state = .finished

theorem printed_spent (fresh : ∀ x, Fresh (jobs x)) {t : ℕ} (later : ¬ Boosts t) {x : Fin np} :
    Spent (printed cpus jobs t) x ↔ Spent (head cpus jobs t) x := by
  simp only [Spent, printed_level fresh later, printed_finished fresh]

theorem Spent.next (fresh : ∀ x, Fresh (jobs x)) {t : ℕ} (later : ¬ Boosts (t + 1 : ℕ))
    {x : Fin np} (spent : Spent (printed cpus jobs t) x) :
    Spent (printed cpus jobs (t + 1)) x := by
  rw [printed_spent fresh later]
  by_cases here : ∃ i, row (printed cpus jobs t) i = some x
  · obtain ⟨i, here⟩ := here
    have running := ((printed_dispatched cpus fresh t).placed.busy i x here).1
    have level : 1 ≤ ((printed cpus jobs t).p x).priorityLevel := by
      rcases spent with level | finished
      · exact level
      · simp [machine, finished, State.status] at running
    rw [Spent, (printed_run fresh here).1]
    rcases tick_cases t ((printed cpus jobs t).p x) ((printed cpus jobs t).cpu i) with
      ⟨finished, -⟩ | ⟨more, -⟩ | ⟨same, -⟩
    · exact Or.inr finished
    · left
      omega
    · left
      omega
  · rw [Spent, printed_other fresh fun i same => here ⟨i, same⟩]
    exact spent

theorem turn_next (fresh : ∀ x, Fresh (jobs x)) {t : ℕ} (later : ¬ Boosts (t + 1 : ℕ))
    {i : Fin cpus} {x : Fin np} (here : row (printed cpus jobs t) i = some x)
    (top : ((printed cpus jobs t).p x).priorityLevel = 0) :
    Spent (printed cpus jobs (t + 1)) x ∨
      row (printed cpus jobs (t + 1)) i = some x ∧
        ((printed cpus jobs (t + 1)).p x).priorityLevel = 0 ∧
        ((printed cpus jobs (t + 1)).cpu i).timeQuantumLeft =
          ((printed cpus jobs t).cpu i).timeQuantumLeft - 1 := by
  obtain ⟨task, cpu⟩ := printed_run fresh here
  rcases tick_cases t ((printed cpus jobs t).p x) ((printed cpus jobs t).cpu i) with
    ⟨finished, -⟩ | ⟨more, -⟩ | ⟨level, same, left, -⟩
  · left
    rw [printed_spent fresh later, Spent, task]
    exact Or.inr finished
  · left
    rw [printed_spent fresh later, Spent, task]
    left
    omega
  · right
    obtain ⟨-, levels, cycle⟩ := head_reach cpus fresh (t + 1)
    have held : row (head cpus jobs (t + 1)) i = some x := by
      rw [row, cpu, same]
      exact here
    have still : ((head cpus jobs (t + 1)).p x).priorityLevel = 0 := by
      rw [task, level, top]
    have kept : (printed cpus jobs (t + 1)).cpu i = (head cpus jobs (t + 1)).cpu i := by
      rw [printed, assign, boost_not (by rwa [cycle])]
      exact assignAll_keeps levels held still _
    refine ⟨?_, ?_, ?_⟩
    · rw [row, kept]
      exact held
    · rw [printed_level fresh later, still]
    · rw [kept, cpu, left]
      simp [quantumLeft, top, LEVELS]

theorem turn_over (fresh : ∀ x, Fresh (jobs x)) {s n : ℕ} {i : Fin cpus} {x : Fin np}
    (here : row (printed cpus jobs s) i = some x)
    (top : ((printed cpus jobs s).p x).priorityLevel = 0)
    (quantum : ((printed cpus jobs s).cpu i).timeQuantumLeft ≤ n) {t : ℕ} (far : s + n ≤ t)
    (quiet : ∀ u, s < u → u ≤ t → ¬ Boosts (u : ℕ)) : Spent (printed cpus jobs t) x := by
  have stays : ∀ u v, s ≤ u → u ≤ v → v ≤ t → Spent (printed cpus jobs u) x →
      Spent (printed cpus jobs v) x := by
    intro u v lower order
    induction v, order using Nat.le_induction with
    | base => exact fun _ spent => spent
    | succ v order ih =>
        intro upper spent
        exact Spent.next fresh (quiet (v + 1) (by omega) upper) (ih (by omega) spent)
  induction n generalizing s with
  | zero =>
      have some := ((head_quanta fresh s).2 i x here top).1
      omega
  | succ n ih =>
      rcases turn_next fresh (quiet (s + 1) (by omega) (by omega)) here top with
        spent | ⟨here, top, left⟩
      · exact stays (s + 1) t (by omega) (by omega) (le_refl t) spent
      · apply ih here top
        · rw [left]
          push_cast at quantum
          omega
        · omega
        · intro u lower upper
          exact quiet u (by omega) upper
        · intro u v lower order upper
          exact stays u v (by omega) order upper

/-! ### Waiting through a period -/

/-- The process has arrived and waits in the cycles from `first` to `last`, without the latter. -/
def Waits (cpus : ℕ) (jobs : Fin np → Process) (x : Fin np) (first last : ℕ) : Prop :=
  ∀ t : ℕ, first ≤ t → t < last →
    (jobs x).arrivalTime ≤ t ∧ ((printed cpus jobs t).p x).state = .ready

theorem quiet_period {m u : ℕ} (lower : 30 * m < u) (upper : u < 30 * m + 30) :
    ¬ Boosts (u : ℕ) := by
  rintro ⟨-, multiple⟩
  simp only [BOOST_CYCLE] at multiple
  omega

theorem period_level (fresh : ∀ x, Fresh (jobs x)) (m : ℕ) {x : Fin np}
    (alive : ((head cpus jobs (30 * m)).p x).state ≠ .finished) :
    ((printed cpus jobs (30 * m)).p x).priorityLevel = 0 := by
  obtain ⟨steady, levels, cycle⟩ := head_reach cpus fresh (30 * m)
  have kept := ((assign_run steady levels).unmoved.2.2 x).level
  cases m with
  | zero =>
      rw [boost_not (by rw [cycle]; simp [Boosts])] at kept
      rw [printed]
      exact kept
  | succ m =>
      have now : Boosts (head cpus jobs (30 * (m + 1))).cycle := by
        rw [cycle]
        simp only [Boosts, BOOST_CYCLE]
        omega
      rw [(boost_boosted _).level x now alive] at kept
      exact kept

theorem printed_left (fresh : ∀ x, Fresh (jobs x)) (t : ℕ) (x : Fin np) :
    ((printed cpus jobs t).p x).remainingTime = ((head cpus jobs t).p x).remainingTime := by
  obtain ⟨steady, levels, -⟩ := head_reach cpus fresh t
  rw [printed, ((assign_run steady levels).unmoved.2.2 x).remaining,
    (boost_prepared (head cpus jobs t)).remaining]

theorem ran_left (fresh : ∀ x, Fresh (jobs x)) {t : ℕ} {i : Fin cpus} {x : Fin np}
    (here : row (printed cpus jobs t) i = some x) :
    1 ≤ ((head cpus jobs t).p x).remainingTime ∧
      ((head cpus jobs (t + 1)).p x).remainingTime =
        ((head cpus jobs t).p x).remainingTime - 1 := by
  have running := ((printed_dispatched cpus fresh t).placed.busy i x here).1
  have alive : (layout np cpus).status ((head cpus jobs t).p x) ≠ .finished := by
    intro ended
    have finished : ((head cpus jobs t).p x).state = .finished := by simpa [layout] using ended
    rw [← printed_finished fresh] at finished
    simp [machine, finished, State.status] at running
  have ran := (tick_ran t ((printed cpus jobs t).cpu i) (by simpa [machine] using running) cpus).left
  refine ⟨(head_reach cpus fresh t).1.core.left x alive, ?_⟩
  simp only [layout] at ran
  rw [(printed_run fresh here).1, ran, printed_left fresh]

theorem runs_left (fresh : ∀ x, Fresh (jobs x)) (x : Fin np) (first length : ℕ) :
    (((Finset.Ico first (first + length)).filter
        fun t => ∃ i, row (printed cpus jobs t) i = some x).card : ℤ) +
      ((head cpus jobs (first + length)).p x).remainingTime =
    ((head cpus jobs first).p x).remainingTime := by
  induction length with
  | zero => simp
  | succ length ih =>
      rw [← Nat.add_assoc, Nat.Ico_succ_right_eq_insert_Ico (by omega), Finset.filter_insert]
      split
      · rename_i here
        obtain ⟨i, here⟩ := here
        have left := (ran_left fresh here).2
        rw [Finset.card_insert_of_notMem (by simp)]
        push_cast
        omega
      · rename_i idle
        rw [printed_other fresh fun i here => idle ⟨i, here⟩, printed_left fresh]
        exact ih

theorem left_nonneg (fresh : ∀ x, Fresh (jobs x)) (t : ℕ) (x : Fin np) :
    0 ≤ ((head cpus jobs t).p x).remainingTime := by
  induction t with
  | zero =>
      have some := (fresh x).burst
      have whole : ((head cpus jobs 0).p x).remainingTime = (jobs x).burstTime := (fresh x).remaining
      omega
  | succ t ih =>
      by_cases here : ∃ i, row (printed cpus jobs t) i = some x
      · obtain ⟨i, here⟩ := here
        have left := ran_left fresh here
        omega
      · rw [printed_other fresh fun i same => here ⟨i, same⟩, printed_left fresh]
        exact ih

theorem waits_level (fresh : ∀ x, Fresh (jobs x)) {m : ℕ} {j : Fin np}
    (waits : Waits cpus jobs j (30 * m) (30 * m + 30)) {t : ℕ} (lower : 30 * m ≤ t)
    (upper : t < 30 * m + 30) : ((printed cpus jobs t).p j).priorityLevel = 0 := by
  induction t, lower using Nat.le_induction with
  | base =>
      apply period_level fresh
      rw [ne_eq, ← printed_finished fresh, (waits (30 * m) (le_refl _) upper).2]
      simp
  | succ t lower ih =>
      have ready := (waits t lower (by omega)).2
      have absent : ∀ i, row (printed cpus jobs t) i ≠ some j := by
        intro i here
        have running := ((printed_dispatched cpus fresh t).placed.busy i j here).1
        simp [machine, ready, State.status] at running
      rw [printed_level fresh (quiet_period (by omega) upper), printed_other fresh absent]
      exact ih (by omega)

/-- While somebody waits through a period, every CPU runs another process of the top queue. -/
theorem waits_busy (fresh : ∀ x, Fresh (jobs x)) {m : ℕ} {j : Fin np}
    (waits : Waits cpus jobs j (30 * m) (30 * m + 30)) {t : ℕ} (lower : 30 * m ≤ t)
    (upper : t < 30 * m + 30) (i : Fin cpus) : ∃ y, row (printed cpus jobs t) i = some y ∧
      y ≠ j ∧ (jobs y).arrivalTime ≤ t ∧ ((printed cpus jobs t).p y).priorityLevel = 0 := by
  obtain ⟨arrived, ready⟩ := waits t lower upper
  have dispatched := printed_dispatched cpus fresh t
  have waiting : (machine (printed cpus jobs t)).Waiting (Arrived jobs t) j :=
    ⟨by simpa [machine] using ready, arrived⟩
  cases here : row (printed cpus jobs t) i with
  | none => exact absurd waiting (dispatched.conserving i here j)
  | some y =>
      obtain ⟨running, -, came⟩ := dispatched.placed.busy i y here
      have least := dispatched.urgent y j running waiting
      have bound := (printed_levels cpus fresh t y).1
      have zero := waits_level fresh waits lower upper
      refine ⟨y, rfl, ?_, came, by omega⟩
      rintro rfl
      simp [machine, ready, State.status] at running

theorem one_turn (fresh : ∀ x, Fresh (jobs x)) {s t : ℕ} {i k : Fin cpus} {y : Fin np}
    (order : s ≤ t) (quiet : ∀ u, s < u → u ≤ t → ¬ Boosts (u : ℕ))
    (first : row (printed cpus jobs s) i = some y)
    (top : ((printed cpus jobs s).p y).priorityLevel = 0)
    (second : row (printed cpus jobs t) k = some y)
    (low : ((printed cpus jobs t).p y).priorityLevel = 0) : i = k ∧ t < s + 4 := by
  have going : ¬ Spent (printed cpus jobs t) y := by
    rintro (high | ended)
    · omega
    · have running := ((printed_dispatched cpus fresh t).placed.busy k y second).1
      simp [machine, ended, State.status] at running
  constructor
  · have turn : ∀ u, s ≤ u → u ≤ t → Spent (printed cpus jobs u) y ∨
        row (printed cpus jobs u) i = some y ∧
          ((printed cpus jobs u).p y).priorityLevel = 0 := by
      intro u lower
      induction u, lower using Nat.le_induction with
      | base => exact fun _ => Or.inr ⟨first, top⟩
      | succ u lower ih =>
          intro upper
          have later := quiet (u + 1) (by omega) upper
          rcases ih (by omega) with spent | ⟨here, zero⟩
          · exact Or.inl (Spent.next fresh later spent)
          · rcases turn_next fresh later here zero with spent | ⟨here, zero, -⟩
            · exact Or.inl spent
            · exact Or.inr ⟨here, zero⟩
    rcases turn t order (le_refl t) with spent | ⟨here, -⟩
    · exact absurd spent going
    · exact (printed_dispatched cpus fresh t).placed.once here second
  · by_contra late
    exact going (turn_over (n := 4) fresh first top
      ((head_quanta fresh s).2 i y first top).2 (by omega) quiet)

/-! ### Processes that can keep the CPUs -/

/-- The work that a process can have done in the top queue until the next boost. -/
def turn (sim : Sim np cpus) (y : Fin np) : Int :=
  min (TQ 0) (sim.p y).remainingTime

/-- At the head of the cycle of a boost `x` waits, and the others, each on one CPU, have turns
enough to keep all CPUs until the next boost. -/
structure Outrun (sim : Sim np cpus) (x : Fin np) : Prop where
  arrived : (sim.p x).arrivalTime ≤ sim.cycle
  ready : (sim.p x).state = .ready
  filled : ∃ place : Fin np → Fin cpus, ∀ i, BOOST_CYCLE ≤
    ∑ y with y ≠ x ∧ place y = i ∧ (sim.p y).arrivalTime < sim.cycle + BOOST_CYCLE, turn sim y

def stint (cpus : ℕ) (jobs : Fin np → Process) (m : ℕ) (i : Fin cpus) (y : Fin np) : Finset ℕ :=
  (Finset.Ico (30 * m) (30 * m + 30)).filter fun t => row (printed cpus jobs t) i = some y

theorem mem_stint {m : ℕ} {i : Fin cpus} {y : Fin np} {t : ℕ} : t ∈ stint cpus jobs m i y ↔
    30 * m ≤ t ∧ t < 30 * m + 30 ∧ row (printed cpus jobs t) i = some y := by
  simp [stint, and_assoc]

section Passing

variable {m : ℕ} {j : Fin np} (fresh : ∀ x, Fresh (jobs x))
  (waits : Waits cpus jobs j (30 * m) (30 * m + 30))
include fresh waits

theorem stint_top {i : Fin cpus} {y : Fin np} {t : ℕ} (member : t ∈ stint cpus jobs m i y) :
    y ≠ j ∧ (jobs y).arrivalTime ≤ t ∧ ((printed cpus jobs t).p y).priorityLevel = 0 := by
  obtain ⟨lower, upper, here⟩ := mem_stint.mp member
  obtain ⟨z, held, facts⟩ := waits_busy fresh waits lower upper i
  rw [here, Option.some.injEq] at held
  subst z
  exact facts

theorem stint_place {i k : Fin cpus} {y : Fin np} {s t : ℕ} (first : s ∈ stint cpus jobs m i y)
    (second : t ∈ stint cpus jobs m k y) (order : s ≤ t) : i = k ∧ t < s + 4 := by
  obtain ⟨lower, -, here⟩ := mem_stint.mp first
  obtain ⟨-, upper, there⟩ := mem_stint.mp second
  exact one_turn fresh order (fun u after before => quiet_period (m := m) (by omega) (by omega))
    here (stint_top fresh waits first).2.2 there (stint_top fresh waits second).2.2

theorem stint_card (i : Fin cpus) (y : Fin np) :
    ((stint cpus jobs m i y).card : ℤ) ≤ turn (head cpus jobs (30 * m)) y := by
  have work : ((stint cpus jobs m i y).card : ℤ) ≤
      ((head cpus jobs (30 * m)).p y).remainingTime := by
    have less : stint cpus jobs m i y ⊆ (Finset.Ico (30 * m) (30 * m + 30)).filter
        fun t => ∃ i, row (printed cpus jobs t) i = some y :=
      Finset.monotone_filter_right _ fun t _ here => ⟨i, here⟩
    have count := Finset.card_le_card less
    have all := @runs_left np cpus jobs fresh y (30 * m) 30
    have rest := @left_nonneg np cpus jobs fresh (30 * m + 30) y
    omega
  have quantum : (stint cpus jobs m i y).card ≤ 4 := by
    rcases (stint cpus jobs m i y).eq_empty_or_nonempty with none | some
    · simp [none]
    · have least := Finset.min'_mem _ some
      have within : stint cpus jobs m i y ⊆
          Finset.Ico ((stint cpus jobs m i y).min' some) ((stint cpus jobs m i y).min' some + 4) := by
        intro t member
        have lower := Finset.min'_le _ t member
        exact Finset.mem_Ico.mpr ⟨lower, (stint_place fresh waits least member lower).2⟩
      have count := Finset.card_le_card within
      rw [Nat.card_Ico] at count
      omega
  have four : TQ 0 = 4 := rfl
  rw [turn]
  omega

theorem stint_all (i : Fin cpus) : ∑ y, (stint cpus jobs m i y).card = 30 := by
  have one : ∀ t ∈ Finset.Ico (30 * m) (30 * m + 30),
      (∑ y, if row (printed cpus jobs t) i = some y then 1 else 0) = 1 := by
    intro t member
    rw [Finset.mem_Ico] at member
    obtain ⟨y, here, -⟩ := waits_busy fresh waits member.1 member.2 i
    simp [here]
  simp only [stint, Finset.card_filter]
  rw [Finset.sum_comm, Finset.sum_congr rfl one]
  simp

/-- Whoever waits through a period is outrun at its beginning. -/
theorem waits_outrun (processors : 0 < cpus) : Outrun (head cpus jobs (30 * m)) j := by
  obtain ⟨steady, levels, cycle⟩ := head_reach cpus fresh (30 * m)
  obtain ⟨came, ready⟩ := waits (30 * m) (le_refl _) (by omega)
  constructor
  · rw [steady.arrival, cycle]
    exact came
  · cases state : ((head cpus jobs (30 * m)).p j).state with
    | ready => rfl
    | finished =>
        rw [← printed_finished fresh, ready] at state
        simp at state
    | running =>
        -- the boost would leave it its CPU
        obtain ⟨i, here⟩ := steady.placed.held j (by simpa [machine] using state)
        have held : row (boost (head cpus jobs (30 * m))) i = some j := by
          rw [(boost_boosted _).row]
          exact here
        have top := waits_level fresh waits (le_refl _) (by omega)
        rw [printed, ((assign_run steady levels).unmoved.2.2 j).level] at top
        have kept := assignAll_keeps (boost_levels levels) held top (List.finRange cpus)
        have still : row (printed cpus jobs (30 * m)) i = some j := by
          rw [row, printed, assign, kept]
          exact held
        have running := ((printed_dispatched cpus fresh (30 * m)).placed.busy i j still).1
        simp [machine, ready, State.status] at running
  · have one : ∀ y, ∃ k, ∀ i, (stint cpus jobs m i y).Nonempty → k = i := by
      intro y
      by_cases some : ∃ k, (stint cpus jobs m k y).Nonempty
      · obtain ⟨k, s, first⟩ := some
        refine ⟨k, fun i there => ?_⟩
        obtain ⟨t, second⟩ := there
        rcases Nat.le_total s t with order | order
        · exact (stint_place fresh waits first second order).1
        · exact (stint_place fresh waits second first order).1.symm
      · exact ⟨⟨0, processors⟩, fun i there => absurd ⟨i, there⟩ some⟩
    choose place alone using one
    refine ⟨place, fun i => ?_⟩
    have all := stint_all fresh waits i
    have inside : ∑ y, (stint cpus jobs m i y).card ≤ ∑ y with y ≠ j ∧ place y = i ∧
        ((head cpus jobs (30 * m)).p y).arrivalTime <
          (head cpus jobs (30 * m)).cycle + BOOST_CYCLE, (stint cpus jobs m i y).card := by
      apply Finset.sum_le_sum_of_ne_zero
      intro y _ some
      obtain ⟨t, member⟩ := Finset.card_ne_zero.mp some
      obtain ⟨other, arrived, -⟩ := stint_top fresh waits member
      obtain ⟨-, upper, -⟩ := mem_stint.mp member
      rw [Finset.mem_filter, steady.arrival, cycle]
      refine ⟨Finset.mem_univ y, other, alone y i ⟨t, member⟩, ?_⟩
      simp only [BOOST_CYCLE]
      omega
    rw [all] at inside
    have total := Int.ofNat_le.mpr inside
    push_cast at total
    exact le_trans total (Finset.sum_le_sum fun y _ => stint_card fresh waits i y)

end Passing

/-- Nobody is outrun at each of the `np - 1` boosts (at the first one, with one process) that
follow each other from anywhere in the run on. -/
def Relieved (cpus : ℕ) (jobs : Fin np → Process) : Prop :=
  ∀ x m, ∃ k, m ≤ k ∧ k ≤ m + (np - 2) ∧ ¬ Outrun (head cpus jobs (30 * k)) x

theorem waits_bounded (fresh : ∀ x, Fresh (jobs x)) (processors : 0 < cpus)
    (relieved : Relieved cpus jobs) {j : Fin np} {first length : ℕ}
    (waits : Waits cpus jobs j first (first + length)) : (length : ℤ) ≤ np * BOOST_CYCLE := by
  by_contra long
  simp only [BOOST_CYCLE] at long
  -- somebody else runs in the first of the cycles
  have two : 2 ≤ np := by
    obtain ⟨arrived, ready⟩ := waits first (le_refl _) (by omega)
    have dispatched := printed_dispatched cpus fresh first
    cases here : row (printed cpus jobs first) ⟨0, processors⟩ with
    | none =>
        exact absurd ⟨by simpa [machine] using ready, arrived⟩
          (dispatched.conserving _ here j)
    | some x =>
        have running := (dispatched.placed.busy _ x here).1
        have other : x ≠ j := by
          intro same
          subst x
          simp [machine, ready, State.status] at running
        have left := x.isLt
        have right := j.isLt
        have differ : (x : ℕ) ≠ j := fun same => other (Fin.ext same)
        omega
  obtain ⟨k, lower, upper, passed⟩ := relieved j ((first + 29) / 30)
  apply passed
  apply waits_outrun fresh _ processors
  intro t after before
  exact waits t (by omega) (by omega)

end OsLab.Bhanu.Mlfq
