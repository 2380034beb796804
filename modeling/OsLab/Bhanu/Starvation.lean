import OsLab.Bhanu.Turns
import Mathlib.Data.Fintype.Fin
import Mathlib.Data.List.Sort

/-!
How long a process waits in `run_mlfq`. Whoever the others cannot outrun until the next boost gets a
turn before it. The selection takes the first index among equal levels and a period ends after eight
turns, so with more than eight long processes for each CPU the last ones wait for as long as the
first ones run.
-/

namespace OsLab.Bhanu.Mlfq

open OsLab.Library
open Edf (Sim preempt)

variable {np cpus : ℕ} {sim : Sim np cpus}

theorem pickByQueue_first {p : Fin np → Process} {curr : Int} {best y : Fin np}
    (found : pickByQueue p curr = some best) (before : y < best) (ready : (p y).state = .ready)
    (arrived : (p y).arrivalTime ≤ curr) : (p best).priorityLevel < (p y).priorityLevel := by
  obtain ⟨earlier, later, split, greater⟩ := scanLeast_first found
  have sorted := (List.sortedLT_finRange np).pairwise
  rw [split, List.pairwise_append, List.pairwise_cons] at sorted
  have member := List.mem_finRange y
  rw [split, List.mem_append, List.mem_cons] at member
  rcases member with inside | same | after
  · exact greater y inside (by simp [ready, arrived])
  · exact absurd before (by simp [same])
  · exact absurd (sorted.2.1.1 y after) (by omega)

/-! ### Filling the CPUs -/

/-- The CPUs outside the list run processes below `limit` from the top queue, the ones in it are
idle, and enough processes below `limit` wait in the top queue. -/
structure Filling (limit : ℕ) (visits : List (Fin cpus)) (sim : Sim np cpus) : Prop where
  levels : Levels sim
  arrived : ∀ x, (sim.p x).arrivalTime ≤ sim.cycle
  idle : ∀ i ∈ visits, row sim i = none
  full : ∀ i, i ∉ visits → ∃ x, row sim i = some x ∧ (x : ℕ) < limit ∧
    (sim.p x).priorityLevel = 0 ∧ (sim.cpu i).timeQuantumLeft = 4
  others : ∀ x : Fin np, limit ≤ (x : ℕ) → (sim.p x).state = .ready ∧ (sim.p x).priorityLevel = 0
  enough : visits.length ≤ (Finset.univ.filter fun x : Fin np =>
    (x : ℕ) < limit ∧ (sim.p x).priorityLevel = 0 ∧ (sim.p x).state = .ready).card

theorem Filling.step {limit : ℕ} {i : Fin cpus} {rest : List (Fin cpus)}
    (filling : Filling limit (i :: rest) sim) (fresh : i ∉ rest) :
    Filling limit rest (assignOne sim i) := by
  have idle := filling.idle i (by simp)
  have enough := filling.enough
  rw [List.length_cons] at enough
  obtain ⟨y, member⟩ := Finset.card_pos.mp (Nat.lt_of_lt_of_le (Nat.succ_pos _) enough)
  obtain ⟨-, small, top, ready⟩ := Finset.mem_filter.mp member
  cases found : pickByQueue sim.p sim.cycle with
  | none =>
      have high := pickByQueue_none found ready (filling.arrived y)
      rw [top] at high
      simp [LEVELS] at high
  | some b =>
      obtain ⟨waiting, arrived, least⟩ := pickByQueue_some found
      have zero : (sim.p b).priorityLevel = 0 := by
        have lower := (filling.levels b).1
        have upper := least y ready (filling.arrived y)
        omega
      have below : (b : ℕ) < limit := by
        by_contra above
        have order : y < b := by
          rw [Fin.lt_def]
          omega
        have greater := pickByQueue_first found order ready (filling.arrived y)
        omega
      have same : assignOne sim i = dispatch sim i b := by
        simp only [row] at idle
        simp only [assignOne, found, idle]
      have placing := dispatch_placing (b := b) idle
      have kept : ∀ x, x ≠ b → (dispatch sim i b).p x = sim.p x := by
        intro x other
        exact placing.others x other (by simp [idle])
      rw [same]
      constructor
      · intro x
        rw [(placing.unmoved x).level]
        exact filling.levels x
      · intro x
        rw [(placing.unmoved x).arrival, placing.cycle]
        exact filling.arrived x
      · intro j later
        have other : j ≠ i := by
          intro equal
          subst j
          exact fresh later
        rw [placing.row, Function.update_of_ne other]
        exact filling.idle j (by simp [later])
      · intro j outside
        by_cases equal : j = i
        · subst j
          refine ⟨b, by rw [placing.row, Function.update_self], below, ?_, ?_⟩
          · rw [(placing.unmoved b).level, zero]
          · simp [dispatch, zero, TQ]
        · obtain ⟨x, here, small, top, quantum⟩ := filling.full j (by simp [equal, outside])
          refine ⟨x, by rw [placing.row, Function.update_of_ne equal, here], small, ?_, ?_⟩
          · rw [(placing.unmoved x).level, top]
          · simp only [dispatch, Function.update_of_ne equal]
            exact quantum
      · intro x above
        have other : x ≠ b := by
          intro equal
          subst x
          omega
        rw [kept x other]
        exact filling.others x above
      · have less : (Finset.univ.filter fun x : Fin np => (x : ℕ) < limit ∧
            ((dispatch sim i b).p x).priorityLevel = 0 ∧
            ((dispatch sim i b).p x).state = .ready) =
            (Finset.univ.filter fun x : Fin np => (x : ℕ) < limit ∧
              (sim.p x).priorityLevel = 0 ∧ (sim.p x).state = .ready).erase b := by
          ext x
          by_cases equal : x = b
          · subst x
            simp [placing.chosen]
          · simp [kept x equal, equal]
        rw [less, Finset.card_erase_of_mem]
        · omega
        · simp [below, zero, waiting]

theorem Filling.all {limit : ℕ} {visits : List (Fin cpus)} (filling : Filling limit visits sim)
    (distinct : visits.Nodup) : Filling limit [] (visits.foldl assignOne sim) := by
  induction visits generalizing sim with
  | nil => exact filling
  | cons i rest ih =>
      obtain ⟨fresh, distinct⟩ := List.nodup_cons.mp distinct
      rw [List.foldl_cons]
      exact ih (filling.step fresh) distinct

theorem assignAll_full (levels : Levels sim)
    (full : ∀ i, ∃ x, row sim i = some x ∧ (sim.p x).priorityLevel = 0)
    (visits : List (Fin cpus)) : visits.foldl assignOne sim = sim := by
  induction visits with
  | nil => rfl
  | cons i rest ih =>
      have same : assignOne sim i = sim := by
        rcases assignOne_cases sim i with same | ⟨b, less, -, -⟩
        · exact same
        · obtain ⟨x, here, top⟩ := full i
          have lower := less x here
          have bound := (levels b).1
          omega
      rw [List.foldl_cons, same]
      exact ih

/-! ### Long processes -/

def together (np : ℕ) (burst : Int) (x : Fin np) : Process :=
  initial (x + 1) 0 burst burst

theorem together_fresh (np : ℕ) {burst : Int} (some : 1 ≤ burst) (x : Fin np) :
    Fresh (together np burst x) :=
  initial_fresh some

/-- The row printed in the cycle `offset` after a boost, while all processes have `work` left. -/
structure Rotation (offset : ℕ) (work : Int) (sim : Sim np cpus) : Prop where
  others : ∀ x : Fin np, 8 * cpus ≤ (x : ℕ) →
    (sim.p x).state = .ready ∧ (sim.p x).priorityLevel = 0
  full : ∀ i, ∃ x, row sim i = some x ∧ (x : ℕ) < 8 * cpus ∧ (sim.p x).priorityLevel = 0 ∧
    (sim.cpu i).timeQuantumLeft = 4 - offset % 4
  turns : (Finset.univ.filter fun x : Fin np =>
    (x : ℕ) < 8 * cpus ∧ (sim.p x).priorityLevel = 0).card = (8 - offset / 4) * cpus
  work : ∀ x, work ≤ (sim.p x).remainingTime
  alive : ∀ x, (sim.p x).state ≠ .finished

variable {burst work : Int} {t : ℕ}

theorem filled_rotation (some : 1 ≤ burst) {offset : ℕ} (quiet : ¬ Boosts t)
    (aligned : offset % 4 = 0) (early : offset ≤ 28)
    (idle : ∀ i, row (head cpus (together np burst) t) i = none)
    (ready : ∀ x, ((head cpus (together np burst) t).p x).state = .ready)
    (others : ∀ x : Fin np, 8 * cpus ≤ (x : ℕ) →
      ((head cpus (together np burst) t).p x).priorityLevel = 0)
    (turns : (Finset.univ.filter fun x : Fin np => (x : ℕ) < 8 * cpus ∧
      ((head cpus (together np burst) t).p x).priorityLevel = 0).card = (8 - offset / 4) * cpus)
    (left : ∀ x, work ≤ ((head cpus (together np burst) t).p x).remainingTime) :
    Rotation offset work (printed cpus (together np burst) t) := by
  have fresh := together_fresh np some
  obtain ⟨steady, levels, cycle⟩ := head_reach cpus fresh t
  have filling : Filling (8 * cpus) (List.finRange cpus) (head cpus (together np burst) t) := by
    constructor
    · exact levels
    · intro x
      rw [steady.arrival]
      exact steady.nonneg
    · exact fun i _ => idle i
    · intro i outside
      exact absurd (List.mem_finRange i) outside
    · exact fun x above => ⟨ready x, others x above⟩
    · simp only [ready, and_true, List.length_finRange]
      rw [turns]
      exact Nat.le_mul_of_pos_left cpus (by omega)
  have filled := filling.all (List.nodup_finRange cpus)
  have same : printed cpus (together np burst) t =
      (List.finRange cpus).foldl assignOne (head cpus (together np burst) t) := by
    rw [printed, assign, boost_not (by rwa [cycle])]
  rw [← same] at filled
  constructor
  · exact filled.others
  · intro i
    obtain ⟨x, here, small, top, quantum⟩ := filled.full i (by simp)
    refine ⟨x, here, small, top, ?_⟩
    rw [quantum]
    omega
  · simp only [printed_level fresh quiet]
    exact turns
  · intro x
    rw [printed_left (together_fresh np some)]
    exact left x
  · intro x
    rw [ne_eq, printed_finished fresh, ready x]
    simp

theorem Rotation.head (some : 1 ≤ burst) {offset : ℕ} (more : 2 ≤ work)
    (rotation : Rotation offset work (printed cpus (together np burst) t)) (x : Fin np) :
    work - 1 ≤ ((head cpus (together np burst) (t + 1)).p x).remainingTime ∧
      ((head cpus (together np burst) (t + 1)).p x).state ≠ .finished := by
  have fresh := together_fresh np some
  have left := rotation.work x
  by_cases here : ∃ i, row (printed cpus (together np burst) t) i = Option.some x
  · obtain ⟨i, here⟩ := here
    have busy := ((printed_dispatched cpus fresh t).placed.busy i x here).1
    have running : ((printed cpus (together np burst) t).p x).state = .running := by
      simpa [machine] using busy
    rw [(printed_run fresh here).1]
    constructor
    · have ran := (tick_ran t ((printed cpus (together np burst) t).cpu i) running cpus).left
      simp only [layout] at ran
      omega
    · rw [ne_eq, tick_finished (rotation.alive x)]
      omega
  · rw [printed_other fresh fun i same => here ⟨i, same⟩]
    exact ⟨by omega, rotation.alive x⟩

theorem Rotation.waiting (some : 1 ≤ burst) {offset : ℕ}
    (rotation : Rotation offset work (printed cpus (together np burst) t)) {x : Fin np}
    (above : 8 * cpus ≤ (x : ℕ)) :
    ((Mlfq.head cpus (together np burst) (t + 1)).p x).state = .ready ∧
      ((Mlfq.head cpus (together np burst) (t + 1)).p x).priorityLevel = 0 := by
  have fresh := together_fresh np some
  have absent : ∀ i, row (printed cpus (together np burst) t) i ≠ Option.some x := by
    intro i here
    obtain ⟨y, held, small, -⟩ := rotation.full i
    rw [here, Option.some.injEq] at held
    subst y
    omega
  rw [printed_other fresh absent]
  exact rotation.others x above

theorem Rotation.middle (some : 1 ≤ burst) {offset : ℕ} (more : 2 ≤ work)
    (rotation : Rotation offset work (printed cpus (together np burst) t))
    (inside : offset % 4 ≠ 3) :
    (∀ i, ∃ x, row (Mlfq.head cpus (together np burst) (t + 1)) i = Option.some x ∧
      (x : ℕ) < 8 * cpus ∧
      ((Mlfq.head cpus (together np burst) (t + 1)).p x).priorityLevel = 0 ∧
      ((Mlfq.head cpus (together np burst) (t + 1)).cpu i).timeQuantumLeft = 3 - offset % 4) ∧
    ∀ x, ((Mlfq.head cpus (together np burst) (t + 1)).p x).priorityLevel =
      ((printed cpus (together np burst) t).p x).priorityLevel := by
  have fresh := together_fresh np some
  have going : ∀ i x, row (printed cpus (together np burst) t) i = Option.some x →
      ((Mlfq.head cpus (together np burst) (t + 1)).p x).priorityLevel =
          ((printed cpus (together np burst) t).p x).priorityLevel ∧
        row (Mlfq.head cpus (together np burst) (t + 1)) i = Option.some x ∧
        ((Mlfq.head cpus (together np burst) (t + 1)).cpu i).timeQuantumLeft =
          3 - offset % 4 := by
    intro i x here
    obtain ⟨y, held, small, top, quantum⟩ := rotation.full i
    rw [here, Option.some.injEq] at held
    subst y
    have alive := (rotation.head some more x).2
    obtain ⟨task, cpu⟩ := printed_run fresh here
    have left : quantumLeft ((printed cpus (together np burst) t).p x)
        ((printed cpus (together np burst) t).cpu i) = 3 - offset % 4 := by
      simp only [quantumLeft, top, LEVELS, quantum, Int.reduceSub, Int.reduceLT, if_true]
      omega
    rw [task] at alive
    rw [task, row, cpu]
    rcases tick_cases t ((printed cpus (together np burst) t).p x)
      ((printed cpus (together np burst) t).cpu i) with
      ⟨finished, -⟩ | ⟨-, -, spent⟩ | ⟨level, same, rest, -⟩
    · exact absurd finished alive
    · omega
    · refine ⟨level, ?_, by rw [rest, left]⟩
      rw [same]
      exact here
  constructor
  · intro i
    obtain ⟨x, here, small, top, -⟩ := rotation.full i
    obtain ⟨level, held, quantum⟩ := going i x here
    exact ⟨x, held, small, by rw [level, top], quantum⟩
  · intro x
    by_cases here : ∃ i, row (printed cpus (together np burst) t) i = Option.some x
    · obtain ⟨i, here⟩ := here
      exact (going i x here).1
    · rw [printed_other fresh fun i same => here ⟨i, same⟩]

theorem Rotation.continues (some : 1 ≤ burst) {offset : ℕ} (more : 2 ≤ work)
    (rotation : Rotation offset work (printed cpus (together np burst) t))
    (inside : offset % 4 ≠ 3) (quiet : ¬ Boosts (t + 1 : ℕ)) :
    Rotation (offset + 1) (work - 1) (printed cpus (together np burst) (t + 1)) := by
  have fresh := together_fresh np some
  obtain ⟨full, level⟩ := rotation.middle some more inside
  obtain ⟨-, levels, cycle⟩ := head_reach cpus fresh (t + 1)
  have same : printed cpus (together np burst) (t + 1) =
      Mlfq.head cpus (together np burst) (t + 1) := by
    rw [printed, assign, boost_not (by rwa [cycle])]
    apply assignAll_full levels
    intro i
    obtain ⟨x, here, -, top, -⟩ := full i
    exact ⟨x, here, top⟩
  rw [same]
  constructor
  · exact fun x above => rotation.waiting some above
  · intro i
    obtain ⟨x, here, small, top, quantum⟩ := full i
    refine ⟨x, here, small, top, ?_⟩
    rw [quantum]
    omega
  · simp only [level]
    rw [rotation.turns]
    congr 2
    omega
  · exact fun x => (rotation.head some more x).1
  · exact fun x => (rotation.head some more x).2

theorem Rotation.boosted (some : 1 ≤ burst) (many : 8 * cpus ≤ np) (more : 2 ≤ work)
    (rotation : Rotation 29 work (printed cpus (together np burst) t)) (now : Boosts (t + 1 : ℕ)) :
    Rotation 0 (work - 1) (printed cpus (together np burst) (t + 1)) := by
  have fresh := together_fresh np some
  obtain ⟨full, -⟩ := rotation.middle some more (by decide)
  obtain ⟨steady, levels, cycle⟩ := head_reach cpus fresh (t + 1)
  have boosts : Boosts (Mlfq.head cpus (together np burst) (t + 1)).cycle := by rwa [cycle]
  have change := boost_boosted (Mlfq.head cpus (together np burst) (t + 1))
  have zero : ∀ x, ((boost (Mlfq.head cpus (together np burst) (t + 1))).p x).priorityLevel = 0 := by
    intro x
    rw [change.level x boosts (rotation.head some more x).2]
  have held : ∀ i, ∃ x,
      row (boost (Mlfq.head cpus (together np burst) (t + 1))) i = Option.some x ∧
        (x : ℕ) < 8 * cpus ∧
        ((boost (Mlfq.head cpus (together np burst) (t + 1))).cpu i).timeQuantumLeft = 4 := by
    intro i
    obtain ⟨x, here, small, -⟩ := full i
    obtain ⟨running, home, -⟩ := steady.placed.busy i x here
    refine ⟨x, by rw [change.row, here], small, ?_⟩
    exact boost_quantum boosts (by simpa [machine] using running) home
  have same : printed cpus (together np burst) (t + 1) =
      boost (Mlfq.head cpus (together np burst) (t + 1)) := by
    apply assignAll_full (boost_levels levels)
    intro i
    obtain ⟨x, here, -⟩ := held i
    exact ⟨x, here, zero x⟩
  rw [same]
  constructor
  · intro x above
    rw [change.state x]
    exact ⟨(rotation.waiting some above).1, zero x⟩
  · intro i
    obtain ⟨x, here, small, quantum⟩ := held i
    exact ⟨x, here, small, zero x, by rw [quantum]; rfl⟩
  · simp only [zero, and_true, Fin.card_filter_val_lt]
    omega
  · intro x
    rw [(boost_prepared _).remaining]
    exact (rotation.head some more x).1
  · intro x
    rw [change.state x]
    exact (rotation.head some more x).2

theorem Rotation.ends (some : 1 ≤ burst) {offset : ℕ} (more : 2 ≤ work)
    (rotation : Rotation offset work (printed cpus (together np burst) t))
    (last : offset % 4 = 3) (early : offset < 28) (quiet : ¬ Boosts (t + 1 : ℕ)) :
    Rotation (offset + 1) (work - 1) (printed cpus (together np burst) (t + 1)) := by
  have fresh := together_fresh np some
  obtain ⟨steady, -, -⟩ := head_reach cpus fresh (t + 1)
  have placed := (printed_dispatched cpus fresh t).placed
  have given : ∀ i x, row (printed cpus (together np burst) t) i = Option.some x →
      ((Mlfq.head cpus (together np burst) (t + 1)).p x).priorityLevel = 1 ∧
        row (Mlfq.head cpus (together np burst) (t + 1)) i = none := by
    intro i x here
    obtain ⟨y, held, -, top, quantum⟩ := rotation.full i
    rw [here, Option.some.injEq] at held
    subst y
    have alive := (rotation.head some more x).2
    obtain ⟨task, cpu⟩ := printed_run fresh here
    have left : quantumLeft ((printed cpus (together np burst) t).p x)
        ((printed cpus (together np burst) t).cpu i) = 0 := by
      simp only [quantumLeft, top, LEVELS, quantum, Int.reduceSub, Int.reduceLT, if_true]
      omega
    rw [task] at alive
    rw [task, row, cpu]
    rcases tick_cases t ((printed cpus (together np burst) t).p x)
      ((printed cpus (together np burst) t).cpu i) with
      ⟨finished, -⟩ | ⟨level, gone, -⟩ | ⟨-, -, -, more⟩
    · exact absurd finished alive
    · exact ⟨by rw [level, top]; rfl, gone⟩
    · exact absurd left (more (by omega))
  have idle : ∀ i, row (Mlfq.head cpus (together np burst) (t + 1)) i = none := by
    intro i
    obtain ⟨x, here, -⟩ := rotation.full i
    exact (given i x here).2
  apply filled_rotation some quiet (by omega) (by omega) idle
  · intro x
    cases state : ((Mlfq.head cpus (together np burst) (t + 1)).p x).state with
    | ready => rfl
    | finished => exact absurd state (rotation.head some more x).2
    | running =>
        obtain ⟨i, here⟩ := steady.placed.held x (by simpa [machine] using state)
        have none := idle i
        simp only [machine] at here
        rw [here] at none
        simp at none
  · exact fun x above => (rotation.waiting some above).2
  · -- each CPU's process leaves the top queue
    choose task here using fun i => rotation.full i
    have injective : Function.Injective task := by
      intro i j same
      apply placed.once (here i).1
      rw [same]
      exact (here j).1
    have less : (Finset.univ.filter fun x : Fin np => (x : ℕ) < 8 * cpus ∧
        ((Mlfq.head cpus (together np burst) (t + 1)).p x).priorityLevel = 0) =
        (Finset.univ.filter fun x : Fin np => (x : ℕ) < 8 * cpus ∧
          ((printed cpus (together np burst) t).p x).priorityLevel = 0) \
          Finset.univ.image task := by
      ext x
      simp only [Finset.mem_filter, Finset.mem_univ, true_and, Finset.mem_sdiff, Finset.mem_image,
        not_exists]
      by_cases busy : ∃ i, task i = x
      · obtain ⟨i, same⟩ := busy
        subst x
        have level := (given i _ (here i).1).1
        constructor
        · rintro ⟨-, zero⟩
          omega
        · rintro ⟨-, outside⟩
          exact absurd rfl (outside i)
      · have absent : ∀ i, row (printed cpus (together np burst) t) i ≠ Option.some x := by
          intro i same
          rw [(here i).1, Option.some.injEq] at same
          exact busy ⟨i, same⟩
        rw [printed_other fresh absent]
        constructor
        · exact fun top => ⟨top, fun i same => busy ⟨i, same⟩⟩
        · exact fun top => top.1
    have within : Finset.univ.image task ⊆ Finset.univ.filter fun x : Fin np =>
        (x : ℕ) < 8 * cpus ∧ ((printed cpus (together np burst) t).p x).priorityLevel = 0 := by
      intro x member
      obtain ⟨i, -, same⟩ := Finset.mem_image.mp member
      subst x
      simp [(here i).2.1, (here i).2.2.1]
    rw [less, Finset.card_sdiff_of_subset within, rotation.turns,
      Finset.card_image_of_injective _ injective, Finset.card_univ, Fintype.card_fin,
      ← Nat.sub_one_mul]
    congr 1
    omega
  · exact fun x => (rotation.head some more x).1

theorem rotation_start (some : 1 ≤ burst) (many : 8 * cpus ≤ np) :
    Rotation 0 burst (printed cpus (together np burst) 0) := by
  apply filled_rotation some (by simp [Boosts]) (by decide) (by decide)
  · exact fun _ => rfl
  · exact fun _ => rfl
  · exact fun _ _ => rfl
  · have zero : ∀ x, ((Mlfq.head cpus (together np burst) 0).p x).priorityLevel = 0 :=
      fun _ => rfl
    simp only [zero, and_true, Fin.card_filter_val_lt]
    omega
  · exact fun x => le_of_eq rfl

theorem rotates (some : 1 ≤ burst) (many : 8 * cpus ≤ np) {t : ℕ} (early : t < burst) :
    Rotation (t % 30) (burst - t) (printed cpus (together np burst) t) := by
  induction t with
  | zero =>
      have first := @rotation_start np cpus burst some many
      simpa using first
  | succ t ih =>
      push_cast at early
      have rotation := ih (by omega)
      have more : 2 ≤ burst - t := by omega
      have work : burst - ((t + 1 : ℕ) : ℤ) = burst - t - 1 := by
        push_cast
        omega
      have boosts : Boosts (t + 1 : ℕ) ↔ t % 30 = 29 := by
        simp only [Boosts, BOOST_CYCLE]
        push_cast
        omega
      rw [work]
      by_cases now : t % 30 = 29
      · have zero : (t + 1) % 30 = 0 := by omega
        rw [zero]
        rw [now] at rotation
        exact rotation.boosted some many more (boosts.mpr now)
      · have quiet : ¬ Boosts (t + 1 : ℕ) := fun boost => now (boosts.mp boost)
        have next : (t + 1) % 30 = t % 30 + 1 := by omega
        rw [next]
        by_cases last : t % 30 % 4 = 3
        · exact rotation.ends some more last (by omega) quiet
        · exact rotation.continues some more last quiet

theorem together_waits {x : Fin np} (above : 8 * cpus ≤ (x : ℕ))
    (length : ℕ) : Waits cpus (together np (length + 1)) x 0 (0 + length) := by
  intro t _ upper
  have small := x.isLt
  have rotation := @rotates np cpus (length + 1) (by omega) (by omega) t (by omega)
  refine ⟨Int.natCast_nonneg t, ?_⟩
  exact (rotation.others x above).1

/-! ### Who is relieved -/

theorem Outrun.many {x : Fin np} (outrun : Outrun sim x) : 8 * cpus < np := by
  obtain ⟨place, filled⟩ := outrun.filled
  have eight : ∀ i, 8 ≤ ((Finset.univ.erase x).filter fun y => place y = i).card := by
    intro i
    have fits := (filled i).trans
      (Finset.sum_le_card_nsmul _ _ (TQ 0) fun y _ => min_le_left _ _)
    have four : TQ 0 = 4 := rfl
    rw [nsmul_eq_mul, four, BOOST_CYCLE] at fits
    have most : (Finset.univ.filter fun y => y ≠ x ∧ place y = i ∧
        (sim.p y).arrivalTime < sim.cycle + 30).card ≤
          ((Finset.univ.erase x).filter fun y => place y = i).card := by
      apply Finset.card_le_card
      intro y member
      simp only [Finset.mem_filter, Finset.mem_univ, true_and] at member
      simp [member.1, member.2.1]
    omega
  have inside := x.isLt
  calc
    8 * cpus = ∑ _i : Fin cpus, 8 := by simp [Nat.mul_comm]
    _ ≤ ∑ i, ((Finset.univ.erase x).filter fun y => place y = i).card :=
      Finset.sum_le_sum fun i _ => eight i
    _ = (Finset.univ.erase x).card :=
      (Finset.card_eq_sum_card_fiberwise fun y _ => Finset.mem_univ (place y)).symm
    _ < np := by
      rw [Finset.card_erase_of_mem (Finset.mem_univ x), Finset.card_fin]
      omega

theorem few_relieved (jobs : Fin np → Process) (few : np ≤ 8 * cpus) : Relieved cpus jobs := by
  intro x m
  refine ⟨m, le_refl m, by omega, fun outrun => ?_⟩
  have many := outrun.many
  omega

/-- Whoever is outrun leaves work for all CPUs until the next boost. -/
theorem Outrun.total {x : Fin np} (outrun : Outrun sim x) (left : ∀ y, 0 ≤ (sim.p y).remainingTime) :
    cpus * BOOST_CYCLE ≤ ∑ y, (sim.p y).remainingTime := by
  obtain ⟨place, filled⟩ := outrun.filled
  calc
    cpus * BOOST_CYCLE = ∑ _i : Fin cpus, BOOST_CYCLE := by simp
    _ ≤ ∑ i, ∑ y with y ≠ x ∧ place y = i ∧ (sim.p y).arrivalTime < sim.cycle + BOOST_CYCLE,
        turn sim y := Finset.sum_le_sum fun i _ => filled i
    _ ≤ ∑ i, ∑ y with place y = i, (sim.p y).remainingTime := by
      apply Finset.sum_le_sum
      intro i _
      refine le_trans (Finset.sum_le_sum fun y _ => min_le_right _ _) ?_
      refine Finset.sum_le_sum_of_subset_of_nonneg ?_ fun y _ _ => left y
      intro y member
      simp only [Finset.mem_filter, Finset.mem_univ, true_and] at member ⊢
      exact member.2.1
    _ = ∑ y, (sim.p y).remainingTime :=
      Finset.sum_fiberwise_of_maps_to (fun y _ => Finset.mem_univ (place y)) _

theorem left_anti {jobs : Fin np → Process} (fresh : ∀ x, Fresh (jobs x)) {s t : ℕ} (order : s ≤ t)
    (x : Fin np) : ((head cpus jobs t).p x).remainingTime ≤
      ((head cpus jobs s).p x).remainingTime := by
  obtain ⟨length, rfl⟩ := Nat.exists_eq_add_of_le order
  have runs := @runs_left np cpus jobs fresh x s length
  omega

/-- From the boost on at which less work is left than the CPUs can do in a period, everybody gets a
turn. -/
theorem work_relieved {jobs : Fin np → Process} (fresh : ∀ x, Fresh (jobs x)) {n : ℕ}
    (soon : n ≤ np - 2)
    (short : ∑ y, ((head cpus jobs (30 * n)).p y).remainingTime < cpus * BOOST_CYCLE) :
    Relieved cpus jobs := by
  intro x m
  refine ⟨max m n, le_max_left m n, by omega, fun outrun => ?_⟩
  have total := outrun.total fun y => left_nonneg fresh _ y
  have less : ∑ y, ((head cpus jobs (30 * max m n)).p y).remainingTime ≤
      ∑ y, ((head cpus jobs (30 * n)).p y).remainingTime :=
    Finset.sum_le_sum fun y _ => left_anti fresh (by omega) y
  omega

/-- Nobody waits for more than `np` boost periods. -/
def Bounded (cpus : ℕ) (jobs : Fin np → Process) : Prop :=
  ∀ x first length, Waits cpus jobs x first (first + length) → (length : ℤ) ≤ np * BOOST_CYCLE

/-- A process array meets the bound when its processes are relieved. With at most eight processes
for each CPU they always are; with more, long bursts that begin together break the bound. -/
theorem waits_bounded_relieved (np cpus : ℕ) (processors : 0 < cpus) :
    (∀ jobs : Fin np → Process, (∀ x, Fresh (jobs x)) → Relieved cpus jobs → Bounded cpus jobs) ∧
      (np ≤ 8 * cpus → ∀ jobs : Fin np → Process, Relieved cpus jobs) ∧
      (8 * cpus < np → ∀ burst : Int, np * BOOST_CYCLE + 2 ≤ burst →
        ¬ Bounded cpus (together np burst)) := by
  refine ⟨?_, fun few jobs => few_relieved jobs few, ?_⟩
  · intro jobs fresh relieved x first length waits
    exact waits_bounded fresh processors relieved waits
  · intro many burst long bounded
    simp only [BOOST_CYCLE] at long
    obtain ⟨length, rfl⟩ : ∃ length : ℕ, burst = length + 1 := ⟨(burst - 1).toNat, by omega⟩
    have short := bounded (⟨8 * cpus, many⟩ : Fin np) 0 length
      (together_waits (le_refl _) length)
    simp only [BOOST_CYCLE] at short
    omega

/-- Nine processes on one CPU: bursts of five cycles, with which the last one waits past a boost,
and bursts of one. -/
theorem waits_bounded_relieved_nine :
    ((printed 1 (together 9 5) 30).p 8).state = .ready ∧ Bounded 1 (together 9 5) ∧
      Bounded 1 (together 9 1) := by
  have five := together_fresh 9 (show (1 : Int) ≤ 5 by decide)
  have one := together_fresh 9 (show (1 : Int) ≤ 1 by decide)
  refine ⟨by decide +kernel, (waits_bounded_relieved 9 1 (by decide)).1 _ five ?_,
    (waits_bounded_relieved 9 1 (by decide)).1 _ one ?_⟩
  · exact work_relieved five (n := 1) (by decide) (by decide +kernel)
  · exact work_relieved one (n := 0) (by decide) (by decide +kernel)

/-- Nine processes of 272 cycles on one CPU: the last one waits for more than nine periods. -/
theorem ninth_waits : (∀ x, Fresh (together 9 272 x)) ∧
    Waits 1 (together 9 272) 8 0 (0 + 271) ∧ ¬ (271 : ℤ) ≤ (9 : ℕ) * BOOST_CYCLE := by
  refine ⟨together_fresh 9 (by decide), ?_, by decide⟩
  exact together_waits (by decide) 271

end OsLab.Bhanu.Mlfq
