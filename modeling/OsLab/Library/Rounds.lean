import OsLab.Library.Accounting
import OsLab.Library.Loop

/-!
Simulators that go round all processors. In each cycle tasks are assigned, every processor runs
the task it has, and the clock advances. What such a loop keeps, and that it ends, follows from
what the assignment and the run of one task do.
-/

namespace OsLab.Library

structure Layout (σ τ P C : Type*) (cpus : ℕ) where
  tasks : σ → τ → P
  procs : σ → Fin cpus → C
  clock : σ → ℤ
  done : σ → ℤ
  held : C → Option τ
  status : P → Status
  home : P → ℤ
  left : P → ℤ
  completion : P → ℤ

namespace Layout

variable {σ τ P C : Type*} {cpus : ℕ} (layout : Layout σ τ P C cpus)

def row (s : σ) (i : Fin cpus) : Option τ := layout.held (layout.procs s i)

def machine (s : σ) : Machine τ cpus where
  status x := layout.status (layout.tasks s x)
  home x := layout.home (layout.tasks s x)
  current := layout.row s

def book (s : σ) : Book τ where
  status x := layout.status (layout.tasks s x)
  left x := layout.left (layout.tasks s x)
  completion x := layout.completion (layout.tasks s x)

structure Ran (now : ℤ) (p : P) (c : C) (p' : P) (c' : C) : Prop where
  home : layout.home p' = layout.home p
  left : layout.left p' = layout.left p - 1
  ended : layout.left p = 1 → layout.status p' = .finished ∧ layout.completion p' = now + 1 ∧
    layout.held c' = none
  going : layout.left p ≠ 1 → layout.completion p' = layout.completion p ∧
    (layout.status p' = .running ∧ layout.held c' = layout.held c ∨
      layout.status p' = .ready ∧ layout.held c' = none)

structure Assigns (s after : σ) : Prop where
  clock : layout.clock after = layout.clock s
  done : layout.done after = layout.done s
  left : ∀ x, layout.left (layout.tasks after x) = layout.left (layout.tasks s x)
  completion : ∀ x,
    layout.completion (layout.tasks after x) = layout.completion (layout.tasks s x)
  finished : ∀ x, layout.status (layout.tasks after x) = .finished ↔
    layout.status (layout.tasks s x) = .finished

variable [Fintype τ] [DecidableEq τ]

structure Steady (arrival : τ → ℤ) (s : σ) : Prop where
  nonneg : 0 ≤ layout.clock s
  placed : (layout.machine s).Placed fun x => arrival x ≤ layout.clock s
  left : ∀ x, layout.status (layout.tasks s x) ≠ .finished → 1 ≤ layout.left (layout.tasks s x)
  counted : layout.done s =
    ((Finset.univ.filter fun x => layout.status (layout.tasks s x) = .finished).card : ℤ)

/-- A loop of such rounds; `inv` is what the simulator adds to `Steady`. -/
structure Rounds (arrival : τ → ℤ) (assign : σ → σ) (exec : σ → Fin cpus → σ) (next : σ → σ)
    (run : ℤ → P → C → P × C) (inv : σ → Prop) : Prop where
  placed : ∀ s, layout.Steady arrival s → inv s →
    (layout.machine (assign s)).Placed fun x => arrival x ≤ layout.clock s
  conserving : ∀ s, layout.Steady arrival s → inv s → ∀ i, layout.row (assign s) i = none →
    ∀ x, ¬ (layout.machine (assign s)).Waiting (fun x => arrival x ≤ layout.clock s) x
  assigns : ∀ s, layout.Steady arrival s → inv s → layout.Assigns s (assign s)
  serves : ∀ now, Serves layout.tasks layout.procs layout.held (run now)
    (fun s => layout.clock s = now) exec
  idle : ∀ s i, layout.row s i = none → layout.done (exec s i) = layout.done s
  counts : ∀ now s i x, layout.clock s = now → layout.row s i = some x →
    layout.status (layout.tasks s x) ≠ .finished → layout.done (exec s i) = layout.done s +
      if layout.status (run now (layout.tasks s x) (layout.procs s i)).1 = .finished then 1 else 0
  ran : ∀ now p c, layout.status p = .running → layout.Ran now p c (run now p c).1 (run now p c).2
  tasks_next : ∀ s,
    layout.tasks (next s) = layout.tasks ((List.finRange cpus).foldl exec (assign s))
  procs_next : ∀ s,
    layout.procs (next s) = layout.procs ((List.finRange cpus).foldl exec (assign s))
  clock_next : ∀ s,
    layout.clock (next s) = layout.clock ((List.finRange cpus).foldl exec (assign s)) + 1
  done_next : ∀ s,
    layout.done (next s) = layout.done ((List.finRange cpus).foldl exec (assign s))
  kept : ∀ s, layout.Steady arrival s → inv s → inv (next s)

namespace Rounds

variable {layout} {arrival : τ → ℤ} {assign : σ → σ} {exec : σ → Fin cpus → σ} {next : σ → σ}
  {run : ℤ → P → C → P × C} {inv : σ → Prop} {s : σ}

theorem next_run (rounds : layout.Rounds arrival assign exec next run inv)
    (steady : layout.Steady arrival s) (holds : inv s) {i : Fin cpus} {x : τ}
    (here : layout.row (assign s) i = some x) :
    layout.tasks (next s) x =
        (run (layout.clock s) (layout.tasks (assign s) x) (layout.procs (assign s) i)).1 ∧
      layout.procs (next s) i =
        (run (layout.clock s) (layout.tasks (assign s) x) (layout.procs (assign s) i)).2 := by
  have placed := rounds.placed s steady holds
  rw [rounds.tasks_next, rounds.procs_next]
  apply (rounds.serves (layout.clock s)).served (rounds.assigns s steady holds).clock
    (List.nodup_finRange cpus) (List.mem_finRange i) here
  intro j _ twice
  exact placed.once twice here

theorem next_served (rounds : layout.Rounds arrival assign exec next run inv)
    (steady : layout.Steady arrival s) (holds : inv s) {i : Fin cpus} {x : τ}
    (here : layout.row (assign s) i = some x) :
    layout.Ran (layout.clock s) (layout.tasks (assign s) x) (layout.procs (assign s) i)
      (layout.tasks (next s) x) (layout.procs (next s) i) := by
  have running := ((rounds.placed s steady holds).busy i x here).1
  obtain ⟨task, proc⟩ := rounds.next_run steady holds here
  rw [task, proc]
  exact rounds.ran _ _ _ running

theorem next_other (rounds : layout.Rounds arrival assign exec next run inv)
    (steady : layout.Steady arrival s) (holds : inv s) {x : τ}
    (absent : ∀ i, layout.row (assign s) i ≠ some x) :
    layout.tasks (next s) x = layout.tasks (assign s) x := by
  rw [rounds.tasks_next]
  exact (rounds.serves (layout.clock s)).bystander (rounds.assigns s steady holds).clock
    (List.nodup_finRange cpus) fun i _ => absent i

theorem next_idle (rounds : layout.Rounds arrival assign exec next run inv)
    (steady : layout.Steady arrival s) (holds : inv s) {i : Fin cpus}
    (idle : layout.row (assign s) i = none) : layout.row (next s) i = none := by
  have serves := rounds.serves (layout.clock s)
  have kept : ∀ visits : List (Fin cpus), ∀ m : σ, layout.clock m = layout.clock s →
      layout.row m i = none → layout.row (visits.foldl exec m) i = none := by
    intro visits
    induction visits with
    | nil => exact fun _ _ none => none
    | cons j rest ih =>
        intro m same none
        apply ih _ (serves.kept m j same)
        by_cases equal : i = j
        · subst j
          rw [serves.idle m i none]
          exact none
        · rw [row, serves.other same equal]
          exact none
  rw [row, rounds.procs_next]
  exact kept _ _ (rounds.assigns s steady holds).clock idle

theorem next_clock (rounds : layout.Rounds arrival assign exec next run inv)
    (steady : layout.Steady arrival s) (holds : inv s) :
    layout.clock (next s) = layout.clock s + 1 := by
  rw [rounds.clock_next, (rounds.serves (layout.clock s)).fixed_foldl
    (rounds.assigns s steady holds).clock]

theorem next_cases (rounds : layout.Rounds arrival assign exec next run inv)
    (steady : layout.Steady arrival s) (holds : inv s) (x : τ) :
    (∃ i, layout.row (assign s) i = some x ∧
      layout.status (layout.tasks (assign s) x) = .running ∧
      layout.Ran (layout.clock s) (layout.tasks (assign s) x) (layout.procs (assign s) i)
        (layout.tasks (next s) x) (layout.procs (next s) i)) ∨
      (∀ i, layout.row (assign s) i ≠ some x) ∧
        layout.status (layout.tasks (assign s) x) ≠ .running ∧
        layout.tasks (next s) x = layout.tasks (assign s) x := by
  have placed := rounds.placed s steady holds
  by_cases here : ∃ i, layout.row (assign s) i = some x
  · obtain ⟨i, here⟩ := here
    exact Or.inl ⟨i, here, (placed.busy i x here).1, rounds.next_served steady holds here⟩
  · have absent : ∀ i, layout.row (assign s) i ≠ some x := fun i same => here ⟨i, same⟩
    refine Or.inr ⟨absent, ?_, rounds.next_other steady holds absent⟩
    intro running
    obtain ⟨i, same⟩ := placed.held x running
    exact absent i same

theorem next_placed (rounds : layout.Rounds arrival assign exec next run inv)
    (steady : layout.Steady arrival s) (holds : inv s) :
    (layout.machine (next s)).Placed fun x => arrival x ≤ layout.clock (next s) := by
  have placed := rounds.placed s steady holds
  have clock := rounds.next_clock steady holds
  constructor
  · intro i x here
    cases held : layout.row (assign s) i with
    | none =>
        have idle := rounds.next_idle steady holds held
        simp only [machine] at here
        rw [idle] at here
        simp at here
    | some y =>
        have ran := rounds.next_served steady holds held
        obtain ⟨-, home, arrived⟩ := placed.busy i y held
        by_cases last : layout.left (layout.tasks (assign s) y) = 1
        · have gone := (ran.ended last).2.2
          simp only [machine, row] at here
          rw [gone] at here
          simp at here
        · rcases (ran.going last).2 with ⟨running, same⟩ | ⟨-, gone⟩
          · simp only [machine, row] at here held
            rw [same, held, Option.some.injEq] at here
            subst x
            exact ⟨running, ran.home.trans home, by omega⟩
          · simp only [machine, row] at here
            rw [gone] at here
            simp at here
  · intro x running
    simp only [machine] at running ⊢
    rcases rounds.next_cases steady holds x with ⟨i, here, -, ran⟩ | ⟨-, idle, same⟩
    · refine ⟨i, ?_⟩
      by_cases last : layout.left (layout.tasks (assign s) x) = 1
      · rw [(ran.ended last).1] at running
        simp at running
      · rcases (ran.going last).2 with ⟨-, same⟩ | ⟨ready, -⟩
        · rw [row, same]
          exact here
        · rw [ready] at running
          simp at running
    · rw [same] at running
      exact absurd running idle

theorem next_counted (rounds : layout.Rounds arrival assign exec next run inv)
    (steady : layout.Steady arrival s) (holds : inv s) : layout.done (next s) =
      ((Finset.univ.filter fun x => layout.status (layout.tasks (next s) x) = .finished).card : ℤ) := by
  have placed := rounds.placed s steady holds
  have assigns := rounds.assigns s steady holds
  have counted := (rounds.serves (layout.clock s)).counted
    (fun p => layout.status p = .finished) layout.done rounds.idle (rounds.counts (layout.clock s))
    assigns.clock (List.nodup_finRange cpus)
    (fun i _ j _ x first second => placed.once first second)
    (fun i _ x here => by
      have running : layout.status (layout.tasks (assign s) x) = .running :=
        (placed.busy i x here).1
      simp [running])
  have same : (Finset.univ.filter fun x =>
      layout.status (layout.tasks (assign s) x) = .finished) =
      Finset.univ.filter fun x => layout.status (layout.tasks s x) = .finished := by
    ext x
    simp [assigns.finished x]
  rw [same, assigns.done, steady.counted, sub_self, sub_eq_zero] at counted
  rw [rounds.done_next, rounds.tasks_next]
  exact counted

theorem next_steady (rounds : layout.Rounds arrival assign exec next run inv)
    (steady : layout.Steady arrival s) (holds : inv s) : layout.Steady arrival (next s) := by
  have clock := rounds.next_clock steady holds
  have assigns := rounds.assigns s steady holds
  constructor
  · have nonneg := steady.nonneg
    omega
  · exact rounds.next_placed steady holds
  · intro x unfinished
    rcases rounds.next_cases steady holds x with ⟨i, -, running, ran⟩ | ⟨-, -, same⟩
    · have alive : layout.status (layout.tasks s x) ≠ .finished := by
        rw [ne_eq, ← assigns.finished x, running]
        simp
      have some := steady.left x alive
      have work := assigns.left x
      rw [ran.left]
      by_cases last : layout.left (layout.tasks (assign s) x) = 1
      · exact absurd (ran.ended last).1 unfinished
      · omega
    · rw [same] at unfinished ⊢
      rw [assigns.left x]
      rw [ne_eq, assigns.finished x] at unfinished
      exact steady.left x unfinished
  · exact rounds.next_counted steady holds

theorem next_accounts (rounds : layout.Rounds arrival assign exec next run inv)
    (steady : layout.Steady arrival s) (holds : inv s) :
    Cycle arrival (layout.clock s) (layout.book s) (layout.row (assign s))
      (fun x => layout.status (layout.tasks (assign s) x)) (layout.book (next s)) := by
  have placed := rounds.placed s steady holds
  have assigns := rounds.assigns s steady holds
  have cases := rounds.next_cases steady holds
  constructor
  · intro i j x first second
    exact placed.once first second
  · intro x
    constructor
    · exact placed.held x
    · rintro ⟨i, here⟩
      exact (placed.busy i x here).1
  · exact assigns.finished
  · intro i x here
    exact (placed.busy i x here).2.2
  · intro i idle x ready
    by_contra early
    exact rounds.conserving s steady holds i idle x ⟨ready, by omega⟩
  · intro x
    simp only [book]
    rcases cases x with ⟨i, -, running, ran⟩ | ⟨-, idle, same⟩
    · rw [if_pos running, ran.left, assigns.left]
    · rw [if_neg idle, same, assigns.left]
  · intro x
    simp only [book]
    rcases cases x with ⟨i, -, running, ran⟩ | ⟨-, idle, same⟩
    · rw [running, ← assigns.left]
      simp only [reduceCtorEq, false_or, true_and]
      constructor
      · intro finished
        by_contra more
        rcases (ran.going more).2 with ⟨state, -⟩ | ⟨state, -⟩ <;> simp [state] at finished
      · intro last
        exact (ran.ended last).1
    · rw [same]
      simp [idle]
  · intro x
    change layout.completion (layout.tasks (next s) x) =
      if layout.status (layout.tasks (assign s) x) = .running ∧
          layout.left (layout.tasks s x) = 1 then layout.clock s + 1
      else layout.completion (layout.tasks s x)
    rcases cases x with ⟨i, -, running, ran⟩ | ⟨-, idle, same⟩
    · by_cases last : layout.left (layout.tasks s x) = 1
      · rw [if_pos ⟨running, last⟩, (ran.ended (by rw [assigns.left]; exact last)).2.1]
      · rw [if_neg fun both => last both.2, (ran.going (by rw [assigns.left]; exact last)).1,
          assigns.completion]
    · rw [if_neg fun both => idle both.1, same, assigns.completion]

/-! ### Whole runs -/

variable {first : σ}

theorem holds (rounds : layout.Rounds arrival assign exec next run inv)
    (steady : layout.Steady arrival first) (zero : layout.clock first = 0) (holds : inv first)
    (t : ℕ) : layout.Steady arrival (next^[t] first) ∧ inv (next^[t] first) ∧
      layout.clock (next^[t] first) = t := by
  induction t with
  | zero => exact ⟨steady, holds, zero⟩
  | succ t ih =>
      obtain ⟨steady, holds, clock⟩ := ih
      rw [Function.iterate_succ_apply']
      refine ⟨rounds.next_steady steady holds, rounds.kept _ steady holds, ?_⟩
      rw [rounds.next_clock steady holds, clock]
      rfl

theorem schedule (rounds : layout.Rounds arrival assign exec next run inv) {burst : τ → ℤ}
    (steady : layout.Steady arrival first) (zero : layout.clock first = 0) (holds : inv first)
    (nonneg : ∀ x, 0 ≤ arrival x) (positive : ∀ x, 1 ≤ burst x)
    (ready : ∀ x, layout.status (layout.tasks first x) = .ready)
    (left : ∀ x, layout.left (layout.tasks first x) = burst x) :
    Schedule arrival burst (fun t => layout.book (next^[t] first))
      (fun t => layout.row (assign (next^[t] first)))
      (fun t x => layout.status (layout.tasks (assign (next^[t] first)) x)) := by
  constructor
  · exact nonneg
  · exact positive
  · exact ready
  · exact left
  · intro t
    obtain ⟨steady, holds, clock⟩ := rounds.holds steady zero holds t
    have accounts := rounds.next_accounts steady holds
    rw [clock, ← Function.iterate_succ_apply' next] at accounts
    exact accounts

omit [DecidableEq τ] in
theorem unfinished_iff (steady : layout.Steady arrival s) {count : ℕ}
    (all : Fintype.card τ = count) :
    layout.done s < count ↔ ∃ x, layout.status (layout.tasks s x) ≠ .finished := by
  rw [steady.counted, Int.ofNat_lt, ← all]
  constructor
  · intro less
    by_contra past
    push Not at past
    rw [Finset.filter_true_of_mem fun x _ => past x, Finset.card_univ] at less
    omega
  · intro ⟨x, unfinished⟩
    apply Finset.card_lt_card
    rw [Finset.filter_ssubset]
    exact ⟨x, Finset.mem_univ x, unfinished⟩

theorem ends (rounds : layout.Rounds arrival assign exec next run inv) {count : ℕ}
    {burst : τ → ℤ} (steady : layout.Steady arrival first) (zero : layout.clock first = 0)
    (holds : inv first)
    (schedule : Schedule arrival burst (fun t => layout.book (next^[t] first))
      (fun t => layout.row (assign (next^[t] first)))
      (fun t x => layout.status (layout.tasks (assign (next^[t] first)) x)))
    (all : Fintype.card τ = count) (processors : 0 < cpus) :
    ∃ fuel rounds, whileLoop (fun s => layout.done s < count) next fuel first =
        some (next^[rounds] first) ∧
      ∀ x, layout.status (layout.tasks (next^[rounds] first) x) = .finished := by
  have steady := fun t => (rounds.holds steady zero holds t).1
  obtain ⟨fuel, past⟩ := schedule.ends processors
  have stop : decide (layout.done (next^[fuel] first) < count) = false := by
    rw [decide_eq_false_iff_not, unfinished_iff (steady fuel) all]
    rintro ⟨x, unfinished⟩
    exact unfinished (past x)
  obtain ⟨rounds, -, ended, stopped, -⟩ := @whileLoop_of_stop _
    (fun s => layout.done s < count) _ _ _ stop
  rw [decide_eq_false_iff_not, unfinished_iff (steady rounds) all] at stopped
  push Not at stopped
  exact ⟨fuel, rounds, ended, stopped⟩

end Rounds

end Layout

end OsLab.Library
