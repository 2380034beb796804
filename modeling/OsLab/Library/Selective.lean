import OsLab.Library.Rounds

/-!
Rounds over the processors in which some tasks are never given one. Such a loop ends exactly when
there are none of them: to the others they look like tasks that have finished.
-/

namespace OsLab.Library.Layout

variable {σ τ P C : Type*} {cpus : ℕ} (layout : Layout σ τ P C cpus) [Fintype τ] [DecidableEq τ]
  (fits : P → Prop) [DecidablePred fits]

def only : Layout σ τ P C cpus where
  tasks := layout.tasks
  procs := layout.procs
  clock := layout.clock
  done s := layout.done s + (Finset.univ.filter fun x => ¬ fits (layout.tasks s x)).card
  held := layout.held
  status p := if fits p then layout.status p else .finished
  home := layout.home
  left := layout.left
  completion := layout.completion

def Able (arrival : τ → ℤ) (s : σ) (x : τ) : Prop :=
  arrival x ≤ layout.clock s ∧ fits (layout.tasks s x)

/-- A loop of rounds over the tasks that fit; `inv` is what the simulator needs besides. -/
structure Selective (arrival : τ → ℤ) (assign : σ → σ) (exec : σ → Fin cpus → σ) (next : σ → σ)
    (run : ℤ → P → C → P × C) (inv : σ → Prop) : Prop where
  placed : ∀ s, inv s → (layout.machine s).Placed (layout.Able fits arrival s) →
    (layout.machine (assign s)).Placed (layout.Able fits arrival s)
  conserving : ∀ s, inv s → (layout.machine s).Placed (layout.Able fits arrival s) →
    ∀ i, layout.row (assign s) i = none →
      ∀ x, ¬ (layout.machine (assign s)).Waiting (layout.Able fits arrival s) x
  assigns : ∀ s, inv s → (layout.machine s).Placed (layout.Able fits arrival s) →
    layout.Assigns s (assign s)
  suits : ∀ s, inv s → ∀ x, fits (layout.tasks (assign s) x) ↔ fits (layout.tasks s x)
  serves : ∀ now, Serves layout.tasks layout.procs layout.held (run now)
    (fun s => layout.clock s = now) exec
  idle : ∀ s i, layout.row s i = none → layout.done (exec s i) = layout.done s
  counts : ∀ now s i x, layout.clock s = now → layout.row s i = some x →
    layout.status (layout.tasks s x) ≠ .finished → layout.done (exec s i) = layout.done s +
      if layout.status (run now (layout.tasks s x) (layout.procs s i)).1 = .finished then 1 else 0
  ran : ∀ now p c, layout.status p = .running → layout.Ran now p c (run now p c).1 (run now p c).2
  runs : ∀ now p c, fits (run now p c).1 ↔ fits p
  tasks_next : ∀ s,
    layout.tasks (next s) = layout.tasks ((List.finRange cpus).foldl exec (assign s))
  procs_next : ∀ s,
    layout.procs (next s) = layout.procs ((List.finRange cpus).foldl exec (assign s))
  clock_next : ∀ s,
    layout.clock (next s) = layout.clock ((List.finRange cpus).foldl exec (assign s)) + 1
  done_next : ∀ s,
    layout.done (next s) = layout.done ((List.finRange cpus).foldl exec (assign s))
  kept : ∀ s, inv s → (layout.machine s).Placed (layout.Able fits arrival s) → inv (next s)

def Stuck (s : σ) : Prop := ∀ x, ¬ fits (layout.tasks s x) → layout.status (layout.tasks s x) = .ready

variable {layout fits}

namespace Selective

variable {arrival : τ → ℤ} {assign : σ → σ} {exec : σ → Fin cpus → σ} {next : σ → σ}
  {run : ℤ → P → C → P × C} {inv : σ → Prop} {s : σ}

omit [DecidableEq τ] in
/-- Who has a processor fits, so the two views of the machine agree on who runs. -/
theorem machine_only (stuck : layout.Stuck fits s)
    (placed : ((layout.only fits).machine s).Placed fun x => arrival x ≤ layout.clock s) :
    (layout.machine s).Placed (layout.Able fits arrival s) := by
  constructor
  · intro i x here
    obtain ⟨running, home, arrived⟩ := placed.busy i x here
    have suited : fits (layout.tasks s x) := by
      by_contra never
      simp [machine, only, never] at running
    exact ⟨by simpa [machine, only, suited] using running, home, arrived, suited⟩
  · intro x running
    have suited : fits (layout.tasks s x) := by
      by_contra never
      simp only [machine] at running
      simp [stuck x never] at running
    exact placed.held x (by simpa [machine, only, suited] using running)

omit [Fintype τ] [DecidablePred fits] in
theorem run_suits (selective : layout.Selective fits arrival assign exec next run inv)
    {visits : List (Fin cpus)} {now : ℤ} {m : σ} (same : layout.clock m = now) (x : τ) :
    fits (layout.tasks (visits.foldl exec m) x) ↔ fits (layout.tasks m x) := by
  have serves := selective.serves now
  induction visits generalizing m with
  | nil => rfl
  | cons i rest ih =>
      rw [List.foldl_cons]
      refine (ih (serves.kept m i same)).trans ?_
      cases here : layout.held (layout.procs m i) with
      | none => rw [serves.idle m i here]
      | some y =>
          rw [serves.task m i y same here]
          by_cases equal : x = y
          · subst x
            rw [Function.update_self, selective.runs]
          · rw [Function.update_of_ne equal]

omit [Fintype τ] [DecidablePred fits] in
theorem suits_next (selective : layout.Selective fits arrival assign exec next run inv)
    (holds : inv s) (x : τ) : fits (layout.tasks (next s) x) ↔ fits (layout.tasks s x) := by
  rw [selective.tasks_next, selective.run_suits rfl, selective.suits s holds]

omit [Fintype τ] [DecidablePred fits] in
theorem stuck_next (selective : layout.Selective fits arrival assign exec next run inv)
    (holds : inv s) (stuck : layout.Stuck fits s)
    (placed : (layout.machine s).Placed (layout.Able fits arrival s)) :
    layout.Stuck fits (next s) := by
  intro x never
  have after := selective.placed s holds placed
  have assigns := selective.assigns s holds placed
  have before : ¬ fits (layout.tasks s x) := fun fit => never ((selective.suits_next holds x).mpr fit)
  have absent : ∀ i, layout.row (assign s) i ≠ some x := by
    intro i here
    exact before (after.busy i x here).2.2.2
  have same : layout.tasks (next s) x = layout.tasks (assign s) x := by
    rw [selective.tasks_next]
    exact (selective.serves _).bystander rfl (List.nodup_finRange cpus) fun i _ => absent i
  rw [same]
  cases state : layout.status (layout.tasks (assign s) x) with
  | ready => rfl
  | running =>
      obtain ⟨i, here⟩ := after.held x state
      exact absurd here (absent i)
  | finished =>
      have past := (assigns.finished x).mp state
      rw [stuck x before] at past
      simp at past

theorem rounds (selective : layout.Selective fits arrival assign exec next run inv) :
    (layout.only fits).Rounds arrival assign exec next run
      fun s => inv s ∧ layout.Stuck fits s := by
  have real := fun s (steady : (layout.only fits).Steady arrival s)
      (holds : inv s ∧ layout.Stuck fits s) => machine_only holds.2 steady.placed
  constructor
  · intro s steady holds
    have placed := selective.placed s holds.1 (real s steady holds)
    constructor
    · intro i x here
      obtain ⟨running, home, arrived, suited⟩ := placed.busy i x here
      have fit := (selective.suits s holds.1 x).mpr suited
      exact ⟨by simpa [machine, only, fit] using running, home, arrived⟩
    · intro x running
      apply placed.held x
      simp only [machine, only] at running
      split at running
      · exact running
      · simp at running
  · intro s steady holds i idle x waits
    obtain ⟨ready, arrived⟩ := waits
    simp only [machine, only] at ready
    split at ready
    · rename_i fit
      exact selective.conserving s holds.1 (real s steady holds) i idle x
        ⟨ready, arrived, (selective.suits s holds.1 x).mp fit⟩
    · simp at ready
  · intro s steady holds
    have assigns := selective.assigns s holds.1 (real s steady holds)
    have same := selective.suits s holds.1
    constructor
    · exact assigns.clock
    · simp only [only, assigns.done, same]
    · exact assigns.left
    · exact assigns.completion
    · intro x
      by_cases fit : fits (layout.tasks s x)
      · simp only [only, if_pos fit, if_pos ((same x).mpr fit), assigns.finished x]
      · simp only [only, if_neg fit, if_neg fun fits => fit ((same x).mp fits)]
  · exact selective.serves
  · intro s i idle
    have same : exec s i = s := (selective.serves 0).idle s i idle
    rw [same]
  · intro now s i x same here alive
    have suited : fits (layout.tasks s x) := by
      by_contra never
      simp [only, never] at alive
    have count := selective.counts now s i x same here (by simpa [only, suited] using alive)
    have kept : ∀ y, fits (layout.tasks (exec s i) y) ↔ fits (layout.tasks s y) := by
      intro y
      change fits (layout.tasks ([i].foldl exec s) y) ↔ _
      exact selective.run_suits same y
    simp only [only, kept, count, selective.runs, suited, if_true]
    omega
  · intro now p c running
    have suited : fits p := by
      by_contra never
      simp [only, never] at running
    have ran := selective.ran now p c (by simpa [only, suited] using running)
    have fit := (selective.runs now p c).mpr suited
    constructor
    · exact ran.home
    · exact ran.left
    · intro last
      obtain ⟨finished, rest⟩ := ran.ended last
      exact ⟨by simpa [only, fit] using finished, rest⟩
    · intro more
      simpa [only, fit] using ran.going more
  · exact selective.tasks_next
  · exact selective.procs_next
  · exact selective.clock_next
  · intro s
    simp only [only, selective.done_next, selective.tasks_next]
  · intro s steady holds
    have placed := real s steady holds
    exact ⟨selective.kept s holds.1 placed, selective.stuck_next holds.1 holds.2 placed⟩

/-! ### The end of the loop -/

omit [DecidableEq τ] in
theorem all_of_done (steady : (layout.only fits).Steady arrival s) {count : ℕ}
    (all : Fintype.card τ = count) (stopped : ¬ layout.done s < count) :
    ∀ x, fits (layout.tasks s x) ∧ layout.status (layout.tasks s x) = .finished := by
  have counted := steady.counted
  have most := Finset.card_le_univ (Finset.univ.filter fun x =>
    (layout.only fits).status ((layout.only fits).tasks s x) = .finished)
  rw [all, ← Int.ofNat_le, ← counted] at most
  have none : (Finset.univ.filter fun x => ¬ fits (layout.tasks s x)).card = 0 := by
    simp only [only] at most
    omega
  have whole : (layout.only fits).done s = count := by
    simp only [only, none] at most ⊢
    omega
  rw [whole, Int.ofNat_inj, ← all] at counted
  have full := Finset.eq_univ_of_card _ counted.symm
  rw [Finset.card_eq_zero, Finset.filter_eq_empty_iff] at none
  intro x
  have suited := not_not.mp (none (Finset.mem_univ x))
  have member := Finset.mem_univ x
  rw [← full] at member
  exact ⟨suited, by simpa [only, suited] using (Finset.mem_filter.mp member).2⟩

variable {first : σ} {burst : τ → ℤ}

omit [DecidableEq τ] in
theorem first_steady (nonneg : 0 ≤ layout.clock first) (zero : layout.done first = 0)
    (idle : ∀ i, layout.row first i = none)
    (ready : ∀ x, layout.status (layout.tasks first x) = .ready)
    (positive : ∀ x, 1 ≤ layout.left (layout.tasks first x)) :
    (layout.only fits).Steady arrival first := by
  have status : ∀ x, (layout.only fits).status ((layout.only fits).tasks first x) = .finished ↔
      ¬ fits (layout.tasks first x) := by
    intro x
    by_cases fit : fits (layout.tasks first x)
    · simp [only, fit, ready x]
    · simp [only, fit]
  constructor
  · exact nonneg
  · constructor
    · intro i x here
      have none := idle i
      simp only [row] at none
      simp [machine, row, only, none] at here
    · intro x running
      simp only [machine, only, ready x] at running
      split at running <;> simp at running
  · exact fun x _ => positive x
  · have count : (layout.only fits).done first =
        (Finset.univ.filter fun x => ¬ fits (layout.tasks first x)).card := by
      simp [only, zero]
    rw [count]
    congr 2
    exact Finset.filter_congr fun x _ => (status x).symm

/-- The loop ends, with all tasks finished, exactly when all tasks fit. -/
theorem ends_iff (selective : layout.Selective fits arrival assign exec next run inv)
    (holds : inv first) (clock : layout.clock first = 0) (zero : layout.done first = 0)
    (idle : ∀ i, layout.row first i = none)
    (ready : ∀ x, layout.status (layout.tasks first x) = .ready)
    (left : ∀ x, layout.left (layout.tasks first x) = burst x) (positive : ∀ x, 1 ≤ burst x)
    (nonneg : ∀ x, 0 ≤ arrival x) {count : ℕ} (all : Fintype.card τ = count)
    (processors : 0 < cpus) :
    (∃ fuel final, whileLoop (fun s => layout.done s < count) next fuel first = some final ∧
        ∀ x, layout.status (layout.tasks final x) = .finished) ↔
      ∀ x, fits (layout.tasks first x) := by
  have steady : (layout.only fits).Steady arrival first :=
    first_steady clock.ge zero idle ready fun x => by rw [left]; exact positive x
  have begin : inv first ∧ layout.Stuck fits first := ⟨holds, fun x _ => ready x⟩
  have rounds := selective.rounds
  constructor
  · rintro ⟨fuel, final, ended, -⟩
    have kept : ∀ s, ((layout.only fits).Steady arrival s ∧ (inv s ∧ layout.Stuck fits s) ∧
        ∀ x, fits (layout.tasks s x) ↔ fits (layout.tasks first x)) →
        decide (layout.done s < count) = true → _ ∧ _ ∧ _ := fun s before _ =>
      ⟨rounds.next_steady before.1 before.2.1, rounds.kept s before.1 before.2.1,
        fun x => (selective.suits_next before.2.1.1 x).trans (before.2.2 x)⟩
    obtain ⟨⟨last, -, same⟩, stopped⟩ := whileLoop_sound kept
      ⟨steady, begin, fun _ => Iff.rfl⟩ ended
    intro x
    exact (same x).mp (all_of_done last all (by simpa using stopped) x).1
  · intro suited
    have schedule := rounds.schedule steady clock begin nonneg positive
      (fun x => by simpa [only, suited x] using ready x) left
    obtain ⟨fuel, past⟩ := schedule.ends processors
    have runs := rounds.holds steady clock begin
    have fit : ∀ t x, fits (layout.tasks (next^[t] first) x) := by
      intro t x
      induction t with
      | zero => exact suited x
      | succ t ih =>
          rw [Function.iterate_succ_apply']
          exact (selective.suits_next (runs t).2.1.1 x).mpr ih
    have stop : decide (layout.done (next^[fuel] first) < count) = false := by
      have whole : (Finset.univ.filter fun x => (layout.only fits).status
          ((layout.only fits).tasks (next^[fuel] first) x) = .finished) = Finset.univ :=
        Finset.filter_true_of_mem fun x _ => past x
      have counted := (runs fuel).1.counted
      rw [whole, Finset.card_univ, all] at counted
      simp only [only, fit fuel, not_true_eq_false, Finset.filter_false, Finset.card_empty] at counted
      rw [decide_eq_false_iff_not]
      omega
    obtain ⟨rounds, -, ended, stopped, -⟩ := @whileLoop_of_stop _
      (fun s => layout.done s < count) _ _ _ stop
    exact ⟨fuel, _, ended, fun x =>
      (all_of_done (runs rounds).1 all (by simpa using stopped) x).2⟩

end Selective

end OsLab.Library.Layout
