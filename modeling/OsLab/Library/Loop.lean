import Mathlib.Data.Nat.Notation
import Mathlib.Logic.Basic
import Mathlib.Logic.Function.Iterate

/-! A `while` loop run with fuel, and its total-correctness rule. -/

namespace OsLab.Library

variable {σ : Type*}

/-- The state in which the guard first fails, when that takes at most `fuel` rounds. -/
def whileLoop (guard : σ → Bool) (body : σ → σ) : ℕ → σ → Option σ
  | 0, state => if guard state then none else some state
  | fuel + 1, state => if guard state then whileLoop guard body fuel (body state) else some state

theorem whileLoop_exit {guard : σ → Bool} {body : σ → σ} {fuel : ℕ} {state : σ}
    (stopped : guard state = false) : whileLoop guard body fuel state = some state := by
  cases fuel <;> simp [whileLoop, stopped]

theorem whileLoop_more {guard : σ → Bool} {body : σ → σ} {fuel : ℕ} {state final : σ}
    (finished : whileLoop guard body fuel state = some final) (more : ℕ) :
    whileLoop guard body (fuel + more) state = some final := by
  induction fuel generalizing state with
  | zero =>
      cases running : guard state with
      | false => rwa [whileLoop_exit running] at finished ⊢
      | true => simp [whileLoop, running] at finished
  | succ fuel ih =>
      rw [Nat.succ_add]
      simp only [whileLoop] at finished ⊢
      split at finished
      · rename_i running
        rw [if_pos running]
        exact ih finished
      · rename_i stopped
        rwa [if_neg stopped]

theorem whileLoop_unique {guard : σ → Bool} {body : σ → σ} {fuel more : ℕ} {state final other : σ}
    (finished : whileLoop guard body fuel state = some final)
    (again : whileLoop guard body more state = some other) : final = other := by
  have longer := whileLoop_more finished more
  rw [Nat.add_comm, whileLoop_more again fuel] at longer
  exact (Option.some.inj longer).symm

theorem whileLoop_sound {guard : σ → Bool} {body : σ → σ} {invariant : σ → Prop}
    (preserved : ∀ state, invariant state → guard state = true → invariant (body state))
    {fuel : ℕ} {state final : σ} (holds : invariant state)
    (finished : whileLoop guard body fuel state = some final) :
    invariant final ∧ guard final = false := by
  induction fuel generalizing state with
  | zero =>
      simp only [whileLoop] at finished
      split at finished
      · simp at finished
      · rename_i stopped
        simp only [Option.some.injEq] at finished
        subst final
        exact ⟨holds, by simpa using stopped⟩
  | succ fuel ih =>
      simp only [whileLoop] at finished
      split at finished
      · rename_i running
        exact ih (preserved state holds running) finished
      · rename_i stopped
        simp only [Option.some.injEq] at finished
        subst final
        exact ⟨holds, by simpa using stopped⟩

/-- A loop whose body keeps the invariant and lowers a measure ends, in the invariant,
with its guard false. -/
theorem whileLoop_total {guard : σ → Bool} {body : σ → σ} {invariant : σ → Prop}
    (measure : σ → ℕ)
    (preserved : ∀ state, invariant state → guard state = true → invariant (body state))
    (decreases : ∀ state, invariant state → guard state = true →
      measure (body state) < measure state)
    {state : σ} (holds : invariant state) :
    ∃ fuel final, whileLoop guard body fuel state = some final ∧ invariant final ∧
      guard final = false := by
  generalize budget : measure state = bound
  induction bound using Nat.strongRecOn generalizing state with
  | ind bound ih =>
      cases running : guard state with
      | false => exact ⟨0, state, whileLoop_exit running, holds, running⟩
      | true =>
          have lower := decreases state holds running
          obtain ⟨fuel, final, finished, last, stopped⟩ :=
            ih (measure (body state)) (by omega) (preserved state holds running) rfl
          exact ⟨fuel + 1, final, by simpa [whileLoop, running] using finished, last, stopped⟩

/-- A loop ends in the first of its rounds in which the guard fails. -/
theorem whileLoop_of_stop {guard : σ → Bool} {body : σ → σ} {fuel : ℕ} {state : σ}
    (stopped : guard (body^[fuel] state) = false) :
    ∃ rounds, rounds ≤ fuel ∧ whileLoop guard body fuel state = some (body^[rounds] state) ∧
      guard (body^[rounds] state) = false ∧
      ∀ earlier, earlier < rounds → guard (body^[earlier] state) = true := by
  induction fuel generalizing state with
  | zero =>
      refine ⟨0, Nat.le_refl 0, whileLoop_exit stopped, stopped, ?_⟩
      intro earlier before
      omega
  | succ fuel ih =>
      cases running : guard state with
      | false =>
          refine ⟨0, Nat.zero_le _, whileLoop_exit running, running, ?_⟩
          intro earlier before
          omega
      | true =>
          rw [Function.iterate_succ_apply] at stopped
          obtain ⟨rounds, bound, ended, last, before⟩ := ih stopped
          refine ⟨rounds + 1, by omega, ?_, ?_, ?_⟩
          · simpa [whileLoop, running, Function.iterate_succ_apply] using ended
          · rwa [Function.iterate_succ_apply]
          · intro earlier less
            cases earlier with
            | zero => exact running
            | succ earlier =>
                rw [Function.iterate_succ_apply]
                exact before earlier (by omega)

/-- A `for` loop of at most `rounds` rounds, the first of them with the counter `time`. The body's
`none` is a `break`; beside the last state stands the counter at which the loop was left. -/
def forLoop (body : ℕ → σ → Option σ) : ℕ → ℕ → σ → σ × Option ℕ
  | 0, _, state => (state, none)
  | rounds + 1, time, state =>
      match body time state with
      | none => (state, some time)
      | some next => forLoop body rounds (time + 1) next

theorem forLoop_sound {body : ℕ → σ → Option σ} {invariant : ℕ → σ → Prop}
    (preserved : ∀ time state next, invariant time state → body time state = some next →
      invariant (time + 1) next)
    {rounds time : ℕ} {state final : σ} {left : Option ℕ} (holds : invariant time state)
    (ended : forLoop body rounds time state = (final, left)) :
    (left = none ∧ invariant (time + rounds) final) ∨
      ∃ stop, left = some stop ∧ time ≤ stop ∧ stop < time + rounds ∧ invariant stop final ∧
        body stop final = none := by
  induction rounds generalizing time state with
  | zero =>
      simp only [forLoop, Prod.mk.injEq] at ended
      obtain ⟨rfl, rfl⟩ := ended
      exact Or.inl ⟨rfl, holds⟩
  | succ rounds ih =>
      simp only [forLoop] at ended
      cases step : body time state with
      | none =>
          simp only [step, Prod.mk.injEq] at ended
          obtain ⟨rfl, rfl⟩ := ended
          exact Or.inr ⟨time, rfl, by omega, by omega, holds, step⟩
      | some next =>
          simp only [step] at ended
          rcases ih (preserved time state next holds step) ended with
            ⟨whole, last⟩ | ⟨stop, early, lower, upper, last, stopped⟩
          · left
            refine ⟨whole, ?_⟩
            rwa [Nat.add_right_comm, Nat.add_assoc] at last
          · exact Or.inr ⟨stop, early, by omega, by omega, last, stopped⟩

end OsLab.Library
