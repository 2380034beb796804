import Mathlib.Data.Nat.Notation
import Mathlib.Logic.Basic

/-!
A `while` loop whose body reads an input in each round, can fault, and can leave the loop. A state
is safe when the loop ends from it without a fault whatever the inputs are: then so is every state
that it can pass through, and a measure that each round lowers shows it. A counted loop that can
fault ends when each of its turns keeps an invariant.
-/

namespace OsLab.Library

variable {σ ι ε : Type*}

/-- The state in which the loop ends, when that takes at most `fuel` rounds. A body's `none` is a
`break`. -/
def checkedLoop (guard : σ → Bool) (body : ι → σ → Except ε (Option σ)) :
    ℕ → (ℕ → ι) → σ → Except ε (Option σ)
  | 0, _, state => .ok (if guard state then none else some state)
  | fuel + 1, inputs, state =>
      if guard state then
        match body (inputs 0) state with
        | .error fault => .error fault
        | .ok none => .ok (some state)
        | .ok (some next) => checkedLoop guard body fuel (fun k => inputs (k + 1)) next
      else .ok (some state)

inductive Ends (guard : σ → Bool) (body : ι → σ → Except ε (Option σ)) : (ℕ → ι) → σ → Prop
  | exit {inputs : ℕ → ι} {state : σ} : guard state = false → Ends guard body inputs state
  | leave {inputs : ℕ → ι} {state : σ} :
      guard state = true → body (inputs 0) state = .ok none → Ends guard body inputs state
  | next {inputs : ℕ → ι} {state after : σ} :
      guard state = true → body (inputs 0) state = .ok (some after) →
        Ends guard body (fun k => inputs (k + 1)) after → Ends guard body inputs state

variable {guard : σ → Bool} {body : ι → σ → Except ε (Option σ)} {inputs : ℕ → ι} {state : σ}

theorem ends_iff : Ends guard body inputs state ↔
    ∃ fuel last, checkedLoop guard body fuel inputs state = .ok (some last) := by
  constructor
  · intro ends
    induction ends with
    | exit stopped => exact ⟨0, _, by simp [checkedLoop, stopped]; rfl⟩
    | leave running left => exact ⟨1, _, by simp [checkedLoop, running, left]; rfl⟩
    | next running step _ ih =>
        obtain ⟨fuel, last, ended⟩ := ih
        exact ⟨fuel + 1, last, by simpa [checkedLoop, running, step] using ended⟩
  · rintro ⟨fuel, last, ended⟩
    induction fuel generalizing inputs state with
    | zero =>
        cases running : guard state with
        | false => exact .exit running
        | true => simp [checkedLoop, running] at ended
    | succ fuel ih =>
        cases running : guard state with
        | false => exact .exit running
        | true =>
            simp only [checkedLoop, running, if_true] at ended
            split at ended
            · cases ended
            · rename_i left
              exact .leave running left
            · rename_i after step
              exact .next running step (ih ended)

def Safe (guard : σ → Bool) (body : ι → σ → Except ε (Option σ)) (state : σ) : Prop :=
  ∀ inputs, Ends guard body inputs state

namespace Safe

theorem ok (safe : Safe guard body state) (running : guard state = true) (input : ι) :
    ∃ result, body input state = .ok result := by
  cases safe fun _ => input with
  | exit stopped => simp [running] at stopped
  | leave _ left => exact ⟨none, left⟩
  | next _ step _ => exact ⟨some _, step⟩

theorem step (safe : Safe guard body state) (running : guard state = true) {input : ι}
    {after : σ} (step : body input state = .ok (some after)) : Safe guard body after := by
  intro inputs
  cases safe fun | 0 => input | k + 1 => inputs k with
  | exit stopped => simp [running] at stopped
  | leave _ left => simp [step] at left
  | next _ same ends =>
      simp only [step, Except.ok.injEq, Option.some.injEq] at same
      subst same
      exact ends

theorem of_measure (invariant : σ → Prop) (measure : σ → ℕ)
    (rounds : ∀ state input, invariant state → guard state = true →
      body input state = .ok none ∨ ∃ after, body input state = .ok (some after) ∧
        invariant after ∧ measure after < measure state)
    (holds : invariant state) : Safe guard body state := by
  intro inputs
  generalize budget : measure state = bound
  induction bound using Nat.strongRecOn generalizing state inputs with
  | ind bound ih =>
      cases running : guard state with
      | false => exact .exit running
      | true =>
          rcases rounds state (inputs 0) holds running with left | ⟨after, step, kept, less⟩
          · exact .leave running left
          · exact .next running step (ih (measure after) (by omega) kept _ rfl)

end Safe

/-- A counted loop runs without a fault when each turn keeps an invariant of the counter. -/
theorem foldlM_range {turn : σ → ℕ → Except ε σ} (invariant : ℕ → σ → Prop) {state : σ}
    (start : invariant 0 state) (n : ℕ)
    (step : ∀ k state, k < n → invariant k state →
      ∃ next, turn state k = .ok next ∧ invariant (k + 1) next) :
    ∃ last, (List.range n).foldlM turn state = .ok last ∧ invariant n last := by
  induction n with
  | zero => exact ⟨state, rfl, start⟩
  | succ n ih =>
      obtain ⟨middle, ran, holds⟩ := ih fun k state below => step k state (by omega)
      obtain ⟨last, turned, done⟩ := step n middle (by omega) holds
      refine ⟨last, ?_, done⟩
      rw [List.range_succ, List.foldlM_append, ran]
      show ([n].foldlM turn middle) = _
      rw [List.foldlM_cons, turned]
      rfl

end OsLab.Library
