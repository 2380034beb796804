import OsLab.Shajith.MlfqChecked

/-!
What a run of `run_mlfq` can have done by a tick, for any input: no more work than ticks have
passed since it came, and, where the last quantum allows nothing, no more than the first two slices
of each process.
-/

namespace OsLab.Shajith

open OsLab.Library

variable {n : ℕ} {quantum : Fin QUEUES → Int} {burst arrival : Fin n → Int} {sim : Sim n}
  {s s' : State n}

/-! ### What a step does to the work left -/

@[simp] theorem arrive_remaining (i : Fin n) (sim : Sim n) (x : Fin n) :
    ((arrive i sim).p x).remaining = (sim.p x).remaining :=
  @field_update n Int sim.p i { sim.p i with arrived := true, queue := 0 } Proc.remaining rfl x

@[simp] theorem finish_remaining (idx : Fin n) (sim : Sim n) (x : Fin n) :
    ((finish idx sim).p x).remaining = (sim.p x).remaining :=
  @field_update n Int sim.p idx { sim.p idx with done := true, finishTime := sim.tick }
    Proc.remaining rfl x

@[simp] theorem requeue_remaining (ql : Fin QUEUES) (idx : Fin n) (sim : Sim n) (x : Fin n) :
    ((requeue ql idx sim).p x).remaining = (sim.p x).remaining :=
  @field_update n Int sim.p idx { sim.p idx with queue := nextQ ql } Proc.remaining rfl x

theorem Step.cases_unit (step : Step quantum s s') :
    (∃ idx ql ran, s.slice = some ⟨idx, ql, ran⟩ ∧ s'.sim = runUnit idx s.sim ∧
      Noticed s.sim ∧ 0 < (s.sim.p idx).remaining) ∨
    (∀ x, (s'.sim.p x).remaining = (s.sim.p x).remaining) ∧ s.sim.tick ≤ s'.sim.tick := by
  cases step with
  | arrive => exact Or.inr ⟨by simp, le_refl _⟩
  | idle => exact Or.inr ⟨fun _ => rfl, Int.le_add_one (le_refl _)⟩
  | pop => exact Or.inr ⟨fun _ => rfl, le_refl _⟩
  | unit noticed _ some => exact Or.inl ⟨_, _, _, rfl, rfl, noticed, some⟩
  | finish => exact Or.inr ⟨by simp, le_refl _⟩
  | requeue => exact Or.inr ⟨by simp, le_refl _⟩

/-! ### What a run that ends tells -/

/-- The work done for those who arrive from `a` on fits in the ticks since `a`. -/
def Paced (burst arrival : Fin n → Int) (sim : Sim n) : Prop :=
  ∀ a, 0 ≤ a → ∑ x with a ≤ arrival x, (burst x - (sim.p x).remaining) ≤ max 0 (sim.tick - a)

theorem start_paced (burst arrival : Fin n → Int) : Paced burst arrival (start burst arrival) := by
  intro a _
  simp [start]

theorem Paced.step (paced : Paced burst arrival s.sim) (sane : Sane burst arrival s)
    (step : Step quantum s s') : Paced burst arrival s'.sim := by
  intro a nonneg
  have before := paced a nonneg
  rcases step.cases_unit with ⟨idx, ql, ran, running, unit, -, -⟩ | ⟨same, later⟩
  · have came := (sane.past idx (sane.going _ running).1).2
    have others : ∀ x, x ≠ idx → ((runUnit idx s.sim).p x).remaining = (s.sim.p x).remaining := by
      intro x other
      simp [runUnit, other]
    rw [unit, runUnit_tick]
    by_cases counted : a ≤ arrival idx
    · have member : idx ∈ Finset.univ.filter fun x => a ≤ arrival x := by simp [counted]
      have rest : ∑ x ∈ (Finset.univ.filter fun x => a ≤ arrival x).erase idx,
          (burst x - ((runUnit idx s.sim).p x).remaining) =
            ∑ x ∈ (Finset.univ.filter fun x => a ≤ arrival x).erase idx,
              (burst x - (s.sim.p x).remaining) :=
        Finset.sum_congr rfl fun x inside => by rw [others x (Finset.ne_of_mem_erase inside)]
      rw [← Finset.add_sum_erase _ _ member] at before ⊢
      rw [rest, runUnit_remaining]
      omega
    · have same : ∑ x with a ≤ arrival x, (burst x - ((runUnit idx s.sim).p x).remaining) =
          ∑ x with a ≤ arrival x, (burst x - (s.sim.p x).remaining) := by
        apply Finset.sum_congr rfl
        intro x inside
        have here := (Finset.mem_filter.mp inside).2
        rw [others x (by rintro rfl; exact counted here)]
      omega
  · simp only [same]
    omega

theorem Paced.steps (paced : Paced burst arrival s.sim) (sane : Sane burst arrival s)
    (steps : Steps quantum s s') : Paced burst arrival s'.sim := by
  induction steps with
  | refl => exact paced
  | tail earlier step ih => exact ih.step (sane.steps earlier) step

def allowance (quantum : Fin QUEUES → Int) (level : Fin QUEUES) : Int :=
  ∑ l with l < level, max 0 (quantum l)

@[simp] theorem allowance_zero (quantum : Fin QUEUES → Int) : allowance quantum 0 = 0 := by
  simp [allowance]

@[simp] theorem allowance_one (quantum : Fin QUEUES → Int) :
    allowance quantum 1 = max 0 (quantum 0) := by
  rw [allowance, Finset.sum_filter, Fin.sum_univ_three]
  simp

@[simp] theorem allowance_two (quantum : Fin QUEUES → Int) :
    allowance quantum 2 = max 0 (quantum 0) + max 0 (quantum 1) := by
  rw [allowance, Finset.sum_filter, Fin.sum_univ_three]
  simp

@[simp] theorem nextQ_zero : nextQ 0 = 1 := rfl

@[simp] theorem nextQ_one : nextQ 1 = 2 := rfl

@[simp] theorem nextQ_two : nextQ 2 = 2 := rfl

theorem level_cases : ∀ ql : Fin QUEUES, ql = 0 ∨ ql = 1 ∨ ql = 2 := by decide

theorem allowance_next (quantum : Fin QUEUES → Int) {ql : Fin QUEUES} (below : ql ≠ 2) :
    allowance quantum (nextQ ql) = allowance quantum ql + max 0 (quantum ql) := by
  rcases level_cases ql with rfl | rfl | rfl
  · simp
  · simp
  · exact absurd rfl below

theorem allowance_le_next (stuck : quantum 2 ≤ 0) (ql : Fin QUEUES) :
    allowance quantum ql + max 0 (quantum ql) ≤ allowance quantum (nextQ ql) ∧
      allowance quantum ql + max 0 (quantum ql) ≤ allowance quantum 2 := by
  rcases level_cases ql with rfl | rfl | rfl
  · simp
  · simp
  · simp [stuck]

/-- What a process has run stays within the allowance of the slices it has had. -/
structure Spent (quantum : Fin QUEUES → Int) (burst : Fin n → Int) (s : State n) : Prop where
  slice : ∀ slice ∈ s.slice, slice.ran ≤ max 0 (quantum slice.ql) ∧
    burst slice.idx - (s.sim.p slice.idx).remaining ≤ allowance quantum slice.ql + slice.ran
  others : ∀ x, (∀ slice ∈ s.slice, slice.idx ≠ x) → burst x - (s.sim.p x).remaining ≤
    allowance quantum (s.sim.p x).queue +
      if (s.sim.p x).done = true then max 0 (quantum (s.sim.p x).queue) else 0

theorem start_spent (quantum : Fin QUEUES → Int) (burst arrival : Fin n → Int) :
    Spent quantum burst ⟨none, start burst arrival⟩ where
  slice := by simp
  others := by simp [start]

theorem Spent.step (spent : Spent quantum burst s) (sane : Sane burst arrival s)
    (stuck : quantum 2 ≤ 0) (step : Step quantum s s') : Spent quantum burst s' := by
  cases step with
  | @arrive slice sim i absent now =>
      constructor
      · intro other running
        simpa using spent.slice other running
      · intro x free
        have before := spent.others x free
        by_cases same : x = i
        · subst x
          have whole : (sim.p i).remaining = burst i := (sane.untouched i absent).1
          simp only [arrive_remaining, whole, sub_self]
          simp [arrive, addToQueue]
          split <;> simp
        · simpa [arrive, addToQueue, same] using before
  | idle => exact ⟨spent.slice, spent.others⟩
  | @pop sim ql idx rest queue =>
      have member : idx ∈ sim.q ql := by simp [queue]
      have popped := sane.pop queue
      obtain ⟨-, undone, level, -⟩ : _ ∧ (sim.p idx).done = false ∧ (sim.p idx).queue = ql ∧ _ :=
        popped.going _ rfl
      have own := spent.others idx (by simp)
      simp only [undone, level] at own
      constructor
      · intro slice running
        rw [Option.mem_some_iff] at running
        subst slice
        exact ⟨le_max_left _ _, by simpa using own⟩
      · exact fun x _ => spent.others x (by simp)
  | @unit sim idx ql ran noticed less some =>
      obtain ⟨within, own⟩ := spent.slice _ rfl
      simp only at within own
      constructor
      · intro slice running
        rw [Option.mem_some_iff] at running
        subst slice
        simp only [runUnit_remaining]
        omega
      · intro x free
        have other : idx ≠ x := free ⟨idx, ql, ran + 1⟩ rfl
        have before := spent.others x (by simpa using other)
        simpa [runUnit, Ne.symm other] using before
  | @finish sim idx ql ran zero =>
      obtain ⟨within, own⟩ := spent.slice _ rfl
      have level : (sim.p idx).queue = ql := (sane.going _ rfl).2.2.1
      simp only at within own
      constructor
      · simp
      · intro x _
        by_cases same : x = idx
        · subst x
          simp only [finish_remaining]
          simp only [finish, Function.update_self, level, if_true]
          omega
        · have before := spent.others x (by simpa using Ne.symm same)
          simpa [finish, same] using before
  | @requeue sim idx ql ran more stopped =>
      obtain ⟨within, own⟩ := spent.slice _ rfl
      have undone : (sim.p idx).done = false := (sane.going _ rfl).2.1
      have next := (allowance_le_next stuck ql).1
      simp only at within own
      constructor
      · simp
      · intro x _
        by_cases same : x = idx
        · subst x
          simp only [requeue_remaining]
          simp only [requeue, addToQueue, Function.update_self, undone]
          simp only [Bool.false_eq_true, if_false]
          omega
        · have before := spent.others x (by simpa using Ne.symm same)
          simpa [requeue, addToQueue, same] using before

theorem Spent.steps (spent : Spent quantum burst s) (sane : Sane burst arrival s)
    (stuck : quantum 2 ≤ 0) (steps : Steps quantum s s') : Spent quantum burst s' := by
  induction steps with
  | refl => exact spent
  | tail earlier step ih => exact ih.step (sane.steps earlier) stuck step

end OsLab.Shajith
