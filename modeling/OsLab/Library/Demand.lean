import Mathlib

/-!
Unit-cycle schedules of jobs on one processor and the demand they bound. A
schedule gives every job the cycles in which it runs; when all jobs fit between
their release and their deadline, the work released from `start` on and due by
`stop` never exceeds the `stop - start` cycles there are.
-/

namespace OsLab.Library

variable {ι : Type*} [Fintype ι]

/-- Cycles given to each job: inside its window, as many as it needs, none shared. -/
structure UnitSchedule (release deadline work : ι → ℤ) where
  cycles : ι → Finset ℤ
  within : ∀ job, cycles job ⊆ Finset.Ico (release job) (deadline job)
  complete : ∀ job, ((cycles job).card : ℤ) = work job
  exclusive : ∀ first second, first ≠ second → Disjoint (cycles first) (cycles second)

variable {release deadline work : ι → ℤ}

theorem UnitSchedule.demand_le [DecidableEq ι] (schedule : UnitSchedule release deadline work)
    (start stop : ℤ) :
    ∑ job with start ≤ release job ∧ deadline job ≤ stop, work job ≤ max 0 (stop - start) := by
  let due := Finset.univ.filter fun job => start ≤ release job ∧ deadline job ≤ stop
  have inside : due.biUnion schedule.cycles ⊆ Finset.Ico start stop := by
    intro cycle member
    obtain ⟨job, belongs, runs⟩ := Finset.mem_biUnion.mp member
    have window := (Finset.mem_filter.mp belongs).2
    have bounds := Finset.mem_Ico.mp (schedule.within job runs)
    exact Finset.mem_Ico.mpr ⟨by omega, by omega⟩
  have counted : (due.biUnion schedule.cycles).card = ∑ job ∈ due, (schedule.cycles job).card :=
    Finset.card_biUnion fun first _ second _ different => schedule.exclusive first second different
  have room := Finset.card_le_card inside
  calc
    ∑ job ∈ due, work job = ∑ job ∈ due, ((schedule.cycles job).card : ℤ) :=
      Finset.sum_congr rfl fun job _ => (schedule.complete job).symm
    _ = ((due.biUnion schedule.cycles).card : ℤ) := by rw [counted]; push_cast; rfl
    _ ≤ ((Finset.Ico start stop).card : ℤ) := by exact_mod_cast room
    _ = max 0 (stop - start) := by rw [Int.card_Ico]; omega

/-- The work left that is due by `stop` fits in the cycles still to come. -/
def DemandMet (deadline left : ι → ℤ) (now : ℤ) : Prop :=
  ∀ stop, ∑ job with deadline job ≤ stop, left job ≤ max 0 (stop - now)

theorem UnitSchedule.demandMet [DecidableEq ι] (schedule : UnitSchedule release deadline work)
    {now : ℤ} (released : ∀ job, now ≤ release job) : DemandMet deadline work now := by
  intro stop
  simpa [released] using schedule.demand_le now stop

/-- One cycle spent on the earliest deadline among the released unfinished jobs, or on
nothing when there is none, keeps the demand met. -/
theorem DemandMet.advance [DecidableEq ι] (schedule : UnitSchedule release deadline work)
    {left next : ι → ℤ} {now : ℤ} (met : DemandMet deadline left now)
    (nonneg : ∀ job, 0 ≤ next job)
    (untouched : ∀ job, now < release job → next job = work job)
    (progress : (∃ job, next = Function.update left job (left job - 1) ∧
        ∀ other, release other ≤ now → 0 < left other → deadline job ≤ deadline other) ∨
      (next = left ∧ ∀ other, release other ≤ now → left other ≤ 0)) :
    DemandMet deadline next (now + 1) := by
  intro stop
  by_cases served : ∃ job, next = Function.update left job (left job - 1) ∧ deadline job ≤ stop
  · obtain ⟨job, same, due⟩ := served
    have before := met stop
    have member : job ∈ Finset.univ.filter fun other => deadline other ≤ stop := by simp [due]
    have total : ∑ other with deadline other ≤ stop, next other =
        ∑ other with deadline other ≤ stop, left other - 1 := by
      rw [same, Finset.sum_update_of_mem member, ← Finset.add_sum_erase _ left member,
        Finset.sdiff_singleton_eq_erase]
      ring
    have floor : 0 ≤ ∑ other with deadline other ≤ stop, next other :=
      Finset.sum_nonneg fun other _ => nonneg other
    omega
  · -- nothing due by `stop` was released and unfinished, so only later releases count
    have idle : ∀ other, deadline other ≤ stop → release other ≤ now → next other ≤ 0 := by
      intro other due arrived
      rcases progress with ⟨job, same, earliest⟩ | ⟨same, finished⟩
      · by_contra positive
        have different : other ≠ job := fun equal => served ⟨job, same, equal ▸ due⟩
        have unchanged : next other = left other := by simp [same, different]
        have order := earliest other arrived (by omega)
        exact served ⟨job, same, by omega⟩
      · rw [same]
        exact finished other arrived
    calc
      ∑ other with deadline other ≤ stop, next other
          ≤ ∑ other with now + 1 ≤ release other ∧ deadline other ≤ stop, next other := by
        have split := Finset.sum_filter_add_sum_filter_not
          (Finset.univ.filter fun other => deadline other ≤ stop)
          (fun other => now + 1 ≤ release other) next
        have rest : ∑ other ∈ (Finset.univ.filter fun other => deadline other ≤ stop) with
            ¬ now + 1 ≤ release other, next other ≤ 0 := by
          apply Finset.sum_nonpos
          intro other member
          simp only [Finset.mem_filter, Finset.mem_univ, true_and] at member
          exact idle other member.1 (by omega)
        have same : (Finset.univ.filter fun other => deadline other ≤ stop).filter
            (fun other => now + 1 ≤ release other) =
            Finset.univ.filter fun other => now + 1 ≤ release other ∧ deadline other ≤ stop := by
          ext other
          simp [and_comm]
        rw [same] at split
        omega
      _ = ∑ other with now + 1 ≤ release other ∧ deadline other ≤ stop, work other := by
        apply Finset.sum_congr rfl
        intro other member
        simp only [Finset.mem_filter, Finset.mem_univ, true_and] at member
        exact untouched other (by omega)
      _ ≤ max 0 (stop - (now + 1)) := schedule.demand_le (now + 1) stop

end OsLab.Library
