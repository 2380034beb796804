import OsLab.Library.TimeDemand
import Mathlib.Data.Nat.Notation

/-!
The schedule that a rule prescribes for periodic tasks: at each tick the rule picks one of the
tasks whose current job has got less than its burst since its release. Any system that sets work to
the burst at each release and counts it down has, as long as it picks what the rule picks, work
left exactly for these tasks.
-/

namespace OsLab.Library

variable {τ : Type*} [DecidableEq τ]

def lastRelease (arrival period t : ℕ) : ℕ := arrival + (t - arrival) / period * period

theorem lastRelease_releases {arrival period t : ℕ} :
    Releases arrival period (lastRelease arrival period t) := by
  refine ⟨Nat.le_add_right _ _, ?_⟩
  rw [lastRelease, Nat.add_sub_cancel_left, Nat.mul_mod_left]

theorem lastRelease_le {arrival period t : ℕ} (arrived : arrival ≤ t) :
    lastRelease arrival period t ≤ t := by
  have part := Nat.div_mul_le_self (t - arrival) period
  rw [lastRelease]
  omega

theorem lt_lastRelease_add {arrival period t : ℕ} (positive : 0 < period) :
    t < lastRelease arrival period t + period := by
  have whole := Nat.div_add_mod (t - arrival) period
  have less := Nat.mod_lt (t - arrival) positive
  rw [Nat.mul_comm] at whole
  rw [lastRelease]
  omega

section Rule

variable (arrival period : τ → ℕ) (burst : τ → ℤ) (pick : (τ → Bool) → Option τ)

/-- The task has arrived, and its current job has got less than its burst, when the ticks so far
have been given to `choices`. -/
def unfinished (choices : List (Option τ)) (i : τ) : Bool :=
  arrival i ≤ choices.length &&
    (((choices.drop (lastRelease (arrival i) (period i) choices.length)).count (some i) : ℕ) : ℤ) <
      burst i

def prescribed : ℕ → List (Option τ)
  | 0 => []
  | t + 1 => prescribed t ++ [pick (unfinished arrival period burst (prescribed t))]

def prescribedAt (t : ℕ) : Option τ :=
  pick (unfinished arrival period burst (prescribed arrival period burst pick t))

end Rule

variable {arrival period : τ → ℕ} {burst : τ → ℤ} {pick : (τ → Bool) → Option τ}
  {left : ℕ → τ → ℤ} {run : ℕ → Option τ}

theorem prescribed_eq (t : ℕ) : prescribed arrival period burst pick t =
    (List.range t).map (prescribedAt arrival period burst pick) := by
  induction t with
  | zero => rfl
  | succ t ih =>
      rw [prescribed, List.range_succ, List.map_append, ← ih]
      rfl

theorem count_drop_range (run : ℕ → Option τ) (i : τ) (r t : ℕ) :
    (((List.range t).map run).drop r).count (some i) = (FixedPriority.ticks run i r t).card := by
  rw [← List.map_drop, List.range_eq_range', List.drop_range', FixedPriority.ticks,
    List.count_eq_countP, List.countP_map, List.countP_eq_length_filter]
  have distinct : ((List.range' (0 + r * 1) (t - r)).filter
      ((fun choice => choice == some i) ∘ run)).Nodup :=
    List.Nodup.filter _ List.nodup_range'
  rw [← List.toFinset_card_of_nodup distinct]
  congr 1
  ext u
  simp only [List.mem_toFinset, List.mem_filter, List.mem_range'_1, Function.comp_apply,
    beq_iff_eq, Finset.mem_filter, Finset.mem_Ico]
  constructor
  · rintro ⟨inside, here⟩
    exact ⟨by omega, here⟩
  · rintro ⟨inside, here⟩
    exact ⟨by omega, here⟩

theorem PeriodicJobs.unfinished_iff (jobs : PeriodicJobs arrival period burst left run)
    (positive : ∀ i, 0 < period i) {t : ℕ}
    (followed : ∀ u < t, run u = prescribedAt arrival period burst pick u) (i : τ) :
    unfinished arrival period burst (prescribed arrival period burst pick t) i = true ↔
      arrival i ≤ t ∧ 0 < left t i := by
  have same : prescribed arrival period burst pick t = (List.range t).map run := by
    rw [prescribed_eq]
    apply List.map_congr_left
    intro u before
    rw [followed u (List.mem_range.mp before)]
  simp only [unfinished, same, List.length_map, List.length_range, Bool.and_eq_true,
    decide_eq_true_eq, count_drop_range]
  apply and_congr_right
  intro arrived
  have job := jobs.job_left lastRelease_releases (lastRelease_le arrived)
    (lt_lastRelease_add (positive i))
  omega

end OsLab.Library
