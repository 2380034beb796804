import Mathlib.Algebra.BigOperators.Ring.Finset
import Mathlib.Algebra.Order.BigOperators.Group.Finset
import Mathlib.Data.Finset.Max
import Mathlib.Data.Int.Order.Basic
import Mathlib.Data.Nat.Find
import Mathlib.Order.Interval.Finset.Nat
import Mathlib.Tactic.Common

/-!
Periodic tasks on one processor with fixed priorities. A task whose demand, together with that of
the tasks above it, fits into some window no longer than its period finishes every job before its
next release, whatever the offsets are, and also when unfinished work is dropped at a release.
-/

namespace OsLab.Library

variable {τ : Type*}

/-! ### Releases -/

def Releases (arrival period : ℕ) (t : ℕ) : Prop := arrival ≤ t ∧ (t - arrival) % period = 0

instance (arrival period : ℕ) : DecidablePred (Releases arrival period) :=
  fun _ => inferInstanceAs (Decidable (_ ∧ _))

theorem Releases.apart {arrival period s t : ℕ} (first : Releases arrival period s)
    (second : Releases arrival period t) (before : s ≤ t) : ∃ k, t = s + k * period := by
  obtain ⟨lower, left⟩ := first
  obtain ⟨upper, right⟩ := second
  have one := Nat.div_add_mod (s - arrival) period
  have two := Nat.div_add_mod (t - arrival) period
  rw [left, Nat.add_zero] at one
  rw [right, Nat.add_zero] at two
  have order : (s - arrival) / period ≤ (t - arrival) / period := Nat.div_le_div_right (by omega)
  refine ⟨(t - arrival) / period - (s - arrival) / period, ?_⟩
  have split : period * ((t - arrival) / period) = period * ((s - arrival) / period) +
      ((t - arrival) / period - (s - arrival) / period) * period := by
    rw [Nat.mul_comm _ period, ← Nat.mul_add]
    congr 1
    omega
  omega

theorem Releases.quiet {arrival period r u : ℕ} (release : Releases arrival period r)
    (after : r < u) (before : u < r + period) : ¬ Releases arrival period u := by
  intro another
  obtain ⟨k, same⟩ := release.apart another (by omega)
  cases k with
  | zero => omega
  | succ k =>
      have long : period ≤ (k + 1) * period := Nat.le_mul_of_pos_left _ (Nat.succ_pos k)
      omega

theorem card_releases_le {arrival period : ℕ} (positive : 0 < period) (start window : ℕ) :
    ((Finset.Ico start (start + window)).filter (Releases arrival period)).card ≤
      (window + period - 1) / period := by
  rcases Finset.eq_empty_or_nonempty
    ((Finset.Ico start (start + window)).filter (Releases arrival period)) with empty | some
  · rw [empty, Finset.card_empty]
    exact Nat.zero_le _
  · obtain ⟨first, member, least⟩ :=
      ((Finset.Ico start (start + window)).filter (Releases arrival period)).exists_min_image
        id some
    obtain ⟨inside, begins⟩ := Finset.mem_filter.mp member
    have within : (Finset.Ico start (start + window)).filter (Releases arrival period) ⊆
        (Finset.range ((window + period - 1) / period)).image fun k => first + k * period := by
      intro t belongs
      obtain ⟨bounds, release⟩ := Finset.mem_filter.mp belongs
      obtain ⟨k, same⟩ := begins.apart release (least t belongs)
      rw [Finset.mem_Ico] at inside bounds
      have short : k * period < window := by omega
      refine Finset.mem_image.mpr ⟨k, Finset.mem_range.mpr ?_, same.symm⟩
      rw [Nat.lt_div_iff_mul_lt positive]
      omega
    calc
      _ ≤ _ := Finset.card_le_card within
      _ ≤ _ := Finset.card_image_le
      _ = _ := Finset.card_range _

/-! ### Schedules -/

/-- `left t j` is the work task `j` has left when the task of tick `t` is chosen, and `run t` is
that task. At a release the work is set to the burst. -/
structure PeriodicJobs [DecidableEq τ] (arrival period : τ → ℕ) (burst : τ → ℤ) (left : ℕ → τ → ℤ)
    (run : ℕ → Option τ) : Prop where
  released : ∀ t j, Releases (arrival j) (period j) t → left t j = burst j
  kept : ∀ t j, arrival j ≤ t → ¬ Releases (arrival j) (period j) (t + 1) →
    left (t + 1) j = left t j - if run t = some j then 1 else 0

/-- A run with fixed priorities: `left t j` is the work task `j` has left when the task of tick
`t` is chosen, and `run t` is that task. At a release the work is set to the burst. -/
structure FixedPriority [DecidableEq τ] (arrival period : τ → ℕ) (burst : τ → ℤ) (higher : τ → τ → Prop)
    (left : ℕ → τ → ℤ) (run : ℕ → Option τ) : Prop where
  positive : ∀ j, 0 < period j
  nonneg : ∀ j, 0 ≤ burst j
  irrefl : ∀ i, ¬ higher i i
  trans : ∀ i j k, higher i j → higher j k → higher i k
  released : ∀ t j, Releases (arrival j) (period j) t → left t j = burst j
  kept : ∀ t j, arrival j ≤ t → ¬ Releases (arrival j) (period j) (t + 1) →
    left (t + 1) j = left t j - if run t = some j then 1 else 0
  pending : ∀ t j, run t = some j → arrival j ≤ t ∧ 0 < left t j
  urgent : ∀ t i, arrival i ≤ t → 0 < left t i → ∃ j, run t = some j ∧ (j = i ∨ higher j i)

variable [DecidableEq τ] {arrival period : τ → ℕ} {burst : τ → ℤ} {higher : τ → τ → Prop}
  {left : ℕ → τ → ℤ} {run : ℕ → Option τ}

namespace FixedPriority

/-- The ticks from `s` to `t`, without the latter, that the task gets. -/
def ticks (run : ℕ → Option τ) (j : τ) (s t : ℕ) : Finset ℕ :=
  (Finset.Ico s t).filter fun u => run u = some j

theorem card_ticks_succ (run : ℕ → Option τ) (j : τ) {s t : ℕ} (order : s ≤ t) :
    ((ticks run j s (t + 1)).card : ℤ) =
      (ticks run j s t).card + if run t = some j then 1 else 0 := by
  rw [ticks, Nat.Ico_succ_right_eq_insert_Ico order, Finset.filter_insert]
  split
  · rw [Finset.card_insert_of_notMem (by simp)]
    rfl
  · rfl

end FixedPriority

theorem PeriodicJobs.job_left (jobs : PeriodicJobs arrival period burst left run) {i : τ}
    {r u : ℕ} (release : Releases (arrival i) (period i) r) (after : r ≤ u)
    (before : u < r + period i) :
    left u i + (FixedPriority.ticks run i r u).card = burst i := by
  induction u, after using Nat.le_induction with
  | base => simp [FixedPriority.ticks, jobs.released r i release]
  | succ u after ih =>
      have more := ih (by omega)
      have count := FixedPriority.card_ticks_succ run i after
      rw [jobs.kept u i (by have lower := release.1; omega) (release.quiet (by omega) before)]
      omega

namespace FixedPriority

theorem jobs (schedule : FixedPriority arrival period burst higher left run) :
    PeriodicJobs arrival period burst left run where
  released := schedule.released
  kept := schedule.kept

def rest (left : ℕ → τ → ℤ) (run : ℕ → Option τ) (t : ℕ) (j : τ) : ℤ :=
  left t j - if run t = some j then 1 else 0

theorem rest_nonneg (schedule : FixedPriority arrival period burst higher left run) {t : ℕ} {j : τ}
    (nonneg : 0 ≤ left t j) : 0 ≤ rest left run t j := by
  rw [rest]
  split
  · rename_i here
    have some := (schedule.pending t j here).2
    omega
  · omega

theorem left_nonneg (schedule : FixedPriority arrival period burst higher left run) {t : ℕ} {j : τ}
    (arrived : arrival j ≤ t) : 0 ≤ left t j := by
  induction t, arrived using Nat.le_induction with
  | base =>
      rw [schedule.released (arrival j) j ⟨le_refl _, by simp⟩]
      exact schedule.nonneg j
  | succ t arrived ih =>
      by_cases release : Releases (arrival j) (period j) (t + 1)
      · rw [schedule.released (t + 1) j release]
        exact schedule.nonneg j
      · rw [schedule.kept t j arrived release]
        exact schedule.rest_nonneg ih

/-! ### Work carried over -/

def carry (arrival : τ → ℕ) (left : ℕ → τ → ℤ) (run : ℕ → Option τ) : ℕ → τ → ℤ
  | 0, _ => 0
  | t + 1, j => if arrival j ≤ t then rest left run t j else 0

theorem carry_nonneg (schedule : FixedPriority arrival period burst higher left run) (t : ℕ)
    (j : τ) : 0 ≤ carry arrival left run t j := by
  cases t with
  | zero => exact le_refl 0
  | succ t =>
      simp only [carry]
      split
      · rename_i arrived
        exact schedule.rest_nonneg (schedule.left_nonneg arrived)
      · exact le_refl 0

theorem left_of_carry (schedule : FixedPriority arrival period burst higher left run) {t : ℕ}
    {j : τ} (arrived : arrival j ≤ t) (quiet : ¬ Releases (arrival j) (period j) t) :
    left t j = carry arrival left run t j := by
  have later : arrival j ≠ t := by
    intro same
    subst t
    exact quiet ⟨le_refl _, by simp⟩
  cases t with
  | zero => omega
  | succ t =>
      have before : arrival j ≤ t := by omega
      rw [schedule.kept t j before quiet]
      simp only [carry, before, if_true, rest]

theorem ticks_le_releases (schedule : FixedPriority arrival period burst higher left run) {j : τ}
    {s : ℕ} (clear : carry arrival left run s j = 0) (window : ℕ) :
    ((ticks run j s (s + window)).card : ℤ) + carry arrival left run (s + window) j ≤
      ((Finset.Ico s (s + window)).filter (Releases (arrival j) (period j))).card * burst j := by
  induction window with
  | zero => simp [ticks, clear]
  | succ window ih =>
      have order : s ≤ s + window := Nat.le_add_right s window
      have nonneg := schedule.carry_nonneg (s + window) j
      rw [← Nat.add_assoc, card_ticks_succ run j order, carry,
        Nat.Ico_succ_right_eq_insert_Ico order, Finset.filter_insert]
      by_cases arrived : arrival j ≤ s + window
      · rw [if_pos arrived, rest]
        by_cases release : Releases (arrival j) (period j) (s + window)
        · rw [if_pos release, Finset.card_insert_of_notMem (by simp),
            schedule.released _ j release]
          push_cast
          rw [add_mul, one_mul]
          omega
        · rw [if_neg release, schedule.left_of_carry arrived release]
          omega
      · have early : ¬ Releases (arrival j) (period j) (s + window) := fun release =>
          arrived release.1
        have other : run (s + window) ≠ some j := fun here =>
          arrived (schedule.pending _ j here).1
        rw [if_neg arrived, if_neg early, if_neg other]
        omega

theorem ticks_le (schedule : FixedPriority arrival period burst higher left run) {j : τ}
    {s : ℕ} (clear : carry arrival left run s j = 0) (window : ℕ) :
    ((ticks run j s (s + window)).card : ℤ) ≤
      ((window + period j - 1) / period j : ℕ) * burst j := by
  have bound := schedule.ticks_le_releases clear window
  have nonneg := schedule.carry_nonneg (s + window) j
  have few : (((Finset.Ico s (s + window)).filter (Releases (arrival j) (period j))).card : ℤ) ≤
      ((window + period j - 1) / period j : ℕ) :=
    Int.ofNat_le.mpr (card_releases_le (schedule.positive j) s window)
  have most := Int.mul_le_mul_of_nonneg_right few (schedule.nonneg j)
  omega

/-! ### Busy windows -/

/-- The latest tick up to `r` into which no task above `i` carries work; from then on tasks above
`i` run until `r`. -/
theorem busy_start (schedule : FixedPriority arrival period burst higher left run) (i : τ)
    (r : ℕ) : ∃ s, s ≤ r ∧ (∀ j, higher j i → carry arrival left run s j = 0) ∧
      ∀ u, s ≤ u → u < r → ∃ j, run u = some j ∧ higher j i := by
  induction r with
  | zero =>
      refine ⟨0, le_refl 0, fun _ _ => rfl, ?_⟩
      intro u _ before
      omega
  | succ r ih =>
      by_cases clear : ∀ j, higher j i → carry arrival left run (r + 1) j = 0
      · refine ⟨r + 1, le_refl _, clear, ?_⟩
        intro u lower upper
        omega
      · push Not at clear
        obtain ⟨h, above, some⟩ := clear
        have arrived : arrival h ≤ r := by
          by_contra late
          simp [carry, late] at some
        have work : 0 < left r h := by
          have carried := schedule.carry_nonneg (r + 1) h
          have most : rest left run r h ≤ left r h := by
            rw [rest]
            split <;> omega
          simp only [carry, arrived, if_true] at carried some
          omega
        obtain ⟨j, here, order⟩ := schedule.urgent r h arrived work
        have top : higher j i := by
          rcases order with same | more
          · rw [same]
            exact above
          · exact schedule.trans j h i more above
        obtain ⟨s, bound, clear, busy⟩ := ih
        refine ⟨s, by omega, clear, ?_⟩
        intro u lower upper
        by_cases last : u = r
        · subst u
          exact ⟨j, here, top⟩
        · exact busy u lower (by omega)

variable [Fintype τ]

/-- The work of the task and of those above it that can fall into a window. -/
def demand (period : τ → ℕ) (burst : τ → ℤ) (higher : τ → τ → Prop) [DecidableRel higher] (i : τ)
    (window : ℕ) : ℤ :=
  burst i + ∑ j ∈ Finset.univ.filter (higher · i),
    ((window + period j - 1) / period j : ℕ) * burst j

/-- A window in which only the task and those above it run, and the task less than its burst, is
shorter than their demand. -/
theorem window_lt_demand [DecidableRel higher]
    (schedule : FixedPriority arrival period burst higher left run) {i : τ} {s window : ℕ}
    (clear : ∀ j, higher j i → carry arrival left run s j = 0)
    (busy : ∀ u, s ≤ u → u < s + window → run u = some i ∨ ∃ j, run u = some j ∧ higher j i)
    (short : ((ticks run i s (s + window)).card : ℤ) < burst i) :
    (window : ℤ) < demand period burst higher i window := by
  have cover : Finset.Ico s (s + window) ⊆ ticks run i s (s + window) ∪
      (Finset.univ.filter (higher · i)).biUnion fun j => ticks run j s (s + window) := by
    intro u member
    obtain ⟨lower, upper⟩ := Finset.mem_Ico.mp member
    rw [Finset.mem_union, Finset.mem_biUnion]
    rcases busy u lower upper with own | ⟨j, here, above⟩
    · exact Or.inl (Finset.mem_filter.mpr ⟨member, own⟩)
    · exact Or.inr ⟨j, by simp [above], Finset.mem_filter.mpr ⟨member, here⟩⟩
  have count : window ≤ (ticks run i s (s + window)).card +
      ∑ j ∈ Finset.univ.filter (higher · i), (ticks run j s (s + window)).card := by
    calc
      window = (Finset.Ico s (s + window)).card := by simp
      _ ≤ _ := Finset.card_le_card cover
      _ ≤ _ := Finset.card_union_le _ _
      _ ≤ _ := Nat.add_le_add_left Finset.card_biUnion_le _
  have others : ∑ j ∈ Finset.univ.filter (higher · i), ((ticks run j s (s + window)).card : ℤ) ≤
      ∑ j ∈ Finset.univ.filter (higher · i),
        ((window + period j - 1) / period j : ℕ) * burst j := by
    apply Finset.sum_le_sum
    intro j member
    exact schedule.ticks_le (clear j (Finset.mem_filter.mp member).2) window
  have cast : (window : ℤ) ≤ (ticks run i s (s + window)).card +
      ∑ j ∈ Finset.univ.filter (higher · i), ((ticks run j s (s + window)).card : ℤ) := by
    exact_mod_cast count
  rw [demand]
  omega

/-- A task whose demand fits into a window of at most its period gets its burst in every period. -/
theorem job_complete [DecidableRel higher]
    (schedule : FixedPriority arrival period burst higher left run) {i : τ} (window : ℕ)
    (within : window ≤ period i) (fits : demand period burst higher i window ≤ window) {r : ℕ}
    (release : Releases (arrival i) (period i) r) :
    ((ticks run i r (r + period i)).card : ℤ) = burst i := by
  have positive := schedule.positive i
  obtain ⟨last, size⟩ : ∃ last, period i = last + 1 := ⟨period i - 1, by omega⟩
  have whole := schedule.jobs.job_left release (Nat.le_add_right r last) (by omega)
  have count := card_ticks_succ run i (Nat.le_add_right r last)
  have arrived : arrival i ≤ r + last := by
    have lower := release.1
    omega
  have nonneg := schedule.rest_nonneg (schedule.left_nonneg arrived)
  rw [rest] at nonneg
  by_contra missed
  have few : ((ticks run i r (r + period i)).card : ℤ) < burst i := by
    rw [size, ← Nat.add_assoc, count] at missed ⊢
    omega
  -- the job has work left in each tick of its period
  have unfinished : ∀ u, r ≤ u → u < r + period i → 0 < left u i := by
    intro u lower upper
    have job := schedule.jobs.job_left release lower upper
    have fewer : (ticks run i r u).card ≤ (ticks run i r (r + period i)).card := by
      apply Finset.card_le_card
      apply Finset.filter_subset_filter
      exact Finset.Ico_subset_Ico_right (by omega)
    omega
  obtain ⟨s, order, clear, busy⟩ := schedule.busy_start i r
  have full : ∀ u, s ≤ u → u < s + window →
      run u = some i ∨ ∃ j, run u = some j ∧ higher j i := by
    intro u lower upper
    by_cases before : u < r
    · exact Or.inr (busy u lower before)
    · have begun : arrival i ≤ u := by
        have arrived := release.1
        omega
      obtain ⟨j, here, same | above⟩ :=
        schedule.urgent u i begun (unfinished u (by omega) (by omega))
      · rw [same] at here
        exact Or.inl here
      · exact Or.inr ⟨j, here, above⟩
  have own : ticks run i s (s + window) ⊆ ticks run i r (r + period i) := by
    intro u member
    obtain ⟨bounds, here⟩ := Finset.mem_filter.mp member
    rw [Finset.mem_Ico] at bounds
    refine Finset.mem_filter.mpr ⟨Finset.mem_Ico.mpr ⟨?_, by omega⟩, here⟩
    by_contra before
    obtain ⟨j, same, above⟩ := busy u bounds.1 (by omega)
    rw [here, Option.some.injEq] at same
    subst j
    exact schedule.irrefl i above
  have fewer := Finset.card_le_card own
  have short := schedule.window_lt_demand clear full (by omega)
  omega

end FixedPriority

end OsLab.Library
