import OsLab.Shajith.Lottery
import Mathlib.Algebra.Order.BigOperators.Group.Finset

/-!
Which inputs `run_lottery` survives, whatever `rand()` gives: those on which no order in which
processes can be drawn and done leaves the others without tickets, draws a process that has no unit
to run, or fills the chart.
-/

namespace OsLab.Shajith.Lottery

open OsLab.Library

variable {n randMax : ℕ} {burst tickets : Fin n → Int} {done drawn : Finset (Fin n)}
  {left : Fin n → Int} {sim : Sim n}

/-- The processes that some result of `rand()` picks when just those of `done` are done. -/
def drawable (randMax : ℕ) (burst tickets : Fin n → Int) (done : Finset (Fin n)) :
    Finset (Fin n) :=
  Finset.univ.filter (Drawable randMax burst tickets done)

/-- Processes that can be done one after the other, each drawn when those before it are done,
together with all that could be drawn on the way. -/
inductive Course (randMax : ℕ) (burst tickets : Fin n → Int) :
    Finset (Fin n) → Finset (Fin n) → Prop
  | start : Course randMax burst tickets ∅ (drawable randMax burst tickets ∅)
  | next {done drawn : Finset (Fin n)} {i : Fin n} : Course randMax burst tickets done drawn →
      Drawable randMax burst tickets done i →
        Course randMax burst tickets (insert i done)
          (drawn ∪ drawable randMax burst tickets (insert i done))

structure Lasting (randMax : ℕ) (burst tickets : Fin n → Int) : Prop where
  divisor : ∀ done drawn, Course randMax burst tickets done drawn → done ≠ Finset.univ →
    countTickets (marked burst tickets done) ≠ 0
  positive : ∀ done drawn, Course randMax burst tickets done drawn → ∀ i ∈ drawn, 1 ≤ burst i
  short : ∀ done drawn, Course randMax burst tickets done drawn →
    ∑ i ∈ drawn, (burst i - if i ∈ done then 0 else 1) ≤ GANTT_SIZE

theorem Course.mem {i : Fin n} (course : Course randMax burst tickets done drawn)
    (drawable : Drawable randMax burst tickets done i) : i ∈ drawn := by
  cases course with
  | start => exact Finset.mem_filter.mpr ⟨Finset.mem_univ i, drawable⟩
  | next => exact Finset.mem_union_right _ (Finset.mem_filter.mpr ⟨Finset.mem_univ i, drawable⟩)

theorem Course.subset (course : Course randMax burst tickets done drawn) : done ⊆ drawn := by
  induction course with
  | start => exact Finset.empty_subset _
  | next course drawable ih =>
      intro j member
      apply Finset.mem_union_left
      rcases Finset.mem_insert.mp member with rfl | before
      · exact course.mem drawable
      · exact ih before

theorem body_cases (reached : Reached burst tickets done left sim) (draw : Fin (randMax + 1)) :
    (countTickets (marked burst tickets done) = 0 ∧ body draw sim = .error .division) ∨
    body draw sim = .ok none ∨
    ∃ i, Drawable randMax burst tickets done i ∧
      ((sim.gantt.length < GANTT_SIZE ∧ body draw sim = .ok (some (award i sim))) ∨
        ¬ sim.gantt.length < GANTT_SIZE ∧ body draw sim = .error (.gantt sim.gantt.length)) := by
  have pick : pickWinner draw sim.p (countTickets sim.p) = pickWinner draw
      (marked burst tickets done) (countTickets (marked burst tickets done)) := by
    rw [reached.pickWinner_eq, reached.countTickets_eq]
  cases picked : pickWinner draw (marked burst tickets done)
      (countTickets (marked burst tickets done)) with
  | error fault =>
      left
      rw [picked] at pick
      rw [pickWinner] at picked
      split at picked
      · rename_i zero
        obtain rfl := Except.error.inj picked
        exact ⟨zero, by simp only [body, pick]; rfl⟩
      · cases picked
  | ok winner =>
      rw [picked] at pick
      right
      cases winner with
      | none =>
          left
          simp only [body, pick]
          rfl
      | some i =>
          right
          refine ⟨i, ⟨draw, picked⟩, ?_⟩
          by_cases room : sim.gantt.length < GANTT_SIZE
          · left
            refine ⟨room, ?_⟩
            simp only [body, pick]
            exact if_pos room
          · right
            refine ⟨room, ?_⟩
            simp only [body, pick]
            exact if_neg room

/-! ### Inputs that last -/

/-- What is left along a course: nothing of those done, some of those drawn, and all of the rest. -/
structure Between (burst : Fin n → Int) (done drawn : Finset (Fin n)) (left : Fin n → Int) :
    Prop where
  gone : ∀ i ∈ done, left i = 0
  undone : ∀ i ∈ drawn, i ∉ done → 1 ≤ left i
  whole : ∀ i, i ∉ drawn → left i = burst i

theorem Between.sum_le (between : Between burst done drawn left) :
    ∑ i, (burst i - left i) ≤ ∑ i ∈ drawn, (burst i - if i ∈ done then 0 else 1) := by
  have rest : ∑ i, (burst i - left i) = ∑ i ∈ drawn, (burst i - left i) := by
    symm
    apply Finset.sum_subset (Finset.subset_univ drawn)
    intro i _ outside
    rw [between.whole i outside, sub_self]
  rw [rest]
  apply Finset.sum_le_sum
  intro i inside
  split
  · rename_i gone
    rw [between.gone i gone]
  · rename_i waiting
    have some := between.undone i inside waiting
    omega

def Lasts (randMax : ℕ) (burst tickets : Fin n → Int) (sim : Sim n) : Prop :=
  ∃ done drawn left, Course randMax burst tickets done drawn ∧
    Reached burst tickets done left sim ∧ Between burst done drawn left

theorem start_lasts (lasting : Lasting randMax burst tickets) :
    Lasts randMax burst tickets (start burst tickets) := by
  refine ⟨∅, _, burst, .start, start_reached burst tickets, by simp, ?_, fun _ _ => rfl⟩
  intro i inside _
  exact lasting.positive ∅ _ .start i inside

theorem Between.award (lasting : Lasting randMax burst tickets)
    (course : Course randMax burst tickets done drawn) (between : Between burst done drawn left)
    {i : Fin n} (drawable : Drawable randMax burst tickets done i) :
    ∃ drawn', Course randMax burst tickets (if left i = 1 then insert i done else done) drawn' ∧
      Between burst (if left i = 1 then insert i done else done) drawn'
        (Function.update left i (left i - 1)) := by
  have waiting := drawable.undone
  have member := course.mem drawable
  have some := between.undone i member waiting
  by_cases last : left i = 1
  · rw [if_pos last]
    have next := course.next drawable
    refine ⟨_, next, ?_, ?_, ?_⟩
    · intro x gone
      by_cases same : x = i
      · subst x
        simp [last]
      · rw [Function.update_of_ne same]
        exact between.gone x ((Finset.mem_insert.mp gone).resolve_left same)
    · intro x inside undone
      rw [Finset.mem_insert, not_or] at undone
      rw [Function.update_of_ne undone.1]
      by_cases before : x ∈ drawn
      · exact between.undone x before undone.2
      · rw [between.whole x before]
        exact lasting.positive _ _ next x inside
    · intro x outside
      rw [Finset.mem_union, not_or] at outside
      have other : x ≠ i := by
        rintro rfl
        exact outside.1 member
      rw [Function.update_of_ne other]
      exact between.whole x outside.1
  · rw [if_neg last]
    refine ⟨drawn, course, ?_, ?_, ?_⟩
    · intro x gone
      rw [Function.update_of_ne (by rintro rfl; exact waiting gone)]
      exact between.gone x gone
    · intro x inside undone
      by_cases same : x = i
      · subst x
        rw [Function.update_self]
        omega
      · rw [Function.update_of_ne same]
        exact between.undone x inside undone
    · intro x outside
      rw [Function.update_of_ne (by rintro rfl; exact outside member)]
      exact between.whole x outside

/-- On lasting inputs every round breaks off or gives a unit for which the chart has room. -/
theorem Lasts.body (lasting : Lasting randMax burst tickets) (lasts : Lasts randMax burst tickets sim)
    (going : (!allDone sim.p) = true) (draw : Fin (randMax + 1)) :
    body draw sim = .ok none ∨ ∃ after, body draw sim = .ok (some after) ∧
      Lasts randMax burst tickets after ∧
      GANTT_SIZE - after.gantt.length < GANTT_SIZE - sim.gantt.length := by
  obtain ⟨done, drawn, left, course, reached, between⟩ := lasts
  have some : done ≠ Finset.univ := by
    rintro rfl
    have all : allDone sim.p = true := by
      rw [allDone, List.all_eq_true]
      exact fun i _ => (reached.gone i).mpr (Finset.mem_univ i)
    simp [all] at going
  rcases body_cases reached draw with ⟨zero, -⟩ | stopped | ⟨i, drawable, cases⟩
  · exact absurd zero (lasting.divisor done drawn course some)
  · exact Or.inl stopped
  · right
    obtain ⟨drawn', course', between'⟩ := between.award lasting course drawable
    have member := Finset.mem_univ i
    -- the unit is one of those that the chart has room for
    have room : sim.gantt.length < GANTT_SIZE := by
      have bound := between'.sum_le.trans (lasting.short _ _ course')
      have written := reached.written
      rw [← Finset.add_sum_erase _ _ member] at bound written
      have rest : ∑ x ∈ Finset.univ.erase i, (burst x - Function.update left i (left i - 1) x) =
          ∑ x ∈ Finset.univ.erase i, (burst x - left x) :=
        Finset.sum_congr rfl fun x other => by
          rw [Function.update_of_ne (Finset.ne_of_mem_erase other)]
      rw [rest, Function.update_self] at bound
      omega
    rcases cases with ⟨-, ok⟩ | ⟨full, -⟩
    · refine ⟨award i sim, ok, ⟨_, drawn', _, course', reached.award drawable.undone room,
        between'⟩, ?_⟩
      simp only [Lottery.award, List.length_append, List.length_singleton]
      omega
    · exact absurd room full

theorem safe_of_lasting (lasting : Lasting randMax burst tickets) :
    Safe (fun sim : Sim n => !allDone sim.p) (@body n randMax) (start burst tickets) :=
  Safe.of_measure (Lasts randMax burst tickets) (fun sim => GANTT_SIZE - sim.gantt.length)
    (fun _ draw lasts going => lasts.body lasting going draw) (start_lasts lasting)

/-! ### What a safe run forces -/

/-- Some choice of results brings a run to the point where just those of `done` are done and
`left` is left, and no results make it fault from there. -/
def Attains (randMax : ℕ) (burst tickets : Fin n → Int) (done : Finset (Fin n))
    (left : Fin n → Int) : Prop :=
  ∃ sim, Safe (fun sim : Sim n => !allDone sim.p) (@body n randMax) sim ∧
    Reached burst tickets done left sim

namespace Attains

variable {i : Fin n}

theorem draw (attains : Attains randMax burst tickets done left)
    (drawable : Drawable randMax burst tickets done i) :
    Attains randMax burst tickets (if left i = 1 then insert i done else done)
      (Function.update left i (left i - 1)) ∧ ∑ x, (burst x - left x) < GANTT_SIZE := by
  obtain ⟨sim, safe, reached⟩ := attains
  obtain ⟨result, picked⟩ := drawable
  have running : (!allDone sim.p) = true := by
    apply reached.running
    rintro rfl
    exact Drawable.undone ⟨result, picked⟩ (Finset.mem_univ i)
  obtain ⟨next, ok⟩ := safe.ok running result
  have same : body result sim =
      if sim.gantt.length < GANTT_SIZE then .ok (some (award i sim))
      else .error (.gantt sim.gantt.length) := by
    simp only [body, reached.pickWinner_eq, reached.countTickets_eq, picked]
    rfl
  by_cases room : sim.gantt.length < GANTT_SIZE
  · rw [if_pos room] at same
    have written := reached.written
    exact ⟨⟨award i sim, safe.step running same,
      reached.award (Drawable.undone ⟨result, picked⟩) room⟩, by omega⟩
  · rw [same, if_neg room] at ok
    cases ok

/-- A process that can be drawn has a unit left: else it could be drawn until the chart is full. -/
theorem positive (attains : Attains randMax burst tickets done left)
    (drawable : Drawable randMax burst tickets done i) : 1 ≤ left i := by
  by_contra nothing
  generalize space : (GANTT_SIZE - ∑ x, (burst x - left x)).toNat = k
  induction k using Nat.strongRecOn generalizing left with
  | ind k ih =>
      obtain ⟨later, room⟩ := attains.draw drawable
      rw [if_neg (by omega)] at later
      have member := Finset.mem_univ i
      have less : ∑ x, (burst x - Function.update left i (left i - 1) x) =
          ∑ x, (burst x - left x) + 1 := by
        rw [← Finset.add_sum_erase _ _ member, ← Finset.add_sum_erase _ (fun x => burst x - left x)
          member, Function.update_self]
        have rest : ∑ x ∈ Finset.univ.erase i,
            (burst x - Function.update left i (left i - 1) x) =
              ∑ x ∈ Finset.univ.erase i, (burst x - left x) :=
          Finset.sum_congr rfl fun x other => by
            rw [Function.update_of_ne (Finset.ne_of_mem_erase other)]
        rw [rest]
        omega
      exact ih _ (by omega) later (by rw [Function.update_self]; omega) rfl

theorem drain (attains : Attains randMax burst tickets done left)
    (drawable : Drawable randMax burst tickets done i) :
    Attains randMax burst tickets done (Function.update left i 1) := by
  generalize units : (left i).toNat = k
  induction k using Nat.strongRecOn generalizing left with
  | ind k ih =>
      have some := attains.positive drawable
      by_cases last : left i = 1
      · rwa [← last, Function.update_eq_self]
      · have later := (attains.draw drawable).1
        rw [if_neg last] at later
        have last := ih _ (by rw [← units, Function.update_self]; omega) later rfl
        rwa [Function.update_idem] at last

theorem drainAll (attains : Attains randMax burst tickets done left) {some : Finset (Fin n)}
    (inside : some ⊆ drawable randMax burst tickets done) :
    Attains randMax burst tickets done fun x => if x ∈ some then 1 else left x := by
  induction some using Finset.induction_on with
  | empty => simpa using attains
  | insert i some _ ih =>
      rw [Finset.insert_subset_iff] at inside
      have before := ih inside.2
      have last := before.drain (Finset.mem_filter.mp inside.1).2
      have same : Function.update (fun x => if x ∈ some then 1 else left x) i 1 =
          fun x => if x ∈ insert i some then 1 else left x := by
        funext x
        by_cases here : x = i
        · simp [here]
        · simp [here]
      rwa [same] at last

end Attains

/-- What is left when those of `done` are done and the others of `drawn` have run all but one of
their units. -/
def drained (burst : Fin n → Int) (done drawn : Finset (Fin n)) (x : Fin n) : Int :=
  if x ∈ done then 0 else if x ∈ drawn then 1 else burst x

theorem Course.attains (first : Attains randMax burst tickets ∅ burst)
    (course : Course randMax burst tickets done drawn) :
    (∀ i ∈ drawn, 1 ≤ burst i) ∧
      Attains randMax burst tickets done (drained burst done drawn) := by
  induction course with
  | start =>
      refine ⟨fun i inside => first.positive (Finset.mem_filter.mp inside).2, ?_⟩
      have all := first.drainAll (Finset.Subset.refl (drawable randMax burst tickets ∅))
      have same : (fun x => if x ∈ drawable randMax burst tickets ∅ then 1 else burst x) =
          drained burst ∅ (drawable randMax burst tickets ∅) := by
        funext x
        simp [drained]
      rwa [same] at all
  | @next done drawn i course pickable ih =>
      obtain ⟨positive, attains⟩ := ih
      have waiting := pickable.undone
      have member := course.mem pickable
      have last : drained burst done drawn i = 1 := by simp [drained, waiting, member]
      have gone := (attains.draw pickable).1
      rw [if_pos last, last] at gone
      have left : Function.update (drained burst done drawn) i (1 - 1) =
          drained burst (insert i done) drawn := by
        funext x
        by_cases same : x = i
        · simp [same, drained]
        · simp [same, drained]
      rw [left] at gone
      constructor
      · intro x inside
        rcases Finset.mem_union.mp inside with before | now
        · exact positive x before
        · by_cases before : x ∈ drawn
          · exact positive x before
          · have fresh := (Finset.mem_filter.mp now).2
            have some := gone.positive fresh
            simpa [drained, fresh.undone, before] using some
      · have all := gone.drainAll
          (Finset.Subset.refl (drawable randMax burst tickets (insert i done)))
        have same : (fun x => if x ∈ drawable randMax burst tickets (insert i done) then 1
            else drained burst (insert i done) drawn x) = drained burst (insert i done)
              (drawn ∪ drawable randMax burst tickets (insert i done)) := by
          funext x
          by_cases now : x ∈ drawable randMax burst tickets (insert i done)
          · have fresh := (Finset.mem_filter.mp now).2
            simp [drained, now, fresh.undone]
          · simp [drained, now]
        rwa [same] at all

theorem sum_drained (subset : done ⊆ drawn) : ∑ i, (burst i - drained burst done drawn i) =
    ∑ i ∈ drawn, (burst i - if i ∈ done then 0 else 1) := by
  symm
  rw [← Finset.sum_subset (Finset.subset_univ drawn)]
  · apply Finset.sum_congr rfl
    intro i inside
    simp [drained, inside]
  · intro i _ outside
    have waiting : i ∉ done := fun gone => outside (subset gone)
    simp [drained, outside, waiting]

theorem lasting_of_safe
    (safe : Safe (fun sim : Sim n => !allDone sim.p) (@body n randMax) (start burst tickets)) :
    Lasting randMax burst tickets := by
  have first : Attains randMax burst tickets ∅ burst :=
    ⟨start burst tickets, safe, start_reached burst tickets⟩
  constructor
  · intro done drawn course some zero
    obtain ⟨sim, safe, reached⟩ := (course.attains first).2
    obtain ⟨next, ok⟩ := safe.ok (reached.running some) 0
    have fault : body (0 : Fin (randMax + 1)) sim = .error .division := by
      simp only [body, reached.countTickets_eq, zero, pickWinner, if_true]
      rfl
    rw [fault] at ok
    cases ok
  · exact fun done drawn course => (course.attains first).1
  · intro done drawn course
    obtain ⟨sim, -, reached⟩ := (course.attains first).2
    have written := reached.written
    have fits := reached.fits
    rw [sum_drained course.subset] at written
    omega

theorem runLottery_eq (accepted : 1 ≤ n ∧ n ≤ MAX_PROC) (fuel : ℕ)
    (rand : ℕ → Fin (randMax + 1)) : runLottery fuel rand burst tickets =
      checkedLoop (fun sim => !allDone sim.p) body fuel rand (start burst tickets) := by
  rw [runLottery, if_neg (by omega)]

theorem lasting_of_runs (accepted : 1 ≤ n ∧ n ≤ MAX_PROC)
    (runs : ∀ rand : ℕ → Fin (randMax + 1), ∃ fuel last,
      runLottery fuel rand burst tickets = .ok (some last)) : Lasting randMax burst tickets := by
  simp only [runLottery_eq accepted, ← ends_iff] at runs
  exact lasting_of_safe runs

/-- Whatever `rand()` gives, the run ends without a division by zero or a write past the chart,
exactly on the lasting inputs. -/
theorem runLottery_survives_iff (accepted : 1 ≤ n ∧ n ≤ MAX_PROC) (randMax : ℕ)
    (burst tickets : Fin n → Int) :
    (∀ rand : ℕ → Fin (randMax + 1), ∃ fuel last,
      runLottery fuel rand burst tickets = .ok (some last)) ↔ Lasting randMax burst tickets := by
  constructor
  · exact lasting_of_runs accepted
  · intro lasting rand
    simp only [runLottery_eq accepted]
    exact ends_iff.mp (safe_of_lasting lasting rand)

/-! ### Positive tickets -/

theorem sum_marked (burst tickets : Fin n → Int) (done : Finset (Fin n)) :
    sumWeights (· + ·) (fun i => !(marked burst tickets done i).done)
      (fun i => (marked burst tickets done i).tickets) (List.finRange n) 0 =
        ∑ i, if i ∈ done then 0 else tickets i := by
  rw [sumWeights_eq, Fin.sum_univ_def, zero_add]
  congr 1
  apply List.map_congr_left
  intro i _
  by_cases gone : i ∈ done <;> simp [marked, start, gone]

section Positive

variable (positive : ∀ i, 1 ≤ tickets i)
include positive

theorem marked_le (burst : Fin n → Int) (done : Finset (Fin n)) :
    sumWeights (· + ·) (fun i => !(marked burst tickets done i).done)
      (fun i => (marked burst tickets done i).tickets) (List.finRange n) 0 ≤ ∑ i, tickets i := by
  rw [sum_marked]
  apply Finset.sum_le_sum
  intro i _
  have some := positive i
  split <;> omega

variable (narrow : ∑ i, tickets i ≤ 2 ^ 31 - 1)
include narrow

theorem countTickets_marked (burst : Fin n → Int) (done : Finset (Fin n)) :
    countTickets (marked burst tickets done) = ∑ i, if i ∈ done then 0 else tickets i := by
  rw [countTickets, ← sum_marked burst tickets done]
  apply sumWeights_plain
  · exact fun a b first second within => plus_eq (by omega) (within.trans narrow)
  · exact fun i _ _ => (positive i).trans' zero_le_one
  · exact le_refl 0
  · exact marked_le positive burst done

theorem drawable_of_positive (range : ∑ i, tickets i ≤ randMax + 1) (burst : Fin n → Int) {i : Fin n}
    (waiting : i ∉ done) : Drawable randMax burst tickets done i := by
  have total := countTickets_marked positive narrow burst done
  have bound := marked_le positive burst done
  have share : ∀ x ∈ List.finRange n, (!(marked burst tickets done x).done) = true →
      0 < (marked burst tickets done x).tickets := fun x _ _ => positive x
  obtain ⟨drawn, lower, upper, found⟩ := scanDrawn_owner
    (fun a b first second within => plus_eq (by omega) (within.trans narrow))
    (List.nodup_finRange n) share (le_refl 0) bound (List.mem_finRange i) (by simp [marked, waiting])
  rw [sum_marked] at upper bound
  refine ⟨⟨drawn.toNat, by omega⟩, ?_⟩
  have result : ((drawn.toNat : Int)).tmod (countTickets (marked burst tickets done)) = drawn := by
    rw [Int.toNat_of_nonneg lower, total, Int.tmod_eq_of_lt lower upper]
  rw [pickWinner, if_neg (by omega)]
  simp only [result]
  exact congrArg Except.ok found

/-- With positive tickets, sums of tickets that are `int`s and results of `rand()` that reach them,
the condition is about the bursts alone. -/
theorem lasting_iff_of_positive (range : ∑ i, tickets i ≤ randMax + 1) (burst : Fin n → Int) :
    Lasting randMax burst tickets ↔ (∀ i, 1 ≤ burst i) ∧ ∑ i, burst i ≤ GANTT_SIZE := by
  have draws : ∀ done i, i ∉ done → Drawable randMax burst tickets done i :=
    fun done i waiting => drawable_of_positive positive narrow range burst waiting
  have all : ∀ done drawn, Course randMax burst tickets done drawn → drawn = Finset.univ := by
    intro done drawn course
    induction course with
    | start =>
        ext i
        simp [drawable, draws]
    | next _ _ ih =>
        ext i
        simp [ih]
  constructor
  · intro lasting
    constructor
    · intro i
      exact lasting.positive ∅ _ .start i
        (Finset.mem_filter.mpr ⟨Finset.mem_univ i, draws ∅ i (Finset.notMem_empty i)⟩)
    · have course : ∀ done : Finset (Fin n), ∃ drawn, Course randMax burst tickets done drawn := by
        intro done
        induction done using Finset.induction_on with
        | empty => exact ⟨_, .start⟩
        | insert i done waiting ih =>
            obtain ⟨drawn, course⟩ := ih
            exact ⟨_, course.next (draws done i waiting)⟩
      obtain ⟨drawn, course⟩ := course Finset.univ
      have short := lasting.short _ _ course
      rw [all _ _ course] at short
      simpa using short
  · rintro ⟨units, short⟩
    constructor
    · intro done drawn _ some
      rw [countTickets_marked positive narrow]
      obtain ⟨i, waiting⟩ : ∃ i, i ∉ done := by
        by_contra none
        apply some
        ext i
        simpa using not_not.mp (not_exists.mp none i)
      have own : tickets i ≤ ∑ x, if x ∈ done then 0 else tickets x := by
        have least := Finset.single_le_sum (f := fun x => if x ∈ done then 0 else tickets x)
          (s := Finset.univ) (fun x _ => by have some := positive x; split <;> omega)
          (Finset.mem_univ i)
        simpa [waiting] using least
      have one := positive i
      omega
    · exact fun _ _ _ i _ => units i
    · intro done drawn course
      rw [all _ _ course]
      refine le_trans ?_ short
      apply Finset.sum_le_sum
      intro i _
      split <;> omega

end Positive

def twoBursts : Fin 2 → Int := ![3, 4]

def twoTickets : Fin 2 → Int := ![5, 1]

theorem runLottery_survives_iff_two : Lasting 32767 twoBursts twoTickets ∧
    ∀ rand : ℕ → Fin (32767 + 1), ∃ fuel last,
      runLottery fuel rand twoBursts twoTickets = .ok (some last) := by
  have lasting : Lasting 32767 twoBursts twoTickets :=
    (lasting_iff_of_positive (by decide) (by decide) (by decide) twoBursts).mpr
      ⟨by decide, by decide⟩
  exact ⟨lasting, (runLottery_survives_iff (by decide) 32767 twoBursts twoTickets).mpr lasting⟩

/-- One process without tickets: the first draw divides by zero. -/
theorem runLottery_divides : ¬ ∀ rand : ℕ → Fin (32767 + 1), ∃ fuel last,
    runLottery fuel rand (fun _ : Fin 1 => 1) (fun _ => 0) = .ok (some last) := by
  intro runs
  refine (lasting_of_runs (by decide) runs).divisor ∅ _ .start (by decide) ?_
  decide

end OsLab.Shajith.Lottery
