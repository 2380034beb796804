import OsLab.Shajith.MlfqLimits

/-!
Which inputs `run_mlfq` survives: those without negative bursts and arrivals, whose last quantum
makes progress wherever it has to, and whose schedule is over by tick 500.
-/

namespace OsLab.Shajith

open OsLab.Library

variable {n : ℕ} {quantum : Fin QUEUES → Int} {burst arrival : Fin n → Int} {sim : Sim n}
  {s s' : State n}

/-! ### What makes a run end -/

structure Manageable (quantum : Fin QUEUES → Int) (burst arrival : Fin n → Int) : Prop where
  bursts : ∀ x, 0 ≤ burst x
  arrivals : ∀ x, 0 ≤ arrival x
  progress : 1 ≤ quantum 2 ∨ ∀ x, burst x ≤ max 0 (quantum 0) + max 0 (quantum 1)
  short : ∀ x, arrival x + ∑ y with arrival x ≤ arrival y, burst y ≤ GANTT_SIZE

def running (s : State n) (x : Fin n) : Int :=
  match s.slice with
  | some slice => if slice.idx = x then slice.ran else 0
  | none => 0

/-- What holds on such inputs: the full slices behind a process have been run, and since the last
idle tick the work that is left and the clock have not gone past the work that came. -/
structure Kept (quantum : Fin QUEUES → Int) (burst arrival : Fin n → Int) (s : State n) : Prop where
  nonneg : ∀ x, 0 ≤ (s.sim.p x).remaining
  noticed : ∀ x, arrival x < s.sim.tick → (s.sim.p x).arrived = true
  full : ∀ x, (s.sim.p x).done = false → allowance quantum (s.sim.p x).queue + running s x ≤
    burst x - (s.sim.p x).remaining
  busy : (∃ x, (s.sim.p x).arrived = true ∧
      s.sim.tick + ∑ y with (s.sim.p y).arrived = true, (s.sim.p y).remaining ≤
        arrival x + ∑ y with (s.sim.p y).arrived = true ∧ arrival x ≤ arrival y, burst y) ∨
    ∀ x, (s.sim.p x).arrived = true → (s.sim.p x).remaining = 0

theorem start_kept (manageable : Manageable quantum burst arrival) :
    Kept quantum burst arrival ⟨none, start burst arrival⟩ where
  nonneg := manageable.bursts
  noticed := by
    intro x early
    have late := manageable.arrivals x
    simp only [start] at early
    omega
  full := by simp [start, running]
  busy := Or.inr (by simp [start])

namespace Kept

variable (kept : Kept quantum burst arrival s)
include kept

theorem unit_fits (manageable : Manageable quantum burst arrival) {idx : Fin n}
    (came : (s.sim.p idx).arrived = true) (some : 0 < (s.sim.p idx).remaining) :
    s.sim.tick < GANTT_SIZE := by
  rcases kept.busy with ⟨x, -, bound⟩ | idle
  · have work : (s.sim.p idx).remaining ≤
        ∑ y with (s.sim.p y).arrived = true, (s.sim.p y).remaining :=
      Finset.single_le_sum (f := fun y => (s.sim.p y).remaining) (fun y _ => kept.nonneg y)
        (Finset.mem_filter.mpr ⟨Finset.mem_univ idx, came⟩)
    have part : ∑ y with (s.sim.p y).arrived = true ∧ arrival x ≤ arrival y, burst y ≤
        ∑ y with arrival x ≤ arrival y, burst y := by
      apply Finset.sum_le_sum_of_subset_of_nonneg
      · intro y inside
        simp only [Finset.mem_filter, Finset.mem_univ, true_and] at inside ⊢
        exact inside.2
      · exact fun y _ _ => manageable.bursts y
    have short := manageable.short x
    omega
  · have nothing := idle idx came
    omega

theorem idle_fits (manageable : Manageable quantum burst arrival) (sane : Sane burst arrival s)
    (free : s.slice = none) (going : allDone s.sim = false) (noticed : Noticed s.sim)
    (empty : ∀ level, s.sim.q level = []) :
    s.sim.tick < GANTT_SIZE ∧ ∀ x, (s.sim.p x).arrived = true → (s.sim.p x).remaining = 0 := by
  have gone : ∀ x, (s.sim.p x).arrived = true → (s.sim.p x).done = true := by
    intro x came
    have held := sane.held x
    rw [Levels.held_empty empty, free] at held
    by_contra undone
    simp [came, undone] at held
  constructor
  · obtain ⟨x, undone⟩ : ∃ x, (s.sim.p x).done = false := by
      simpa [allDone, List.mem_finRange] using going
    have absent : (s.sim.p x).arrived = false := by
      by_contra came
      simp [gone x (by simpa using came)] at undone
    have later : s.sim.tick < arrival x := by
      rcases lt_trichotomy (arrival x) s.sim.tick with past | now | later
      · simp [kept.noticed x past] at absent
      · simp [noticed x ((sane.due x).trans now)] at absent
      · exact later
    have work : 0 ≤ ∑ y with arrival x ≤ arrival y, burst y :=
      Finset.sum_nonneg fun y _ => manageable.bursts y
    have short := manageable.short x
    omega
  · exact fun x came => (sane.ended x (gone x came)).1

end Kept

/-! ### The steps on such inputs -/

theorem Kept.step_arrive {slice : Option (Slice n)} {i : Fin n}
    (manageable : Manageable quantum burst arrival)
    (kept : Kept quantum burst arrival ⟨slice, sim⟩) (sane : Sane burst arrival ⟨slice, sim⟩)
    (absent : (sim.p i).arrived = false) (now : (sim.p i).arrival = sim.tick) :
    Kept quantum burst arrival ⟨slice, arrive i sim⟩ := by
  have here : (Shajith.arrive i sim).p i = { sim.p i with arrived := true, queue := 0 } := by
    simp [Shajith.arrive, addToQueue]
  have others : ∀ x, x ≠ i → (Shajith.arrive i sim).p x = sim.p x := by
    intro x other
    simp [Shajith.arrive, addToQueue, other]
  have due : (sim.p i).arrival = arrival i := sane.due i
  have arrived : (Finset.univ.filter fun y => ((Shajith.arrive i sim).p y).arrived = true) =
      insert i (Finset.univ.filter fun y => (sim.p y).arrived = true) := by
    ext y
    by_cases same : y = i
    · simp [same, here]
    · simp [others y same, same]
  have fresh : i ∉ Finset.univ.filter fun y => (sim.p y).arrived = true := by simp [absent]
  have work : ∑ y with ((Shajith.arrive i sim).p y).arrived = true, ((Shajith.arrive i sim).p y).remaining =
      burst i + ∑ y with (sim.p y).arrived = true, (sim.p y).remaining := by
    simp only [arrive_remaining]
    rw [arrived, Finset.sum_insert fresh, (sane.untouched i absent).1]
  constructor
  · simpa using kept.nonneg
  · intro x early
    by_cases same : x = i
    · rw [same, here]
    · rw [others x same]
      exact kept.noticed x early
  · intro x undone
    by_cases same : x = i
    · subst x
      have free : running ⟨slice, Shajith.arrive i sim⟩ i = 0 := by
        cases slice with
        | none => rfl
        | some slice =>
            have apart : slice.idx ≠ i := by
              rintro rfl
              have came := (sane.going slice rfl).1
              simp [absent] at came
            simp [running, apart]
      have whole : (sim.p i).remaining = burst i := (sane.untouched i absent).1
      rw [free, here]
      simp [whole]
    · rw [others x same] at undone ⊢
      exact kept.full x undone
  · left
    rcases kept.busy with ⟨x, came, bound⟩ | idle
    · -- the busy period goes on
      have before : arrival x ≤ arrival i := by
        rw [← due, now]
        exact (sane.past x came).2
      have filter : (Finset.univ.filter fun y =>
          ((Shajith.arrive i sim).p y).arrived = true ∧ arrival x ≤ arrival y) =
            insert i (Finset.univ.filter fun y =>
              (sim.p y).arrived = true ∧ arrival x ≤ arrival y) := by
        rw [← Finset.filter_filter, arrived, Finset.filter_insert, if_pos before,
          Finset.filter_filter]
      have apart : x ≠ i := by
        rintro rfl
        simp [absent] at came
      refine ⟨x, by rwa [others x apart], ?_⟩
      rw [work, filter, Finset.sum_insert (by simp [absent])]
      change sim.tick + _ ≤ _
      simp only at bound
      omega
    · -- a busy period begins
      refine ⟨i, by rw [here], ?_⟩
      have nothing : ∑ y with (sim.p y).arrived = true, (sim.p y).remaining = 0 :=
        Finset.sum_eq_zero fun y came => idle y (Finset.mem_filter.mp came).2
      have own : burst i ≤
          ∑ y with ((Shajith.arrive i sim).p y).arrived = true ∧ arrival i ≤ arrival y, burst y :=
        Finset.single_le_sum (fun y _ => manageable.bursts y) (by simp [here])
      rw [work, nothing]
      change sim.tick + (burst i + 0) ≤ arrival i +
        ∑ y with ((Shajith.arrive i sim).p y).arrived = true ∧ arrival i ≤ arrival y, burst y
      omega

theorem Kept.step_unit {idx : Fin n} {ql : Fin QUEUES} {ran : Int}
    (kept : Kept quantum burst arrival ⟨some ⟨idx, ql, ran⟩, sim⟩)
    (sane : Sane burst arrival ⟨some ⟨idx, ql, ran⟩, sim⟩) (noticed : Noticed sim)
    (some : 0 < (sim.p idx).remaining) :
    Kept quantum burst arrival ⟨Option.some ⟨idx, ql, ran + 1⟩, runUnit idx sim⟩ := by
  have others : ∀ x, x ≠ idx → (runUnit idx sim).p x = sim.p x :=
    fun x other => Function.update_of_ne other _ _
  have same : ∀ x, ((runUnit idx sim).p x).arrived = (sim.p x).arrived :=
    @field_update n Bool sim.p idx { sim.p idx with remaining := (sim.p idx).remaining - 1 }
      Proc.arrived rfl
  have came : (sim.p idx).arrived = true := (sane.going _ rfl).1
  constructor
  · intro x
    by_cases own : x = idx
    · subst x
      simp only [runUnit_remaining]
      omega
    · rw [others x own]
      exact kept.nonneg x
  · intro x early
    rw [same]
    simp only [runUnit_tick, Int.lt_add_one_iff] at early
    rcases early.lt_or_eq with past | now
    · exact kept.noticed x past
    · exact noticed x ((sane.due x).trans now)
  · intro x undone
    by_cases own : x = idx
    · subst x
      have before := kept.full idx (by simpa [runUnit] using undone)
      simp only [running, if_true] at before ⊢
      simp only [runUnit_remaining]
      have queue : ((runUnit idx sim).p idx).queue = (sim.p idx).queue := by simp [runUnit]
      rw [queue]
      omega
    · rw [others x own] at undone ⊢
      have before := kept.full x undone
      simpa [running, Ne.symm own] using before
  · left
    rcases kept.busy with ⟨x, there, bound⟩ | idle
    · refine ⟨x, by rwa [same], ?_⟩
      simp only [same, runUnit_tick]
      have member : idx ∈ Finset.univ.filter fun y => (sim.p y).arrived = true := by simp [came]
      have rest : ∑ y ∈ (Finset.univ.filter fun y => (sim.p y).arrived = true).erase idx,
          ((runUnit idx sim).p y).remaining =
            ∑ y ∈ (Finset.univ.filter fun y => (sim.p y).arrived = true).erase idx,
              (sim.p y).remaining :=
        Finset.sum_congr rfl fun y inside => by rw [others y (Finset.ne_of_mem_erase inside)]
      simp only at bound
      rw [← Finset.add_sum_erase _ _ member] at bound ⊢
      rw [rest, runUnit_remaining]
      omega
    · have nothing := idle idx came
      simp only at nothing
      omega

theorem Kept.step_requeue {idx : Fin n} {ql : Fin QUEUES} {ran : Int}
    (kept : Kept quantum burst arrival ⟨some ⟨idx, ql, ran⟩, sim⟩)
    (sane : Sane burst arrival ⟨some ⟨idx, ql, ran⟩, sim⟩) (more : (sim.p idx).remaining ≠ 0)
    (stopped : ¬ (ran < quantum ql ∧ 0 < (sim.p idx).remaining)) :
    Kept quantum burst arrival ⟨none, requeue ql idx sim⟩ := by
  have others : ∀ x, x ≠ idx → (Shajith.requeue ql idx sim).p x = sim.p x :=
    fun x other => Function.update_of_ne other _ _
  have same : ∀ x, ((Shajith.requeue ql idx sim).p x).arrived = (sim.p x).arrived :=
    @field_update n Bool sim.p idx { sim.p idx with queue := nextQ ql } Proc.arrived rfl
  constructor
  · simpa using kept.nonneg
  · intro x early
    rw [same]
    exact kept.noticed x early
  · intro x undone
    by_cases own : x = idx
    · subst x
      obtain ⟨-, still, level, nonneg⟩ : _ ∧ (sim.p idx).done = false ∧ (sim.p idx).queue = ql ∧
        0 ≤ ran := sane.going _ rfl
      have before := kept.full idx still
      have left : 0 ≤ (sim.p idx).remaining := kept.nonneg idx
      have queue : ((Shajith.requeue ql idx sim).p idx).queue = nextQ ql := by
        simp [Shajith.requeue, addToQueue]
      simp only [running, if_true, level] at before
      simp only [running, requeue_remaining, queue]
      by_cases last : ql = 2
      · rw [last] at before ⊢
        rw [nextQ_two]
        omega
      · rw [allowance_next quantum last]
        omega
    · rw [others x own] at undone ⊢
      have before := kept.full x undone
      simpa [running, Ne.symm own] using before
  · have clock : (Shajith.requeue ql idx sim).tick = sim.tick := rfl
    simpa [same, clock] using kept.busy

theorem Kept.step (manageable : Manageable quantum burst arrival)
    (kept : Kept quantum burst arrival s) (sane : Sane burst arrival s)
    (step : Step quantum s s') : Kept quantum burst arrival s' := by
  cases step with
  | arrive i absent now => exact kept.step_arrive manageable sane absent now
  | idle going noticed empty =>
      obtain ⟨-, nothing⟩ := kept.idle_fits manageable sane rfl going noticed empty
      refine { kept with noticed := ?_, busy := Or.inr nothing }
      intro x early
      simp only [idle, Int.lt_add_one_iff] at early
      rcases early.lt_or_eq with past | now
      · exact kept.noticed x past
      · exact noticed x ((sane.due x).trans now)
  | pop queue =>
      refine { kept with full := ?_ }
      intro x undone
      simpa [running] using kept.full x undone
  | unit noticed less some => exact kept.step_unit sane noticed some
  | @finish sim idx ql ran zero =>
      have same : ∀ x, ((finish idx sim).p x).arrived = (sim.p x).arrived :=
        @field_update n Bool sim.p idx { sim.p idx with done := true, finishTime := sim.tick }
          Proc.arrived rfl
      constructor
      · simpa using kept.nonneg
      · intro x early
        rw [same]
        exact kept.noticed x early
      · intro x undone
        by_cases own : x = idx
        · subst x
          simp [finish] at undone
        · have other : (finish idx sim).p x = sim.p x := Function.update_of_ne own _ _
          rw [other] at undone ⊢
          have before := kept.full x undone
          simpa [running, Ne.symm own] using before
      · have clock : (finish idx sim).tick = sim.tick := rfl
        simpa [same, clock] using kept.busy
  | requeue more stopped => exact kept.step_requeue sane more stopped

/-! ### The measure -/

/-- What a process has still to go through: its arrival, and the queues down to the last. -/
def weight (sim : Sim n) (x : Fin n) : ℕ :=
  (if (sim.p x).done = true then 0 else 3 - (sim.p x).queue.val) +
    if (sim.p x).arrived = true then 0 else 1

/-- A slice that has begun without a unit counts less than none, one with a unit more. -/
def phase : Option (Slice n) → ℕ
  | none => 1
  | some slice => if slice.ran = 0 then 0 else 2

def toGo (s : State n) : ℕ :=
  3 * ((GANTT_SIZE - s.sim.tick).toNat + ∑ x, weight s.sim x) + phase s.slice

theorem sum_weight_lt {sim after : Sim n} {i : Fin n} (less : weight after i < weight sim i)
    (others : ∀ x, x ≠ i → after.p x = sim.p x) : ∑ x, weight after x < ∑ x, weight sim x := by
  apply Finset.sum_lt_sum
  · intro x _
    by_cases same : x = i
    · rw [same]
      exact less.le
    · simp only [weight, others x same]
      exact le_refl _
  · exact ⟨i, Finset.mem_univ i, less⟩

theorem Kept.toGo_lt (manageable : Manageable quantum burst arrival)
    (kept : Kept quantum burst arrival s) (sane : Sane burst arrival s)
    (step : Step quantum s s') : toGo s' < toGo s := by
  cases step with
  | @arrive slice sim i absent now =>
      have top : (sim.p i).queue = 0 := (sane.untouched i absent).2
      have less : weight (arrive i sim) i < weight sim i := by
        simp [weight, arrive, addToQueue, absent, top]
      have sum := sum_weight_lt less fun x other => by simp [arrive, addToQueue, other]
      have clock : (arrive i sim).tick = sim.tick := rfl
      simp only [toGo, clock]
      omega
  | @idle sim going noticed empty =>
      have fits := (kept.idle_fits manageable sane rfl going noticed empty).1
      have clock : (idle sim).tick = sim.tick + 1 := rfl
      have same : ∑ x, weight (idle sim) x = ∑ x, weight sim x := rfl
      simp only [toGo, clock, same] at fits ⊢
      omega
  | pop => simp [toGo, phase, weight]
  | @unit sim idx ql ran noticed less some =>
      obtain ⟨came, -, -, nonneg⟩ : (sim.p idx).arrived = true ∧ _ ∧ _ ∧ 0 ≤ ran :=
        sane.going _ rfl
      have fits := kept.unit_fits manageable came some
      have same : ∀ x, weight (runUnit idx sim) x = weight sim x := by
        intro x
        by_cases own : x = idx
        · subst x
          simp [weight, runUnit]
        · simp [weight, runUnit, own]
      have after : phase (Option.some (⟨idx, ql, ran + 1⟩ : Slice n)) = 2 := by
        simp only [phase]
        rw [if_neg (by omega)]
      simp only [toGo, runUnit_tick, same, after] at fits ⊢
      omega
  | @finish sim idx ql ran zero =>
      have undone : (sim.p idx).done = false := (sane.going _ rfl).2.1
      have less : weight (finish idx sim) idx < weight sim idx := by
        have level : (sim.p idx).queue.val < 3 := (sim.p idx).queue.isLt
        simp only [weight, finish, Function.update_self, undone, Bool.false_eq_true, if_true,
          if_false]
        omega
      have sum := sum_weight_lt less fun x other => by simp [finish, other]
      have clock : (finish idx sim).tick = sim.tick := rfl
      simp only [toGo, clock, phase]
      omega
  | @requeue sim idx ql ran more stopped =>
      obtain ⟨-, undone, level, nonneg⟩ : _ ∧ (sim.p idx).done = false ∧
        (sim.p idx).queue = ql ∧ 0 ≤ ran := sane.going _ rfl
      have clock : (requeue ql idx sim).tick = sim.tick := rfl
      have others : ∀ x, x ≠ idx → (requeue ql idx sim).p x = sim.p x :=
        fun x other => Function.update_of_ne other _ _
      by_cases last : ql = 2
      · -- in the last queue the slice has made progress
        have begun : ran ≠ 0 := by
          rintro rfl
          have before := kept.full idx undone
          have left : 0 ≤ (sim.p idx).remaining := kept.nonneg idx
          simp only [running, if_true, level, last, allowance_two] at before
          rw [last] at stopped
          rcases manageable.progress with progress | enough
          · omega
          · have bound := enough idx
            omega
        have same : ∀ x, weight (requeue ql idx sim) x = weight sim x := by
          intro x
          by_cases own : x = idx
          · rw [own]
            simp [weight, requeue, addToQueue, level, last]
          · simp only [weight, others x own]
        simp only [toGo, clock, same, phase, if_neg begun]
        omega
      · have less : weight (requeue ql idx sim) idx < weight sim idx := by
          have next : (nextQ ql).val = ql.val + 1 := by
            rcases level_cases ql with rfl | rfl | rfl
            · rfl
            · rfl
            · exact absurd rfl last
          have bound : (nextQ ql).val < 3 := (nextQ ql).isLt
          simp only [weight, requeue, addToQueue, Function.update_self, undone, level, next]
          simp only [next] at bound
          simp
          omega
        have sum := sum_weight_lt less others
        simp only [toGo, clock, phase]
        omega

/-! ### The loop -/

theorem Kept.fits (kept : Kept quantum burst arrival s)
    (manageable : Manageable quantum burst arrival) (sane : Sane burst arrival s) (fits : Fits s.sim)
    (step : Step quantum s s') : Fits s'.sim := by
  have time := sane.time
  cases step with
  | arrive => exact fits
  | @idle sim going noticed empty =>
      have room := (kept.idle_fits manageable sane rfl going noticed empty).1
      simp only [Fits, idle, List.length_append, List.length_singleton] at time room ⊢
      omega
  | pop => exact fits
  | @unit sim idx ql ran noticed less some =>
      have room := kept.unit_fits manageable (sane.going _ rfl).1 some
      simp only [Fits, runUnit_gantt, List.length_append, List.length_singleton] at time room ⊢
      omega
  | finish => exact fits
  | requeue => exact fits

theorem manageable_steps (manageable : Manageable quantum burst arrival)
    (kept : Kept quantum burst arrival s) (sane : Sane burst arrival s) (fits : Fits s.sim)
    (steps : Relation.TransGen (Step quantum) s s') :
    Kept quantum burst arrival s' ∧ Sane burst arrival s' ∧ Fits s'.sim ∧ toGo s' < toGo s := by
  induction steps with
  | single step =>
      exact ⟨kept.step manageable sane step, sane.step step, kept.fits manageable sane fits step,
        kept.toGo_lt manageable sane step⟩
  | tail _ step ih =>
      obtain ⟨kept, sane, fits, less⟩ := ih
      exact ⟨kept.step manageable sane step, sane.step step, kept.fits manageable sane fits step,
        (kept.toGo_lt manageable sane step).trans less⟩

theorem checked_run (accepted : n ≤ MAX_PROC) {fuel : ℕ} {last : Sim n}
    (sane : Sane burst arrival ⟨none, sim⟩) (fits : Fits sim)
    (ended : checkedLoop (fun sim => !allDone sim) (Checked.body quantum) fuel (fun _ => ()) sim =
      .ok (some last)) :
    Steps quantum ⟨none, sim⟩ ⟨none, last⟩ ∧ allDone last = true ∧ Fits last := by
  induction fuel generalizing sim with
  | zero =>
      cases done : allDone sim with
      | false => simp [checkedLoop, done] at ended
      | true =>
          simp only [checkedLoop, done, Bool.not_true, Bool.false_eq_true, if_false,
            Except.ok.injEq, Option.some.injEq] at ended
          subst last
          exact ⟨.refl, done, fits⟩
  | succ fuel ih =>
      cases done : allDone sim with
      | false =>
          have steps := body_steps quantum done
          simp only [checkedLoop, done, Bool.not_false, if_true, Checked.body] at ended
          have agrees : Agrees (Checked.round quantum sim) (body quantum sim) :=
            Checked.round_agrees sane accepted fits
          rcases agrees with ⟨short, ok⟩ | ⟨-, index, fault⟩
          · rw [ok] at ended
            obtain ⟨later, all, room⟩ := ih (sane.steps steps.to_reflTransGen) short ended
            exact ⟨steps.to_reflTransGen.trans later, all, room⟩
          · rw [fault] at ended
            cases ended
      | true =>
          simp only [checkedLoop, done, Bool.not_true, Bool.false_eq_true, if_false,
            Except.ok.injEq, Option.some.injEq] at ended
          subst last
          exact ⟨.refl, done, fits⟩

theorem runMlfq_fault (accepted : n ≤ MAX_PROC) {fuel : ℕ} {fault : Access}
    (stopped : Checked.runMlfq fuel quantum burst arrival = .error fault) :
    ∃ index, fault = .gantt index := by
  have loop : ∀ fuel : ℕ, ∀ sim : Sim n, Sane burst arrival ⟨none, sim⟩ → Fits sim →
      checkedLoop (fun sim => !allDone sim) (Checked.body quantum) fuel (fun _ => ()) sim =
        .error fault → ∃ index, fault = .gantt index := by
    intro fuel
    induction fuel with
    | zero =>
        intro sim _ _ stopped
        simp [checkedLoop] at stopped
    | succ fuel ih =>
        intro sim sane fits stopped
        cases done : allDone sim with
        | false =>
            simp only [checkedLoop, done, Bool.not_false, if_true, Checked.body] at stopped
            have agrees : Agrees (Checked.round quantum sim) (body quantum sim) :=
              Checked.round_agrees sane accepted fits
            rcases agrees with ⟨short, ok⟩ | ⟨-, index, faulted⟩
            · rw [ok] at stopped
              exact ih _ (sane.steps (body_steps quantum done).to_reflTransGen) short stopped
            · rw [faulted] at stopped
              exact ⟨index, (Except.error.inj stopped).symm⟩
        | true => simp [checkedLoop, done] at stopped
  rw [Checked.runMlfq] at stopped
  split at stopped
  · cases stopped
  · exact loop fuel _ (start_sane burst arrival) (Nat.zero_le _) stopped

theorem manageable_of_steps {last : Sim n}
    (steps : Steps quantum ⟨none, start burst arrival⟩ ⟨none, last⟩) (done : allDone last = true)
    (fits : Fits last) : Manageable quantum burst arrival := by
  have sane := (start_sane burst arrival).steps steps
  have all : ∀ x, (last.p x).done = true := by simpa [allDone, List.mem_finRange] using done
  have left : ∀ x, (last.p x).remaining = 0 := fun x => (sane.ended x (all x)).1
  have past : ∀ x, 0 ≤ arrival x ∧ arrival x ≤ last.tick :=
    fun x => sane.past x (sane.ended x (all x)).2
  constructor
  · intro x
    have least : (last.p x).remaining ≤ burst x := sane.least x
    rw [left] at least
    exact least
  · exact fun x => (past x).1
  · by_contra neither
    rw [not_or] at neither
    have stuck : quantum 2 ≤ 0 := by omega
    apply neither.2
    intro x
    have spent := (start_spent quantum burst arrival).steps (start_sane burst arrival) stuck steps
    have own : burst x - (last.p x).remaining ≤ allowance quantum (last.p x).queue +
        if (last.p x).done = true then max 0 (quantum (last.p x).queue) else 0 :=
      spent.others x (by simp)
    have bound := (allowance_le_next stuck (last.p x).queue).2
    rw [left, all, if_pos rfl] at own
    rw [allowance_two] at bound
    omega
  · intro x
    have begun : Paced burst arrival (State.mk none (start burst arrival)).sim :=
      start_paced burst arrival
    have paced : Paced burst arrival (State.mk none last).sim :=
      begun.steps (start_sane burst arrival) steps
    have work := paced (arrival x) (past x).1
    have time : last.tick = last.gantt.length := sane.time
    have late := (past x).2
    simp only [left, sub_zero] at work
    rw [Fits] at fits
    omega

theorem checked_of_manageable (accepted : n ≤ MAX_PROC)
    (manageable : Manageable quantum burst arrival) :
    Safe (fun sim : Sim n => !allDone sim) (Checked.body quantum) (start burst arrival) := by
  have empty : Fits (start burst arrival) := Nat.zero_le _
  refine Safe.of_measure (fun sim => Kept quantum burst arrival ⟨none, sim⟩ ∧
    Sane burst arrival ⟨none, sim⟩ ∧ Fits sim) (fun sim => toGo ⟨none, sim⟩) ?_
    ⟨start_kept manageable, start_sane burst arrival, empty⟩
  rintro sim - ⟨kept, sane, fits⟩ going
  have steps := body_steps quantum (by simpa using going)
  obtain ⟨kept', sane', fits', less⟩ := manageable_steps manageable kept sane fits steps
  right
  refine ⟨body quantum sim, ?_, ⟨kept', sane', fits'⟩, less⟩
  have agrees : Agrees (Checked.round quantum sim) (body quantum sim) :=
    Checked.round_agrees sane accepted fits
  rcases agrees with ⟨-, ok⟩ | ⟨stopped, -⟩
  · rw [Checked.body, ok]
    rfl
  · exact absurd fits' stopped

theorem runMlfq_eq (accepted : 1 ≤ n ∧ n ≤ MAX_PROC) (fuel : ℕ) :
    Checked.runMlfq fuel quantum burst arrival =
      checkedLoop (fun sim => !allDone sim) (Checked.body quantum) fuel (fun _ => ())
        (start burst arrival) := by
  rw [Checked.runMlfq, if_neg (by omega)]

theorem manageable_of_checked (accepted : 1 ≤ n ∧ n ≤ MAX_PROC) {fuel : ℕ} {last : Sim n}
    (ended : Checked.runMlfq fuel quantum burst arrival = .ok (some last)) :
    Manageable quantum burst arrival := by
  rw [runMlfq_eq accepted] at ended
  obtain ⟨steps, done, fits⟩ :=
    checked_run accepted.2 (start_sane burst arrival) (Nat.zero_le _) ended
  exact manageable_of_steps steps done fits

/-- The run ends with all its accesses in range exactly on the manageable inputs. -/
theorem runMlfq_survives_iff (accepted : 1 ≤ n ∧ n ≤ MAX_PROC) (quantum : Fin QUEUES → Int)
    (burst arrival : Fin n → Int) :
    (∃ fuel last, Checked.runMlfq fuel quantum burst arrival = .ok (some last)) ↔
      Manageable quantum burst arrival := by
  constructor
  · rintro ⟨fuel, last, ended⟩
    exact manageable_of_checked accepted ended
  · intro manageable
    simp only [runMlfq_eq accepted]
    exact ends_iff.mp (checked_of_manageable accepted.2 manageable fun _ => ())

theorem runMlfq_survives_iff_three :
    ∃ fuel last, Checked.runMlfq fuel exampleQuantum exampleBurst exampleArrival =
      .ok (some last) :=
  (runMlfq_survives_iff (by decide) exampleQuantum exampleBurst exampleArrival).mpr
    ⟨by decide, by decide, by decide, by decide⟩

/-- One process that arrives when the chart is full. -/
theorem runMlfq_overflows : ¬ ∃ fuel last,
    Checked.runMlfq fuel exampleQuantum (fun _ : Fin 1 => 1) (fun _ => 500) =
      .ok (some last) := by
  rintro ⟨fuel, last, ended⟩
  have short := (manageable_of_checked (by decide) ended).short 0
  revert short
  decide

end OsLab.Shajith
