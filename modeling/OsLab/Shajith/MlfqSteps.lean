import OsLab.Shajith.MlfqQueues
import Mathlib.Logic.Relation

/-!
`run_mlfq` in small steps, for any bursts, arrivals and quanta: an arrival is noticed, a slice
begins, runs a unit or ends, or a unit passes in which nobody is queued. Every round of the outer
loop is a run of such steps, so that an invariant need only be kept by each of them.
-/

namespace OsLab.Shajith

open OsLab.Library

variable {n : ℕ} {quantum : Fin QUEUES → Int}

/-- A slice under way: the process, the queue it came from and the units it has run. -/
structure Slice (n : ℕ) where
  idx : Fin n
  ql : Fin QUEUES
  ran : Int

structure State (n : ℕ) where
  slice : Option (Slice n)
  sim : Sim n

def Noticed (sim : Sim n) : Prop :=
  ∀ x, (sim.p x).arrival = sim.tick → (sim.p x).arrived = true

def arrive (i : Fin n) (sim : Sim n) : Sim n :=
  addToQueue { sim with
    p := Function.update sim.p i { sim.p i with arrived := true, queue := topQueue }
    entered := sim.entered ++ [(i, sim.tick)] } topQueue i

def idle (sim : Sim n) : Sim n := { sim with gantt := sim.gantt ++ [0], tick := sim.tick + 1 }

def finish (idx : Fin n) (sim : Sim n) : Sim n :=
  { sim with
    p := Function.update sim.p idx { sim.p idx with done := true, finishTime := sim.tick } }

def requeue (ql : Fin QUEUES) (idx : Fin n) (sim : Sim n) : Sim n :=
  addToQueue { sim with p := Function.update sim.p idx { sim.p idx with queue := nextQ ql } }
    (nextQ ql) idx

inductive Step (quantum : Fin QUEUES → Int) : State n → State n → Prop
  | arrive {slice : Option (Slice n)} {sim : Sim n} (i : Fin n) :
      (sim.p i).arrived = false → (sim.p i).arrival = sim.tick →
        Step quantum ⟨slice, sim⟩ ⟨slice, arrive i sim⟩
  | idle {sim : Sim n} : allDone sim = false → Noticed sim → (∀ level, sim.q level = []) →
      Step quantum ⟨none, sim⟩ ⟨none, idle sim⟩
  | pop {sim : Sim n} {ql : Fin QUEUES} {idx : Fin n} {rest : List (Fin n)} :
      sim.q ql = idx :: rest →
        Step quantum ⟨none, sim⟩ ⟨some ⟨idx, ql, 0⟩, { sim with q := Levels.pop sim.q ql }⟩
  | unit {sim : Sim n} {idx : Fin n} {ql : Fin QUEUES} {ran : Int} : Noticed sim →
      ran < quantum ql → 0 < (sim.p idx).remaining →
        Step quantum ⟨some ⟨idx, ql, ran⟩, sim⟩ ⟨some ⟨idx, ql, ran + 1⟩, runUnit idx sim⟩
  | finish {sim : Sim n} {idx : Fin n} {ql : Fin QUEUES} {ran : Int} :
      (sim.p idx).remaining = 0 → Step quantum ⟨some ⟨idx, ql, ran⟩, sim⟩ ⟨none, finish idx sim⟩
  | requeue {sim : Sim n} {idx : Fin n} {ql : Fin QUEUES} {ran : Int} :
      (sim.p idx).remaining ≠ 0 → ¬ (ran < quantum ql ∧ 0 < (sim.p idx).remaining) →
        Step quantum ⟨some ⟨idx, ql, ran⟩, sim⟩ ⟨none, requeue ql idx sim⟩

abbrev Steps (quantum : Fin QUEUES → Int) : State n → State n → Prop :=
  Relation.ReflTransGen (Step quantum)

/-! ### The functions as steps -/

theorem checkArrival_cases (sim : Sim n) (i : Fin n) :
    (checkArrival sim i = arrive i sim ∧ (sim.p i).arrived = false ∧
        (sim.p i).arrival = sim.tick) ∨
      checkArrival sim i = sim ∧ ((sim.p i).arrival = sim.tick → (sim.p i).arrived = true) := by
  by_cases here : (sim.p i).arrived = false ∧ (sim.p i).arrival = sim.tick
  · exact Or.inl ⟨by rw [checkArrival, if_pos here, arrive], here⟩
  · refine Or.inr ⟨by rw [checkArrival, if_neg here], ?_⟩
    intro now
    by_contra absent
    exact here ⟨by simpa using absent, now⟩

theorem checkArrivals_steps (quantum : Fin QUEUES → Int) (slice : Option (Slice n))
    (sim : Sim n) : Steps quantum ⟨slice, sim⟩ ⟨slice, checkArrivals sim⟩ := by
  have visits : ∀ visits : List (Fin n), ∀ sim : Sim n,
      Steps quantum ⟨slice, sim⟩ ⟨slice, visits.foldl checkArrival sim⟩ := by
    intro visits
    induction visits with
    | nil => exact fun _ => .refl
    | cons i rest ih =>
        intro sim
        rw [List.foldl_cons]
        rcases checkArrival_cases sim i with ⟨added, absent, now⟩ | ⟨same, -⟩
        · rw [added]
          exact .head (.arrive i absent now) (ih _)
        · rw [same]
          exact ih sim
  exact visits (List.finRange n) sim

theorem checkArrival_field {α : Type*} (field : Proc → α)
    (same : ∀ value : Proc, field { value with arrived := true, queue := 0 } = field value)
    (sim : Sim n) (i x : Fin n) : field ((checkArrival sim i).p x) = field (sim.p x) := by
  rcases checkArrival_cases sim i with ⟨added, -⟩ | ⟨kept, -⟩
  · rw [added]
    exact field_update field (same (sim.p i)) x
  · rw [kept]

theorem checkArrival_arrived (sim : Sim n) (i x : Fin n) (before : (sim.p x).arrived = true) :
    ((checkArrival sim i).p x).arrived = true := by
  rcases checkArrival_cases sim i with ⟨added, -⟩ | ⟨kept, -⟩
  · rw [added]
    by_cases here : x = i
    · subst x
      simp [arrive, addToQueue]
    · simp [arrive, addToQueue, here, before]
  · rw [kept, before]

theorem checkArrivals_noticed (sim : Sim n) : Noticed (checkArrivals sim) := by
  have visits : ∀ visits : List (Fin n), ∀ sim : Sim n, ∀ x,
      x ∈ visits ∨ (sim.p x).arrived = true → (sim.p x).arrival = sim.tick →
        ((visits.foldl checkArrival sim).p x).arrived = true := by
    intro visits
    induction visits with
    | nil =>
        intro sim x before _
        simpa using before
    | cons i rest ih =>
        intro sim x before now
        rw [List.foldl_cons]
        apply ih
        · by_cases here : x = i
          · subst x
            right
            rcases checkArrival_cases sim i with ⟨added, -⟩ | ⟨kept, there⟩
            · simp [added, arrive, addToQueue]
            · rw [kept]
              exact there now
          · rcases before with later | before
            · exact Or.inl ((List.mem_cons.mp later).resolve_left here)
            · exact Or.inr (checkArrival_arrived sim i x before)
        · rw [checkArrival_tick, checkArrival_field Proc.arrival (fun _ => rfl)]
          exact now
  intro x now
  rw [checkArrivals_tick] at now
  have kept : ((checkArrivals sim).p x).arrival = (sim.p x).arrival :=
    checkArrivals_same (fun sim => (sim.p x).arrival)
      (fun sim i => checkArrival_field Proc.arrival (fun _ => rfl) sim i x) sim
  exact visits (List.finRange n) sim x (Or.inl (List.mem_finRange x)) (kept.symm.trans now)

theorem retire_step {idx : Fin n} {ql : Fin QUEUES} {ran : Int} {sim : Sim n}
    (stopped : ¬ (ran < quantum ql ∧ 0 < (sim.p idx).remaining)) :
    Step quantum ⟨some ⟨idx, ql, ran⟩, sim⟩ ⟨none, retire ql idx sim⟩ := by
  rw [retire]
  split
  · rename_i zero
    exact .finish zero
  · rename_i more
    exact .requeue more stopped

theorem slice_steps {idx : Fin n} {ql : Fin QUEUES} {ran : Int} {sim : Sim n} (nonneg : 0 ≤ ran)
    (noticed : ran = 0 → Noticed sim) : ∃ units,
      Steps quantum ⟨some ⟨idx, ql, ran⟩, sim⟩
        ⟨some ⟨idx, ql, units⟩, slice idx (quantum ql) ran sim⟩ ∧
      ¬ (units < quantum ql ∧ 0 < ((slice idx (quantum ql) ran sim).p idx).remaining) := by
  induction ran, sim using Shajith.slice.induct idx (quantum ql) with
  | case1 ran sim going ih =>
      rw [slice, if_pos going]
      by_cases begun : 0 < ran
      · simp only [begun, dite_true, if_true] at ih ⊢
        obtain ⟨units, steps, stopped⟩ := ih (by omega) (by omega)
        refine ⟨units, ?_, stopped⟩
        refine (checkArrivals_steps quantum _ sim).trans (.head ?_ steps)
        exact .unit (checkArrivals_noticed sim) going.1 (by simpa using going.2)
      · simp only [begun, dite_false, if_false] at ih ⊢
        obtain ⟨units, steps, stopped⟩ := ih (by omega) (by omega)
        exact ⟨units, .head (.unit (noticed (by omega)) going.1 going.2) steps, stopped⟩
  | case2 ran sim stopped =>
      rw [slice, if_neg stopped]
      exact ⟨ran, .refl, stopped⟩

theorem allDone_checkArrivals (sim : Sim n) : allDone (checkArrivals sim) = allDone sim := by
  apply checkArrivals_same
  intro sim i
  simp only [allDone, checkArrival_field Proc.done fun _ => rfl]

theorem body_steps (quantum : Fin QUEUES → Int) {sim : Sim n} (going : allDone sim = false) :
    Relation.TransGen (Step quantum) ⟨none, sim⟩ ⟨none, body quantum sim⟩ := by
  refine .trans_right (checkArrivals_steps quantum none sim) ?_
  have noticed := checkArrivals_noticed sim
  rw [← allDone_checkArrivals] at going
  rw [body]
  generalize checkArrivals sim = checked at noticed going
  cases found : findQueue checked with
  | none =>
      simp only [serve, found]
      exact .single (.idle going noticed (findQueue_none found))
  | some ql =>
      obtain ⟨idx, rest, queue⟩ := List.exists_cons_of_ne_nil (findQueue_some found).1
      have front : popFront checked ql =
          some (idx, { checked with q := Levels.pop checked.q ql }) := by
        simp only [popFront, queue]
      have popped : Noticed { checked with q := Levels.pop checked.q ql } := noticed
      simp only [serve, found, front]
      obtain ⟨units, steps, stopped⟩ := slice_steps (le_refl 0) fun _ => popped
      exact (Relation.TransGen.head' (.pop queue) steps).tail (retire_step stopped)

/-! ### Bookkeeping -/

/-- What holds after every step, whatever the input: each process is in one place, and its fields
and the clock say what has happened to it. -/
structure Sane (burst arrival : Fin n → Int) (s : State n) : Prop where
  due : ∀ x, (s.sim.p x).arrival = arrival x
  held : ∀ x, Levels.held s.sim.q x = if (s.sim.p x).arrived = true ∧ (s.sim.p x).done = false ∧
    s.slice.map Slice.idx ≠ some x then 1 else 0
  placed : ∀ level, ∀ x ∈ s.sim.q level, (s.sim.p x).queue = level
  going : ∀ slice ∈ s.slice, (s.sim.p slice.idx).arrived = true ∧
    (s.sim.p slice.idx).done = false ∧ (s.sim.p slice.idx).queue = slice.ql ∧ 0 ≤ slice.ran
  time : s.sim.tick = s.sim.gantt.length
  past : ∀ x, (s.sim.p x).arrived = true → 0 ≤ arrival x ∧ arrival x ≤ s.sim.tick
  ended : ∀ x, (s.sim.p x).done = true → (s.sim.p x).remaining = 0 ∧ (s.sim.p x).arrived = true
  untouched : ∀ x, (s.sim.p x).arrived = false →
    (s.sim.p x).remaining = burst x ∧ (s.sim.p x).queue = 0
  least : ∀ x, (s.sim.p x).remaining ≤ burst x

variable {burst arrival : Fin n → Int} {sim : Sim n} {s s' : State n}

theorem start_sane (burst arrival : Fin n → Int) :
    Sane burst arrival ⟨none, start burst arrival⟩ := by
  constructor <;> simp [start, Levels.held]

namespace Sane

theorem held_le (sane : Sane burst arrival s) (x : Fin n) : Levels.held s.sim.q x ≤ 1 := by
  rw [sane.held]
  split <;> omega

theorem arrive {slice : Option (Slice n)} {i : Fin n} (sane : Sane burst arrival ⟨slice, sim⟩)
    (absent : (sim.p i).arrived = false) (now : (sim.p i).arrival = sim.tick) :
    Sane burst arrival ⟨slice, arrive i sim⟩ := by
  have undone : (sim.p i).done = false := by
    by_contra done
    have came := (sane.ended i (by simpa using done)).2
    simp [absent] at came
  have apart : ∀ other ∈ slice, other.idx ≠ i := by
    intro other running same
    have came := (sane.going other running).1
    simp [same, absent] at came
  have kept : ∀ {α : Type} (field : Proc → α),
      field { sim.p i with arrived := true, queue := 0 } = field (sim.p i) →
        ∀ x, field ((Shajith.arrive i sim).p x) = field (sim.p x) :=
    fun field same x => field_update field same x
  constructor
  · exact fun x => (kept Proc.arrival rfl x).trans (sane.due x)
  · intro x
    have before := sane.held x
    simp only [Shajith.arrive, addToQueue, Levels.held_push, before]
    by_cases same : x = i
    · subst x
      have free : Option.map Slice.idx slice ≠ some i := by
        intro running
        obtain ⟨other, here, idx⟩ := Option.map_eq_some_iff.mp running
        exact apart other here idx
      simp [absent, undone, free]
    · simp [same, Ne.symm same]
  · intro level x member
    simp only [Shajith.arrive, addToQueue, Levels.push] at member ⊢
    by_cases same : x = i
    · subst x
      by_cases top : level = 0
      · simp [top]
      · rw [Function.update_of_ne top] at member
        have here := Levels.held_pos member
        rw [sane.held] at here
        simp [absent] at here
    · rw [Function.update_of_ne same]
      by_cases top : level = 0
      · subst level
        rw [Function.update_self, List.mem_append, List.mem_singleton] at member
        exact sane.placed 0 x (member.resolve_right same)
      · rw [Function.update_of_ne top] at member
        exact sane.placed level x member
  · intro other running
    simpa [Shajith.arrive, addToQueue, apart other running] using sane.going other running
  · exact sane.time
  · intro x came
    by_cases same : x = i
    · subst x
      have due : (sim.p i).arrival = arrival i := sane.due i
      have time : sim.tick = sim.gantt.length := sane.time
      exact ⟨by omega, by rw [← due, now]; rfl⟩
    · simp only [Shajith.arrive, addToQueue, Function.update_of_ne same] at came
      exact sane.past x came
  · intro x done
    by_cases same : x = i
    · subst x
      simp [Shajith.arrive, addToQueue, undone] at done
    · simpa [Shajith.arrive, addToQueue, same] using
        sane.ended x (by simpa [Shajith.arrive, addToQueue, same] using done)
  · intro x still
    by_cases same : x = i
    · subst x
      simp [Shajith.arrive, addToQueue] at still
    · simpa [Shajith.arrive, addToQueue, same] using
        sane.untouched x (by simpa [Shajith.arrive, addToQueue, same] using still)
  · intro x
    rw [kept Proc.remaining rfl]
    exact sane.least x

theorem idle (sane : Sane burst arrival ⟨none, sim⟩) :
    Sane burst arrival ⟨none, idle sim⟩ := by
  refine { sane with time := ?_, past := ?_ }
  · have time : sim.tick = sim.gantt.length := sane.time
    simp only [Shajith.idle, List.length_append, List.length_singleton]
    omega
  · intro x came
    obtain ⟨first, last⟩ : 0 ≤ arrival x ∧ arrival x ≤ sim.tick := sane.past x came
    exact ⟨first, by simp only [Shajith.idle]; omega⟩

theorem pop {ql : Fin QUEUES} {idx : Fin n} {rest : List (Fin n)}
    (sane : Sane burst arrival ⟨none, sim⟩) (queue : sim.q ql = idx :: rest) :
    Sane burst arrival ⟨some ⟨idx, ql, 0⟩, { sim with q := Levels.pop sim.q ql }⟩ := by
  have member : idx ∈ sim.q ql := by simp [queue]
  have here := Levels.held_pos member
  rw [sane.held] at here
  have going : (sim.p idx).arrived = true ∧ (sim.p idx).done = false := by
    by_contra absent
    rw [if_neg (by tauto)] at here
    omega
  refine { sane with held := ?_, placed := ?_, going := ?_ }
  · intro x
    have before := Levels.held_pop queue x
    have held := sane.held x
    simp only at held
    by_cases same : idx = x
    · subst x
      simp [going] at held ⊢
      simp [held] at before
      omega
    · simp [same] at held before ⊢
      rw [← before, held]
  · intro level x inside
    apply sane.placed level x
    by_cases same : level = ql
    · subst level
      simp only [Levels.pop, Function.update_self] at inside
      exact List.mem_of_mem_tail inside
    · simpa [Levels.pop, same] using inside
  · intro slice running
    rw [Option.mem_some_iff] at running
    subst slice
    exact ⟨going.1, going.2, sane.placed ql idx member, le_refl 0⟩

theorem unit {idx : Fin n} {ql : Fin QUEUES} {ran : Int}
    (sane : Sane burst arrival ⟨some ⟨idx, ql, ran⟩, sim⟩) :
    Sane burst arrival ⟨some ⟨idx, ql, ran + 1⟩, runUnit idx sim⟩ := by
  have kept : ∀ {α : Type} (field : Proc → α),
      field { sim.p idx with remaining := (sim.p idx).remaining - 1 } = field (sim.p idx) →
        ∀ x, field ((runUnit idx sim).p x) = field (sim.p x) :=
    fun field same x => field_update field same x
  have arrived := kept Proc.arrived rfl
  have done := kept Proc.done rfl
  have queue := kept Proc.queue rfl
  obtain ⟨came, undone, level, nonneg⟩ : (sim.p idx).arrived = true ∧
    (sim.p idx).done = false ∧ (sim.p idx).queue = ql ∧ 0 ≤ ran := sane.going _ rfl
  have others : ∀ x, x ≠ idx → (runUnit idx sim).p x = sim.p x :=
    fun x other => Function.update_of_ne other _ _
  constructor
  · exact fun x => (kept Proc.arrival rfl x).trans (sane.due x)
  · intro x
    rw [arrived, done]
    exact sane.held x
  · intro level x member
    rw [queue]
    exact sane.placed level x member
  · intro slice running
    rw [Option.mem_some_iff] at running
    subst slice
    rw [arrived, done, queue]
    exact ⟨came, undone, level, Int.le_add_one nonneg⟩
  · have time : sim.tick = sim.gantt.length := sane.time
    simp only [runUnit_tick, runUnit_gantt, List.length_append, List.length_singleton]
    omega
  · intro x there
    rw [arrived] at there
    obtain ⟨first, last⟩ : 0 ≤ arrival x ∧ arrival x ≤ sim.tick := sane.past x there
    exact ⟨first, by rw [runUnit_tick]; omega⟩
  · intro x past
    rw [done] at past
    have other : x ≠ idx := by
      rintro rfl
      simp [undone] at past
    rw [others x other]
    exact sane.ended x past
  · intro x still
    rw [arrived] at still
    have other : x ≠ idx := by
      rintro rfl
      simp [came] at still
    rw [others x other]
    exact sane.untouched x still
  · intro x
    have before : (sim.p x).remaining ≤ burst x := sane.least x
    by_cases same : x = idx
    · subst x
      simp only [runUnit_remaining]
      omega
    · rw [others x same]
      exact before

theorem finish {idx : Fin n} {ql : Fin QUEUES} {ran : Int}
    (sane : Sane burst arrival ⟨some ⟨idx, ql, ran⟩, sim⟩) (zero : (sim.p idx).remaining = 0) :
    Sane burst arrival ⟨none, finish idx sim⟩ := by
  have going := sane.going _ rfl
  have kept : ∀ {α : Type} (field : Proc → α),
      field { sim.p idx with done := true, finishTime := sim.tick } = field (sim.p idx) →
        ∀ x, field ((Shajith.finish idx sim).p x) = field (sim.p x) :=
    fun field same x => field_update field same x
  have arrived := kept Proc.arrived rfl
  have remaining := kept Proc.remaining rfl
  have queue := kept Proc.queue rfl
  have others : ∀ x, x ≠ idx → (Shajith.finish idx sim).p x = sim.p x :=
    fun x other => Function.update_of_ne other _ _
  constructor
  · exact fun x => (kept Proc.arrival rfl x).trans (sane.due x)
  · intro x
    have before := sane.held x
    by_cases same : x = idx
    · subst x
      simpa [Shajith.finish] using before
    · rw [others x same]
      simpa [Shajith.finish, Ne.symm same] using before
  · intro level x member
    rw [queue]
    exact sane.placed level x member
  · simp
  · exact sane.time
  · intro x came
    rw [arrived] at came
    exact sane.past x came
  · intro x past
    rw [remaining, arrived]
    by_cases same : x = idx
    · subst x
      exact ⟨zero, going.1⟩
    · rw [others x same] at past
      exact sane.ended x past
  · intro x still
    rw [arrived] at still
    rw [remaining, queue]
    exact sane.untouched x still
  · intro x
    rw [remaining]
    exact sane.least x

theorem requeue {idx : Fin n} {ql : Fin QUEUES} {ran : Int}
    (sane : Sane burst arrival ⟨some ⟨idx, ql, ran⟩, sim⟩) :
    Sane burst arrival ⟨none, requeue ql idx sim⟩ := by
  obtain ⟨came, undone, -, -⟩ : (sim.p idx).arrived = true ∧
    (sim.p idx).done = false ∧ (sim.p idx).queue = ql ∧ 0 ≤ ran := sane.going _ rfl
  have kept : ∀ {α : Type} (field : Proc → α),
      field { sim.p idx with queue := nextQ ql } = field (sim.p idx) →
        ∀ x, field ((Shajith.requeue ql idx sim).p x) = field (sim.p x) :=
    fun field same x => field_update field same x
  have arrived := kept Proc.arrived rfl
  have remaining := kept Proc.remaining rfl
  have done := kept Proc.done rfl
  have others : ∀ x, x ≠ idx → (Shajith.requeue ql idx sim).p x = sim.p x :=
    fun x other => Function.update_of_ne other _ _
  constructor
  · exact fun x => (kept Proc.arrival rfl x).trans (sane.due x)
  · intro x
    have before := sane.held x
    rw [arrived, done]
    simp only [Shajith.requeue, addToQueue, Levels.held_push]
    by_cases same : x = idx
    · subst x
      simpa [came, undone] using before
    · simpa [Ne.symm same] using before
  · intro level x member
    simp only [Shajith.requeue, addToQueue, Levels.push] at member
    by_cases same : x = idx
    · subst same
      have there : ((Shajith.requeue ql x sim).p x).queue = nextQ ql := by
        simp [Shajith.requeue, addToQueue]
      rw [there]
      by_contra other
      rw [Function.update_of_ne (Ne.symm other)] at member
      have here := Levels.held_pos member
      rw [sane.held] at here
      simp at here
    · rw [others x same]
      by_cases target : level = nextQ ql
      · subst level
        rw [Function.update_self, List.mem_append, List.mem_singleton] at member
        exact sane.placed _ x (member.resolve_right same)
      · rw [Function.update_of_ne target] at member
        exact sane.placed level x member
  · simp
  · exact sane.time
  · intro x there
    rw [arrived] at there
    exact sane.past x there
  · intro x past
    rw [done] at past
    rw [remaining, arrived]
    exact sane.ended x past
  · intro x still
    rw [arrived] at still
    have other : x ≠ idx := by
      rintro rfl
      simp [came] at still
    rw [others x other]
    exact sane.untouched x still
  · intro x
    rw [remaining]
    exact sane.least x

theorem step (sane : Sane burst arrival s) (step : Step quantum s s') :
    Sane burst arrival s' := by
  cases step with
  | arrive i absent now => exact sane.arrive absent now
  | idle => exact sane.idle
  | pop queue => exact sane.pop queue
  | unit => exact sane.unit
  | finish zero => exact sane.finish zero
  | requeue => exact sane.requeue

theorem steps (sane : Sane burst arrival s) (steps : Steps quantum s s') :
    Sane burst arrival s' := by
  induction steps with
  | refl => exact sane
  | tail _ last ih => exact ih.step last

end Sane

end OsLab.Shajith
