import OsLab.Shajith.Mlfq
import Mathlib.Algebra.BigOperators.Fin

/-! Who is in the queues of `run_mlfq`, and what the Gantt chart adds up to. -/

namespace OsLab.Shajith

open OsLab.Library

variable {n : ℕ} {burst arrival : Fin n → Int} {running : Option (Fin n)}
  {came : Fin n → Prop} {sim : Sim n}

/-- What holds all along, when the processes of `came` have been noticed and `running`, if any,
has been popped. -/
structure Inv (burst arrival : Fin n → Int) (running : Option (Fin n)) (came : Fin n → Prop)
    (sim : Sim n) : Prop where
  pid : ∀ x, (sim.p x).pid = x + 1
  due : ∀ x, (sim.p x).arrival = arrival x
  arrived : ∀ x, (sim.p x).arrived = true ↔ came x
  held : ∀ x, Levels.held sim.q x =
    if (sim.p x).arrived = true ∧ (sim.p x).done = false ∧ running ≠ some x then 1 else 0
  done : ∀ x, running ≠ some x → ((sim.p x).done = true ↔ (sim.p x).remaining = 0)
  going : ∀ x, running = some x → (sim.p x).arrived = true ∧ (sim.p x).done = false
  nonneg : ∀ x, 0 ≤ (sim.p x).remaining
  work : ∀ x, (sim.p x).remaining = burst x - sim.gantt.count ((x : Int) + 1)
  untouched : ∀ x, (sim.p x).arrived = false → (sim.p x).remaining = burst x
  early : ∀ (k : ℕ) (x : Fin n), sim.gantt[k]? = some ((x : Int) + 1) → arrival x ≤ k
  time : sim.tick = sim.gantt.length
  entered : ∀ x, sim.entered.filter (fun entry => entry.1 = x) =
    if (sim.p x).arrived = true then [(x, arrival x)] else []

theorem start_inv (positive : ∀ x, 1 ≤ burst x) :
    Inv burst arrival none (fun _ => False) (start burst arrival) := by
  constructor <;> intros <;> simp_all [start, Levels.held]
  · have one := positive ‹_›
    omega
  · have one := positive ‹_›
    omega

/-! ### What the loops leave alone -/

theorem field_update {α : Type*} {p : Fin n → Proc} {i : Fin n} {value : Proc} (field : Proc → α)
    (same : field value = field (p i)) (x : Fin n) :
    field (Function.update p i value x) = field (p x) := by
  by_cases here : x = i
  · subst x
    simpa using same
  · simp [here]

theorem checkArrival_tick (sim : Sim n) (i : Fin n) : (checkArrival sim i).tick = sim.tick := by
  rw [checkArrival]
  split <;> rfl

theorem checkArrival_gantt (sim : Sim n) (i : Fin n) : (checkArrival sim i).gantt = sim.gantt := by
  rw [checkArrival]
  split <;> rfl

theorem checkArrival_remaining (sim : Sim n) (i x : Fin n) :
    ((checkArrival sim i).p x).remaining = (sim.p x).remaining := by
  rw [checkArrival]
  split
  · by_cases same : x = i
    · subst x
      simp [addToQueue]
    · simp [addToQueue, same]
  · rfl

theorem checkArrivals_same {α : Type*} (view : Sim n → α)
    (same : ∀ sim i, view (checkArrival sim i) = view sim) (sim : Sim n) :
    view (checkArrivals sim) = view sim := by
  have visits : ∀ visits : List (Fin n), ∀ sim, view (visits.foldl checkArrival sim) = view sim := by
    intro visits
    induction visits with
    | nil => exact fun _ => rfl
    | cons i rest ih => exact fun sim => (ih _).trans (same sim i)
  exact visits (List.finRange n) sim

@[simp] theorem checkArrivals_tick (sim : Sim n) : (checkArrivals sim).tick = sim.tick :=
  checkArrivals_same Sim.tick checkArrival_tick sim

@[simp] theorem checkArrivals_gantt (sim : Sim n) : (checkArrivals sim).gantt = sim.gantt :=
  checkArrivals_same Sim.gantt checkArrival_gantt sim

@[simp] theorem checkArrivals_remaining (sim : Sim n) (x : Fin n) :
    ((checkArrivals sim).p x).remaining = (sim.p x).remaining :=
  checkArrivals_same (fun sim => (sim.p x).remaining)
    (fun sim i => checkArrival_remaining sim i x) sim

@[simp] theorem retire_tick (ql : Fin QUEUES) (idx : Fin n) (sim : Sim n) :
    (retire ql idx sim).tick = sim.tick := by
  rw [retire]
  split <;> rfl

@[simp] theorem retire_gantt (ql : Fin QUEUES) (idx : Fin n) (sim : Sim n) :
    (retire ql idx sim).gantt = sim.gantt := by
  rw [retire]
  split <;> rfl

@[simp] theorem runUnit_tick (idx : Fin n) (sim : Sim n) :
    (runUnit idx sim).tick = sim.tick + 1 := rfl

@[simp] theorem runUnit_gantt (idx : Fin n) (sim : Sim n) :
    (runUnit idx sim).gantt = sim.gantt ++ [(sim.p idx).pid] := rfl

@[simp] theorem runUnit_remaining (idx : Fin n) (sim : Sim n) :
    ((runUnit idx sim).p idx).remaining = (sim.p idx).remaining - 1 := by
  simp [runUnit]

namespace Inv

theorem congr (inv : Inv burst arrival running came sim) {came' : Fin n → Prop}
    (same : ∀ x, came x ↔ came' x) : Inv burst arrival running came' sim :=
  { inv with arrived := fun x => (inv.arrived x).trans (same x) }

theorem held_le (inv : Inv burst arrival running came sim) (x : Fin n) :
    Levels.held sim.q x ≤ 1 := by
  rw [inv.held]
  split <;> omega

/-! ### Arrivals -/

theorem checkArrival (inv : Inv burst arrival running came sim) (positive : ∀ x, 1 ≤ burst x)
    (i : Fin n) :
    Inv burst arrival running (fun x => came x ∨ x = i ∧ arrival x = sim.tick)
      (checkArrival sim i) := by
  by_cases here : (sim.p i).arrived = false ∧ (sim.p i).arrival = sim.tick
  · obtain ⟨absent, now⟩ := here
    have waiting : running ≠ some i := by
      intro same
      simp [(inv.going i same).1] at absent
    have undone : (sim.p i).done = false := by
      have one := positive i
      have whole := inv.untouched i absent
      rw [← Bool.not_eq_true, inv.done i waiting]
      omega
    have step : Shajith.checkArrival sim i = addToQueue { sim with
        p := Function.update sim.p i { sim.p i with arrived := true, queue := 0 }
        entered := sim.entered ++ [(i, sim.tick)] } 0 i := by
      rw [Shajith.checkArrival, if_pos ⟨absent, now⟩]
    have mine : (Shajith.checkArrival sim i).p i = { sim.p i with arrived := true, queue := 0 } := by
      simp [step, addToQueue]
    have others : ∀ x, x ≠ i → (Shajith.checkArrival sim i).p x = sim.p x := by
      intro x other
      simp [step, addToQueue, other]
    have kept : ∀ {α : Type} (field : Proc → α),
        field { sim.p i with arrived := true, queue := 0 } = field (sim.p i) →
          ∀ x, field ((Shajith.checkArrival sim i).p x) = field (sim.p x) := by
      intro α field same x
      rw [step]
      exact field_update field same x
    have gantt : (Shajith.checkArrival sim i).gantt = sim.gantt := by rw [step]; rfl
    rw [inv.due] at now
    constructor
    · exact fun x => (kept Proc.pid rfl x).trans (inv.pid x)
    · exact fun x => (kept Proc.arrival rfl x).trans (inv.due x)
    · intro x
      by_cases same : x = i
      · subst x
        simp [mine, now]
      · simp [others x same, same, inv.arrived]
    · intro x
      have before := inv.held x
      simp only [step, addToQueue, Levels.held_push, before]
      by_cases same : x = i
      · subst x
        simp [absent, undone, waiting]
      · simp [same, Ne.symm same]
    · intro x free
      rw [kept Proc.done rfl, kept Proc.remaining rfl]
      exact inv.done x free
    · intro x runs
      have other : x ≠ i := by
        intro same
        subst x
        exact waiting runs
      rw [others x other]
      exact inv.going x runs
    · exact fun x => (inv.nonneg x).trans_eq (kept Proc.remaining rfl x).symm
    · intro x
      rw [kept Proc.remaining rfl, gantt]
      exact inv.work x
    · intro x still
      rw [kept Proc.remaining rfl]
      by_cases same : x = i
      · subst x
        exact inv.untouched i absent
      · rw [others x same] at still
        exact inv.untouched x still
    · rw [step]
      exact inv.early
    · rw [step]
      exact inv.time
    · intro x
      have before := inv.entered x
      by_cases same : x = i
      · subst x
        rw [absent] at before
        rw [mine, step]
        simp only [addToQueue, List.filter_append, before]
        simp [now]
      · rw [others x same, step]
        simp only [addToQueue, List.filter_append, before]
        simp [Ne.symm same]
  · have step : Shajith.checkArrival sim i = sim := by rw [Shajith.checkArrival, if_neg here]
    rw [step]
    refine inv.congr fun x => ⟨.inl, ?_⟩
    rintro (before | ⟨same, now⟩)
    · exact before
    · subst x
      rw [← inv.arrived]
      by_contra absent
      exact here ⟨by simpa using absent, (inv.due i).trans now⟩

theorem checkArrival_foldl (positive : ∀ x, 1 ≤ burst x) (visits : List (Fin n)) {sim : Sim n}
    {came : Fin n → Prop} (inv : Inv burst arrival running came sim) :
    Inv burst arrival running (fun x => came x ∨ x ∈ visits ∧ arrival x = sim.tick)
      (visits.foldl Shajith.checkArrival sim) := by
  induction visits generalizing sim came with
  | nil => exact inv.congr fun x => by simp
  | cons i rest ih =>
      have later := ih (inv.checkArrival positive i)
      refine later.congr fun x => ?_
      rw [checkArrival_tick, List.mem_cons]
      tauto

theorem checkArrivals (inv : Inv burst arrival running (fun x => arrival x < sim.tick) sim)
    (positive : ∀ x, 1 ≤ burst x) :
    Inv burst arrival running (fun x => arrival x ≤ (checkArrivals sim).tick)
      (checkArrivals sim) := by
  refine (inv.checkArrival_foldl positive (List.finRange n)).congr fun x => ?_
  rw [checkArrivals_tick]
  simp only [List.mem_finRange, true_and]
  omega

/-! ### A slice -/

theorem popFront {ql : Fin QUEUES} {idx : Fin n} {popped : Sim n}
    (inv : Inv burst arrival none came sim) (front : popFront sim ql = some (idx, popped)) :
    Inv burst arrival (some idx) came popped := by
  rw [Shajith.popFront] at front
  split at front
  · simp at front
  · rename_i val rest queue
    simp only [Option.some.injEq, Prod.mk.injEq] at front
    obtain ⟨same, rfl⟩ := front
    subst val
    have member : idx ∈ sim.q ql := by simp [queue]
    have here := Levels.held_pos member
    rw [inv.held] at here
    have going : (sim.p idx).arrived = true ∧ (sim.p idx).done = false := by
      by_contra absent
      rw [if_neg (by tauto)] at here
      omega
    refine { inv with held := fun x => ?_, done := fun x _ => inv.done x (by simp), going := ?_ }
    · have before := Levels.held_pop queue x
      rw [inv.held] at before
      by_cases same : idx = x
      · subst x
        simp [going] at before ⊢
        omega
      · simp [same] at before ⊢
        omega
    · intro x same
      obtain rfl : idx = x := Option.some.inj same
      exact going

theorem runUnit {idx : Fin n} (inv : Inv burst arrival (some idx) came sim)
    (left : 0 < (sim.p idx).remaining) (due : arrival idx ≤ sim.tick) :
    Inv burst arrival (some idx) came (runUnit idx sim) := by
  have kept : ∀ {α : Type} (field : Proc → α),
      field { sim.p idx with remaining := (sim.p idx).remaining - 1 } = field (sim.p idx) →
        ∀ x, field ((Shajith.runUnit idx sim).p x) = field (sim.p x) :=
    fun field same x => field_update field same x
  have arrived := kept Proc.arrived rfl
  have done := kept Proc.done rfl
  constructor
  · exact fun x => (kept Proc.pid rfl x).trans (inv.pid x)
  · exact fun x => (kept Proc.arrival rfl x).trans (inv.due x)
  · intro x
    rw [arrived]
    exact inv.arrived x
  · intro x
    rw [arrived, done]
    exact inv.held x
  · intro x other
    have apart : x ≠ idx := fun same => other (congrArg some same.symm)
    simpa [Shajith.runUnit, apart] using inv.done x other
  · intro x same
    rw [arrived, done]
    exact inv.going x same
  · intro x
    by_cases same : x = idx
    · subst x
      simp [Shajith.runUnit]
      omega
    · simpa [Shajith.runUnit, same] using inv.nonneg x
  · intro x
    have before := inv.work x
    by_cases same : x = idx
    · subst x
      simp [Shajith.runUnit, inv.pid, List.count_append]
      omega
    · have other : (sim.p idx).pid ≠ (x : Int) + 1 := by
        rw [inv.pid]
        omega
      simpa [Shajith.runUnit, same, List.count_append, List.count_singleton, other] using before
  · intro x still
    rw [arrived] at still
    have other : x ≠ idx := by
      intro same
      subst x
      simp [(inv.going idx rfl).1] at still
    simpa [Shajith.runUnit, other] using inv.untouched x still
  · intro k x here
    have time := inv.time
    simp only [Shajith.runUnit, List.getElem?_append] at here
    split at here
    · exact inv.early k x here
    · rw [List.getElem?_singleton] at here
      split at here
      · rw [inv.pid, Option.some.injEq] at here
        obtain rfl : idx = x := by omega
        omega
      · simp at here
  · simp [Shajith.runUnit, inv.time]
  · intro x
    rw [arrived]
    exact inv.entered x

theorem slice {idx : Fin n} {qt ran : Int} (positive : ∀ x, 1 ≤ burst x) (begun : 0 < ran)
    (within : ran ≤ qt)
    (inv : Inv burst arrival (some idx) (fun x => arrival x < sim.tick) sim) :
    Inv burst arrival (some idx) (fun x => arrival x < (slice idx qt ran sim).tick)
        (slice idx qt ran sim) ∧
      ∃ units : ℕ, (units : Int) = min (qt - ran) (sim.p idx).remaining ∧
        (slice idx qt ran sim).gantt = sim.gantt ++ List.replicate units ((idx : Int) + 1) := by
  induction ran, sim using Shajith.slice.induct idx qt with
  | case1 ran sim going ih =>
      rw [Shajith.slice, if_pos going, if_pos begun]
      simp only [begun, dite_true] at ih
      have checked := inv.checkArrivals positive
      have unit : Inv burst arrival (some idx)
          (fun x => arrival x < (Shajith.runUnit idx (Shajith.checkArrivals sim)).tick)
          (Shajith.runUnit idx (Shajith.checkArrivals sim)) := by
        have due := inv.going idx rfl
        rw [inv.arrived] at due
        have ran := checked.runUnit (by simpa using going.2) (by simpa using due.1.le)
        exact ran.congr fun x => Int.lt_add_one_iff.symm
      obtain ⟨last, units, count, gantt⟩ := ih (by omega) (by omega) unit
      refine ⟨last, units + 1, ?_, ?_⟩
      · rw [runUnit_remaining, checkArrivals_remaining] at count
        push_cast
        omega
      · rw [gantt, runUnit_gantt, checkArrivals_gantt, checked.pid, List.append_assoc,
          List.replicate_succ, List.singleton_append]
  | case2 ran sim stopped =>
      rw [Shajith.slice, if_neg stopped]
      have nonneg := inv.nonneg idx
      exact ⟨inv, 0, by omega, by simp⟩

theorem settle {idx : Fin n} (inv : Inv burst arrival (some idx) came sim) {after : Sim n}
    (same : ∀ x, (after.p x).pid = (sim.p x).pid ∧ (after.p x).arrival = (sim.p x).arrival ∧
      (after.p x).arrived = (sim.p x).arrived ∧ (after.p x).remaining = (sim.p x).remaining)
    (gantt : after.gantt = sim.gantt) (tick : after.tick = sim.tick)
    (entered : after.entered = sim.entered)
    (others : ∀ x, x ≠ idx → (after.p x).done = (sim.p x).done ∧
      Levels.held after.q x = Levels.held sim.q x)
    (done : (after.p idx).done = true ↔ (sim.p idx).remaining = 0)
    (held : Levels.held after.q idx = if (after.p idx).done = true then 0 else 1) :
    Inv burst arrival none came after := by
  have free : ∀ x, x ≠ idx → some idx ≠ some x := fun x other same =>
    other (Option.some.inj same).symm
  constructor
  · exact fun x => (same x).1.trans (inv.pid x)
  · exact fun x => (same x).2.1.trans (inv.due x)
  · intro x
    rw [(same x).2.2.1]
    exact inv.arrived x
  · intro x
    by_cases here : x = idx
    · subst x
      rw [held]
      cases ended : (after.p idx).done <;>
        simp [(same idx).2.2.1, (inv.going idx rfl).1]
    · simp [(others x here).1, (others x here).2, (same x).2.2.1, inv.held, free x here]
  · intro x _
    rw [(same x).2.2.2]
    by_cases here : x = idx
    · subst x
      exact done
    · rw [(others x here).1]
      exact inv.done x (free x here)
  · simp
  · intro x
    rw [(same x).2.2.2]
    exact inv.nonneg x
  · intro x
    rw [(same x).2.2.2, gantt]
    exact inv.work x
  · intro x
    rw [(same x).2.2.1, (same x).2.2.2]
    exact inv.untouched x
  · rw [gantt]
    exact inv.early
  · rw [gantt, tick]
    exact inv.time
  · intro x
    rw [(same x).2.2.1, entered]
    exact inv.entered x

theorem retire {idx : Fin n} (inv : Inv burst arrival (some idx) came sim) (ql : Fin QUEUES) :
    Inv burst arrival none came (retire ql idx sim) := by
  have undone := (inv.going idx rfl).2
  have absent : Levels.held sim.q idx = 0 := by simp [inv.held]
  rw [Shajith.retire]
  split
  · rename_i ended
    apply inv.settle
    · intro x
      by_cases here : x = idx
      · subst x
        simp
      · simp [here]
    · rfl
    · rfl
    · rfl
    · intro x other
      simp [other]
    · simp [ended]
    · simp [absent]
  · rename_i more
    apply inv.settle
    · intro x
      by_cases here : x = idx
      · subst x
        simp [addToQueue]
      · simp [addToQueue, here]
    · rfl
    · rfl
    · rfl
    · intro x other
      simp [addToQueue, other, Levels.held_push, Ne.symm other]
    · simp [addToQueue, undone, more]
    · simp [addToQueue, undone, absent, Levels.held_push]

end Inv

/-! ### An iteration -/

theorem findQueue_none (none : findQueue sim = none) (level : Fin QUEUES) : sim.q level = [] := by
  have empty := Fin.find?_eq_none_iff.mp none level
  simpa using empty

theorem findQueue_some {ql : Fin QUEUES} (found : findQueue sim = some ql) :
    sim.q ql ≠ [] ∧ ∀ level < ql, sim.q level = [] := by
  obtain ⟨here, least⟩ := Fin.find?_eq_some_iff.mp found
  constructor
  · simpa [List.length_pos_iff] using here
  · intro level less
    simpa using least level less

/-- What an iteration adds to the chart: a unit of nobody's, or a slice of the process at the front
of the highest queue that is not empty. -/
structure Served (quantum : Fin QUEUES → Int) (sim after : Sim n) : Prop where
  idle : (∀ level, sim.q level = []) → after.gantt = sim.gantt ++ [0]
  front : ∀ ql idx rest, (∀ level < ql, sim.q level = []) → sim.q ql = idx :: rest →
    ∃ units : ℕ, (units : Int) = min (quantum ql) (sim.p idx).remaining ∧ 1 ≤ units ∧
      after.gantt = sim.gantt ++ List.replicate units ((idx : Int) + 1)

theorem Inv.serve {quantum : Fin QUEUES → Int} (positive : ∀ x, 1 ≤ burst x)
    (quanta : ∀ ql, 1 ≤ quantum ql)
    (inv : Inv burst arrival none (fun x => arrival x ≤ sim.tick) sim) :
    Inv burst arrival none (fun x => arrival x < (serve quantum sim).tick) (serve quantum sim) ∧
      Served quantum sim (serve quantum sim) := by
  rw [Shajith.serve]
  split
  · rename_i none
    have empty := findQueue_none none
    refine ⟨?_, fun _ => rfl, fun ql idx rest _ here => ?_⟩
    · constructor
      · exact inv.pid
      · exact inv.due
      · intro x
        rw [inv.arrived, Int.lt_add_one_iff]
      · exact inv.held
      · exact inv.done
      · exact inv.going
      · exact inv.nonneg
      · intro x
        have nobody : (0 : Int) ≠ x + 1 := by omega
        simpa [List.count_append, List.count_singleton, nobody] using inv.work x
      · exact inv.untouched
      · intro k x here
        rw [List.getElem?_append] at here
        split at here
        · exact inv.early k x here
        · rw [List.getElem?_singleton] at here
          split at here
          · rw [Option.some.injEq] at here
            omega
          · simp at here
      · simp [inv.time]
      · exact inv.entered
    · simp [empty] at here
  · rename_i ql found
    obtain ⟨some, above⟩ := findQueue_some found
    obtain ⟨idx, rest, queue⟩ := List.exists_cons_of_ne_nil some
    let popped : Sim n := { sim with q := Levels.pop sim.q ql }
    have front : Shajith.popFront sim ql = Option.some (idx, popped) := by
      simp only [Shajith.popFront, queue, popped]
    rw [front]
    have begun := inv.popFront front
    have left : 0 < (sim.p idx).remaining := by
      have nonneg := begun.nonneg idx
      have undone := (begun.going idx rfl).2
      by_contra zero
      have gone := (inv.done idx (by simp)).mpr (Int.le_antisymm (by omega) nonneg)
      simp [popped, gone] at undone
    have came := (begun.arrived idx).mp (begun.going idx rfl).1
    have first : Inv burst arrival (Option.some idx)
        (fun x => arrival x < (Shajith.runUnit idx popped).tick) (Shajith.runUnit idx popped) :=
      (begun.runUnit left came).congr fun x => Int.lt_add_one_iff.symm
    obtain ⟨last, units, count, gantt⟩ := first.slice positive Int.one_pos (quanta ql)
    have unfold : Shajith.slice idx (quantum ql) 0 popped =
        Shajith.slice idx (quantum ql) 1 (Shajith.runUnit idx popped) := by
      have long := quanta ql
      rw [Shajith.slice, if_pos ⟨by omega, left⟩]
      simp
    simp only [unfold]
    rw [runUnit_remaining] at count
    rw [runUnit_gantt, begun.pid, List.append_assoc, List.singleton_append,
      ← List.replicate_succ] at gantt
    refine ⟨(last.retire ql).congr fun x => by rw [retire_tick], ?_⟩
    constructor
    · intro empty
      exact absurd (empty ql) some
    · intro level x others before here
      have same : level = ql := by
        rcases lt_trichotomy level ql with less | same | more
        · exact absurd here (by simp [above level less])
        · exact same
        · exact absurd (before ql more) some
      subst level
      rw [queue] at here
      obtain ⟨same, -⟩ := List.cons.inj here
      subst x
      have long := quanta ql
      refine ⟨units + 1, ?_, Nat.le_add_left 1 units, ?_⟩
      · push_cast
        change (units : Int) = min _ ((sim.p idx).remaining - 1) at count
        omega
      · rw [retire_gantt, gantt]

/-! ### The run -/

def Steady (burst arrival : Fin n → Int) (sim : Sim n) : Prop :=
  Inv burst arrival none (fun x => arrival x < sim.tick) sim

variable {quantum : Fin QUEUES → Int}

theorem body_steady (positive : ∀ x, 1 ≤ burst x) (quanta : ∀ ql, 1 ≤ quantum ql)
    (steady : Steady burst arrival sim) : Steady burst arrival (body quantum sim) :=
  ((steady.checkArrivals positive).serve positive quanta).1

theorem iterate_steady (positive : ∀ x, 1 ≤ burst x) (nonneg : ∀ x, 0 ≤ arrival x)
    (quanta : ∀ ql, 1 ≤ quantum ql) (rounds : ℕ) :
    Steady burst arrival ((body quantum)^[rounds] (start burst arrival)) := by
  induction rounds with
  | zero =>
      refine (start_inv positive).congr fun x => ?_
      have late := nonneg x
      constructor
      · exact False.elim
      · intro early
        simp only [Function.iterate_zero, id_eq, start] at early
        omega
  | succ rounds ih =>
      rw [Function.iterate_succ_apply']
      exact body_steady positive quanta ih

def ahead (arrival : Fin n → Int) (sim : Sim n) : ℕ :=
  ∑ x, (sim.p x).remaining.toNat + (∑ x, (arrival x).toNat + 1 - sim.tick.toNat)

theorem ahead_body (positive : ∀ x, 1 ≤ burst x) (quanta : ∀ ql, 1 ≤ quantum ql)
    (steady : Steady burst arrival sim) (going : allDone sim = false) :
    ahead arrival (body quantum sim) < ahead arrival sim := by
  have checked := steady.checkArrivals positive
  obtain ⟨after, served⟩ := checked.serve positive quanta
  have later := body_steady positive quanta steady
  have before := steady.time
  have time := later.time
  -- the chart tells what work is left
  have work : ∀ x, ((body quantum sim).p x).remaining = (sim.p x).remaining +
      sim.gantt.count ((x : Int) + 1) - (body quantum sim).gantt.count ((x : Int) + 1) := by
    intro x
    rw [later.work, steady.work]
    omega
  simp only [ahead]
  cases found : findQueue (checkArrivals sim) with
  | none =>
      have empty := findQueue_none found
      have gantt : (body quantum sim).gantt = sim.gantt ++ [0] := by
        rw [body, served.idle empty, checkArrivals_gantt]
      have same : ∀ x, ((body quantum sim).p x).remaining = (sim.p x).remaining := by
        intro x
        have nobody : (0 : Int) ≠ x + 1 := by omega
        simp [work, gantt, List.count_append, nobody]
      obtain ⟨x, undone⟩ : ∃ x, (sim.p x).done = false := by
        simpa [allDone, List.mem_finRange] using going
      -- whoever is not done has still to arrive
      have late : sim.tick < arrival x := by
        have held := checked.held x
        rw [Levels.held_empty empty] at held
        have still : ((checkArrivals sim).p x).done = false := by
          rw [← Bool.not_eq_true, checked.done x (by simp), checkArrivals_remaining,
            ← steady.done x (by simp), undone]
          simp
        by_contra early
        have came := (checked.arrived x).mpr (by rw [checkArrivals_tick]; omega)
        simp [came, still] at held
      have least : (arrival x).toNat ≤ ∑ y, (arrival y).toNat :=
        Finset.single_le_sum (f := fun y => (arrival y).toNat) (fun _ _ => Nat.zero_le _)
          (Finset.mem_univ x)
      simp only [same]
      simp only [gantt, List.length_append, List.length_singleton] at time
      omega
  | some ql =>
      obtain ⟨some, above⟩ := findQueue_some found
      obtain ⟨idx, rest, queue⟩ := List.exists_cons_of_ne_nil some
      obtain ⟨units, -, least, gantt⟩ := served.front ql idx rest above queue
      rw [checkArrivals_gantt] at gantt
      change (body quantum sim).gantt = _ at gantt
      have less : ∀ y, ((body quantum sim).p y).remaining.toNat ≤ (sim.p y).remaining.toNat := by
        intro y
        have left := work y
        rw [gantt, List.count_append] at left
        omega
      have strict : ∑ y, ((body quantum sim).p y).remaining.toNat <
          ∑ y, (sim.p y).remaining.toNat := by
        apply Finset.sum_lt_sum (fun y _ => less y)
        refine ⟨idx, Finset.mem_univ idx, ?_⟩
        have left := work idx
        have nonneg := later.nonneg idx
        rw [gantt, List.count_append, List.count_replicate_self] at left
        omega
      simp only [gantt, List.length_append, List.length_replicate] at time
      omega

structure Queued (burst arrival : Fin n → Int) (sim : Sim n) : Prop where
  contents : ∀ x, (sim.q 0 ++ sim.q 1 ++ sim.q 2).count x =
    if arrival x ≤ sim.tick ∧ (sim.p x).done = false then 1 else 0
  done : ∀ x, (sim.p x).done = true ↔ (sim.gantt.count ((x : Int) + 1) : Int) = burst x
  bounded : ∀ level, (sim.q level).length ≤ MAX_PROC
  entered : ∀ x, sim.entered.filter (fun entry => entry.1 = x) =
    if arrival x ≤ sim.tick then [(x, arrival x)] else []

theorem Inv.queued (inv : Inv burst arrival none (fun x => arrival x ≤ sim.tick) sim)
    (accepted : n ≤ MAX_PROC) : Queued burst arrival sim := by
  constructor
  · intro x
    have held := inv.held x
    simp only [Levels.held, Fin.sum_univ_three, inv.arrived, ne_eq, reduceCtorEq,
      not_false_eq_true, and_true] at held
    rw [List.count_append, List.count_append, held]
  · intro x
    have work := inv.work x
    rw [inv.done x (by simp)]
    omega
  · intro level
    have long := Levels.length_le inv.held_le level
    rw [Fintype.card_fin] at long
    exact long.trans accepted
  · intro x
    simpa only [inv.arrived] using inv.entered x

structure Completed (burst arrival : Fin n → Int) (sim : Sim n) (x : Fin n) : Prop where
  executed : (sim.gantt.count ((x : Int) + 1) : Int) = burst x
  early : ∀ k : ℕ, sim.gantt[k]? = some ((x : Int) + 1) → arrival x ≤ k
  entered : sim.entered.filter (fun entry => entry.1 = x) = [(x, arrival x)]

theorem Inv.completed (inv : Inv burst arrival none came sim) (positive : ∀ x, 1 ≤ burst x)
    (past : allDone sim = true) (x : Fin n) : Completed burst arrival sim x := by
  have done : (sim.p x).done = true := by
    have all : ∀ x, (sim.p x).done = true := by simpa [allDone, List.mem_finRange] using past
    exact all x
  have left := (inv.done x (by simp)).mp done
  have work := inv.work x
  have one := positive x
  have came : (sim.p x).arrived = true := by
    by_contra absent
    have whole := inv.untouched x (by simpa using absent)
    omega
  constructor
  · omega
  · exact fun k => inv.early k x
  · rw [inv.entered, if_pos came]

/-- Nobody is lost: in every iteration the queues hold exactly the processes that have arrived and
are not done, and the run ends with each having had its burst. -/
theorem queues_complete (accepted : 1 ≤ n ∧ n ≤ MAX_PROC) (quantum : Fin QUEUES → Int)
    (quanta : ∀ ql, 1 ≤ quantum ql) (burst arrival : Fin n → Int) (positive : ∀ x, 1 ≤ burst x)
    (nonneg : ∀ x, 0 ≤ arrival x) :
    (∀ rounds, Queued burst arrival
        (checkArrivals ((body quantum)^[rounds] (start burst arrival))) ∧
      Served quantum (checkArrivals ((body quantum)^[rounds] (start burst arrival)))
        ((body quantum)^[rounds + 1] (start burst arrival))) ∧
    ∃ fuel last, runMlfq fuel quantum burst arrival = some last ∧
      ∀ x, Completed burst arrival last x := by
  constructor
  · intro rounds
    have checked := (iterate_steady positive nonneg quanta rounds).checkArrivals positive
    rw [Function.iterate_succ_apply']
    exact ⟨checked.queued accepted.2, (checked.serve positive quanta).2⟩
  · have first : Steady burst arrival ((body quantum)^[0] (start burst arrival)) :=
      iterate_steady positive nonneg quanta 0
    have kept : ∀ sim, Steady burst arrival sim → (!allDone sim) = true →
        Steady burst arrival (body quantum sim) :=
      fun sim steady _ => body_steady positive quanta steady
    have closer : ∀ sim, Steady burst arrival sim → (!allDone sim) = true →
        ahead arrival (body quantum sim) < ahead arrival sim :=
      fun sim steady going => ahead_body positive quanta steady (by simpa using going)
    obtain ⟨fuel, last, ended, steady, stopped⟩ :=
      whileLoop_total (ahead arrival) kept closer first
    refine ⟨fuel, last, ?_, ?_⟩
    · rw [runMlfq, if_neg (by omega)]
      exact ended
    · exact steady.completed positive (by simpa using stopped)

/-- The second process arrives inside the first slice of the first, the third at its end. -/
def exampleQuantum : Fin QUEUES → Int := ![3, 4, 5]

def exampleBurst : Fin 3 → Int := ![6, 1, 2]

def exampleArrival : Fin 3 → Int := ![0, 1, 3]

theorem queues_complete_three :
    (∀ rounds, Queued exampleBurst exampleArrival (checkArrivals
        ((body exampleQuantum)^[rounds] (start exampleBurst exampleArrival))) ∧
      Served exampleQuantum (checkArrivals
          ((body exampleQuantum)^[rounds] (start exampleBurst exampleArrival)))
        ((body exampleQuantum)^[rounds + 1] (start exampleBurst exampleArrival))) ∧
    ∃ fuel last, runMlfq fuel exampleQuantum exampleBurst exampleArrival = some last ∧
      ∀ x, Completed exampleBurst exampleArrival last x :=
  queues_complete (by decide) exampleQuantum (by decide) exampleBurst exampleArrival (by decide)
    (by decide)

end OsLab.Shajith
