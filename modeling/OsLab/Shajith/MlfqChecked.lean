import OsLab.Library.Checked
import OsLab.Shajith.MlfqSteps

/-!
`run_mlfq` with the bounds of its arrays: every access of `q[level][]` and `gantt[]` is checked, and
one that is out of range ends the run. As long as nothing is out of range the run is the one
without bounds; the queues never are.
-/

namespace OsLab.Shajith

open OsLab.Library

def GANTT_SIZE : ℕ := 500

inductive Access
  | gantt (index : ℕ)
  | q (level : Fin QUEUES) (index : ℕ)
  deriving DecidableEq, Repr

variable {n : ℕ}

namespace Checked

def access (level : Fin QUEUES) (index : ℕ) : Except Access Unit :=
  if index < MAX_PROC then .ok () else .error (.q level index)

def write (sim : Sim n) : Except Access Unit :=
  if sim.gantt.length < GANTT_SIZE then .ok () else .error (.gantt sim.gantt.length)

def addToQueue (sim : Sim n) (level : Fin QUEUES) (idx : Fin n) : Except Access (Sim n) := do
  access level (sim.q level).length
  return Shajith.addToQueue sim level idx

def popFront (sim : Sim n) (level : Fin QUEUES) : Except Access (Option (Fin n × Sim n)) :=
  if (sim.q level).length = 0 then return none
  else do
    access level 0
    -- the other entries move up by one
    (List.range' 1 ((sim.q level).length - 1)).forM fun i => do
      access level i
      access level (i - 1)
    return Shajith.popFront sim level

def checkArrival (sim : Sim n) (i : Fin n) : Except Access (Sim n) :=
  if (sim.p i).arrived = false ∧ (sim.p i).arrival = sim.tick then
    addToQueue { sim with
      p := Function.update sim.p i { sim.p i with arrived := true, queue := topQueue }
      entered := sim.entered ++ [(i, sim.tick)] } topQueue i
  else return sim

def checkArrivals (sim : Sim n) : Except Access (Sim n) := (List.finRange n).foldlM checkArrival sim

def runUnit (idx : Fin n) (sim : Sim n) : Except Access (Sim n) := do
  write sim
  return Shajith.runUnit idx sim

def notice (ran : Int) (sim : Sim n) : Except Access (Sim n) :=
  if 0 < ran then checkArrivals sim else return sim

def slice (idx : Fin n) (qt ran : Int) (sim : Sim n) : Except Access (Sim n) :=
  if ran < qt ∧ 0 < (sim.p idx).remaining then do
    let noticed ← notice ran sim
    let after ← runUnit idx noticed
    slice idx qt (ran + 1) after
  else return sim
termination_by (qt - ran).toNat

def retire (ql : Fin QUEUES) (idx : Fin n) (sim : Sim n) : Except Access (Sim n) :=
  if (sim.p idx).remaining = 0 then
    return { sim with
      p := Function.update sim.p idx { sim.p idx with done := true, finishTime := sim.tick } }
  else
    addToQueue { sim with p := Function.update sim.p idx { sim.p idx with queue := nextQ ql } }
      (nextQ ql) idx

def serve (quantum : Fin QUEUES → Int) (sim : Sim n) : Except Access (Sim n) :=
  match findQueue sim with
  | none => do
      write sim
      return { sim with gantt := sim.gantt ++ [0], tick := sim.tick + 1 }
  | some ql => do
      match ← popFront sim ql with
      | none => return sim
      | some (idx, popped) =>
          let after ← slice idx (quantum ql) 0 popped
          retire ql idx after

def round (quantum : Fin QUEUES → Int) (sim : Sim n) : Except Access (Sim n) := do
  let noticed ← checkArrivals sim
  serve quantum noticed

/-- The body of the outer loop, which has no `break` and reads no input. -/
def body (quantum : Fin QUEUES → Int) (_ : Unit) (sim : Sim n) :
    Except Access (Option (Sim n)) := do
  return some (← round quantum sim)

/-- The state in which the outer loop ends, when the number of processes is accepted and the loop
takes at most `fuel` rounds. -/
def runMlfq (fuel : ℕ) (quantum : Fin QUEUES → Int) (burst arrival : Fin n → Int) :
    Except Access (Option (Sim n)) :=
  if n < 1 ∨ n > MAX_PROC then return none
  else checkedLoop (fun sim => !allDone sim) (body quantum) fuel (fun _ => ())
    (start burst arrival)

end Checked

/-! ### Agreement -/

def Fits (sim : Sim n) : Prop := sim.gantt.length ≤ GANTT_SIZE

/-- The checked computation gives the state of the unchecked one when its chart fits, and else
faults at the chart. -/
def Agrees (checked : Except Access (Sim n)) (plain : Sim n) : Prop :=
  (Fits plain ∧ checked = .ok plain) ∨ ¬ Fits plain ∧ ∃ index, checked = .error (.gantt index)

variable {quantum : Fin QUEUES → Int} {burst arrival : Fin n → Int} {sim plain last : Sim n}
  {checked : Except Access (Sim n)}

theorem Agrees.bind {f : Sim n → Except Access (Sim n)} (first : Agrees checked plain)
    (longer : plain.gantt.length ≤ last.gantt.length)
    (rest : Fits plain → Agrees (f plain) last) : Agrees (checked >>= f) last := by
  rcases first with ⟨fits, ok⟩ | ⟨full, index, fault⟩
  · rw [ok]
    exact rest fits
  · right
    refine ⟨fun fits => full (longer.trans fits), index, ?_⟩
    rw [fault]
    rfl

namespace Checked

theorem access_ok {level : Fin QUEUES} {index : ℕ} (below : index < MAX_PROC) :
    access level index = .ok () := if_pos below

theorem addToQueue_ok {level : Fin QUEUES} (room : (sim.q level).length < MAX_PROC) (idx : Fin n) :
    addToQueue sim level idx = .ok (Shajith.addToQueue sim level idx) := by
  rw [addToQueue, access_ok room]
  rfl

theorem forM_ok {f : ℕ → Except Access Unit} {indexes : List ℕ}
    (ok : ∀ i ∈ indexes, f i = .ok ()) : indexes.forM f = .ok () := by
  induction indexes with
  | nil => rfl
  | cons i rest ih =>
      change (f i >>= fun _ => rest.forM f) = _
      rw [ok i (by simp)]
      exact ih fun j later => ok j (by simp [later])

theorem popFront_ok {level : Fin QUEUES} (room : (sim.q level).length ≤ MAX_PROC) :
    popFront sim level = .ok (Shajith.popFront sim level) := by
  rw [popFront]
  split
  · rename_i empty
    rw [List.length_eq_zero_iff] at empty
    simp only [Shajith.popFront, empty]
    rfl
  · rename_i some
    have shift : (List.range' 1 ((sim.q level).length - 1)).forM (fun i => do
        access level i
        access level (i - 1)) = .ok () := by
      apply forM_ok
      intro i inside
      rw [List.mem_range'_1] at inside
      rw [access_ok (by omega)]
      exact access_ok (by omega)
    rw [access_ok (by omega), shift]
    rfl

theorem room {s : State n} (sane : Sane burst arrival s) (accepted : n ≤ MAX_PROC) {x : Fin n}
    (out : Levels.held s.sim.q x = 0) (level : Fin QUEUES) :
    (s.sim.q level).length < MAX_PROC := by
  have less := Levels.length_lt sane.held_le out level
  rw [Fintype.card_fin] at less
  omega

theorem checkArrival_ok {slice : Option (Slice n)} (sane : Sane burst arrival ⟨slice, sim⟩)
    (accepted : n ≤ MAX_PROC) (i : Fin n) :
    checkArrival sim i = .ok (Shajith.checkArrival sim i) := by
  rw [checkArrival, Shajith.checkArrival]
  split
  · rename_i due
    have out : Levels.held sim.q i = 0 := by
      have held : Levels.held sim.q i = _ := sane.held i
      simpa [due.1] using held
    apply addToQueue_ok
    exact room sane accepted out 0
  · rfl

theorem checkArrivals_ok {slice : Option (Slice n)} (sane : Sane burst arrival ⟨slice, sim⟩)
    (accepted : n ≤ MAX_PROC) : checkArrivals sim = .ok (Shajith.checkArrivals sim) := by
  have visits : ∀ visits : List (Fin n), ∀ sim : Sim n, Sane burst arrival ⟨slice, sim⟩ →
      visits.foldlM checkArrival sim = .ok (visits.foldl Shajith.checkArrival sim) := by
    intro visits
    induction visits with
    | nil => exact fun _ _ => rfl
    | cons i rest ih =>
        intro sim sane
        rw [List.foldlM_cons, checkArrival_ok sane accepted]
        apply ih
        rcases checkArrival_cases sim i with ⟨added, absent, now⟩ | ⟨same, -⟩
        · rw [added]
          exact sane.arrive absent now
        · rw [same]
          exact sane
  exact visits (List.finRange n) sim sane

theorem write_cases (sim : Sim n) : (sim.gantt.length < GANTT_SIZE ∧ write sim = .ok ()) ∨
    ¬ sim.gantt.length < GANTT_SIZE ∧ write sim = .error (.gantt sim.gantt.length) := by
  by_cases below : sim.gantt.length < GANTT_SIZE
  · exact Or.inl ⟨below, if_pos below⟩
  · exact Or.inr ⟨below, if_neg below⟩

theorem write_agrees {after : Sim n} (longer : after.gantt.length = sim.gantt.length + 1) :
    Agrees (write sim >>= fun _ => .ok after) after := by
  rcases write_cases sim with ⟨below, ok⟩ | ⟨past, fault⟩
  · rw [ok]
    exact Or.inl ⟨by rw [Fits, longer]; exact below, rfl⟩
  · rw [fault]
    exact Or.inr ⟨by rw [Fits, longer]; omega, _, rfl⟩

theorem runUnit_agrees (idx : Fin n) (sim : Sim n) :
    Agrees (runUnit idx sim) (Shajith.runUnit idx sim) := write_agrees (by simp)

end Checked

theorem gantt_le_slice (idx : Fin n) (qt ran : Int) (sim : Sim n) :
    sim.gantt.length ≤ (slice idx qt ran sim).gantt.length := by
  induction ran, sim using Shajith.slice.induct idx qt with
  | case1 ran sim going ih =>
      rw [slice, if_pos going]
      refine le_trans ?_ ih
      split <;> simp
  | case2 ran sim stopped => rw [slice, if_neg stopped]

namespace Checked

theorem slice_agrees {idx : Fin n} {ql : Fin QUEUES} {ran : Int}
    (sane : Sane burst arrival ⟨some ⟨idx, ql, ran⟩, sim⟩) (accepted : n ≤ MAX_PROC)
    (fits : Fits sim) :
    Agrees (slice idx (quantum ql) ran sim) (Shajith.slice idx (quantum ql) ran sim) := by
  induction ran, sim using Shajith.slice.induct idx (quantum ql) with
  | case1 ran sim going ih =>
      rw [slice, if_pos going, Shajith.slice, if_pos going]
      have checked : notice ran sim =
          .ok (if 0 < ran then Shajith.checkArrivals sim else sim) := by
        rw [notice]
        split
        · exact checkArrivals_ok sane accepted
        · rfl
      have kept : Sane burst arrival ⟨some ⟨idx, ql, ran⟩,
          if 0 < ran then Shajith.checkArrivals sim else sim⟩ := by
        split
        · exact sane.steps (checkArrivals_steps quantum _ sim)
        · exact sane
      rw [checked]
      refine (runUnit_agrees idx _).bind (gantt_le_slice idx _ _ _) fun fits => ?_
      exact ih kept.unit fits
  | case2 ran sim stopped =>
      rw [slice, if_neg stopped, Shajith.slice, if_neg stopped]
      exact Or.inl ⟨fits, rfl⟩

theorem retire_ok {idx : Fin n} {ql : Fin QUEUES} {ran : Int}
    (sane : Sane burst arrival ⟨some ⟨idx, ql, ran⟩, sim⟩) (accepted : n ≤ MAX_PROC) :
    retire ql idx sim = .ok (Shajith.retire ql idx sim) := by
  rw [retire, Shajith.retire]
  split
  · rfl
  · have out : Levels.held sim.q idx = 0 := by
      have held : Levels.held sim.q idx = _ := sane.held idx
      simpa using held
    apply addToQueue_ok
    exact room sane accepted out (nextQ ql)

theorem round_agrees (sane : Sane burst arrival ⟨none, sim⟩) (accepted : n ≤ MAX_PROC)
    (fits : Fits sim) : Agrees (round quantum sim) (Shajith.body quantum sim) := by
  have noticed := sane.steps (checkArrivals_steps quantum none sim)
  have short : Fits (Shajith.checkArrivals sim) := by rwa [Fits, checkArrivals_gantt]
  have free := checkArrivals_noticed sim
  rw [round, checkArrivals_ok sane accepted, Shajith.body]
  generalize Shajith.checkArrivals sim = checked at noticed short free
  change Agrees (serve quantum checked) _
  rw [serve, Shajith.serve]
  cases found : findQueue checked with
  | none => exact write_agrees (by simp)
  | some ql =>
      obtain ⟨idx, rest, queue⟩ := List.exists_cons_of_ne_nil (findQueue_some found).1
      have front : Shajith.popFront checked ql =
          some (idx, { checked with q := Levels.pop checked.q ql }) := by
        simp only [Shajith.popFront, queue]
      have bound : (checked.q ql).length ≤ MAX_PROC := by
        have long := Levels.length_le noticed.held_le ql
        rw [Fintype.card_fin] at long
        exact long.trans accepted
      have popped := noticed.pop queue
      have still : Noticed { checked with q := Levels.pop checked.q ql } := free
      simp only [popFront_ok bound, front]
      refine (slice_agrees popped accepted short).bind (by simp) fun fits => ?_
      obtain ⟨units, steps, -⟩ := slice_steps (le_refl 0) fun _ => still
      rw [retire_ok (popped.steps steps) accepted]
      exact Or.inl ⟨by rwa [Fits, retire_gantt], rfl⟩

end Checked

end OsLab.Shajith
