import OsLab.Library.Checked
import OsLab.Library.Drawing
import Mathlib.Algebra.BigOperators.Fin
import Mathlib.Data.Finset.Insert
import Mathlib.Data.List.FinRange

/-!
`run_lottery` of `shajith/src/lottery.c`, for any results of `rand()` up to RAND_MAX. A division by
zero and a write past the end of `gantt[]` end the run. Sums of tickets wrap around as the machine's
additions do.
-/

namespace OsLab.Shajith.Lottery

open OsLab.Library

def MAX_PROC : ℕ := 10

def GANTT_SIZE : ℕ := 500

structure Proc where
  pid : Int
  burst : Int
  tickets : Int
  remaining : Int
  done : Bool
  finishTime : Int
  deriving DecidableEq, Repr

/-- `p[]`, `gantt[]` with `glen`, and the clock. -/
structure Sim (n : ℕ) where
  p : Fin n → Proc
  gantt : List Int
  tick : Int

inductive Fault
  | division
  | gantt (index : ℕ)
  deriving DecidableEq, Repr

variable {n randMax : ℕ}

/-- The sum of two `int`s. -/
def plus (a b : Int) : Int := (a + b).bmod (2 ^ 32)

theorem plus_eq {a b : Int} (lower : 0 ≤ a + b) (upper : a + b ≤ 2 ^ 31 - 1) :
    plus a b = a + b := by
  rw [plus, Int.bmod_eq_of_le] <;> omega

def pickWinner (draw : Fin (randMax + 1)) (p : Fin n → Proc) (total : Int) :
    Except Fault (Option (Fin n)) :=
  if total = 0 then .error .division
  else
    let r := (draw.val : Int).tmod total
    .ok (scanDrawn plus (fun i => !(p i).done) (fun i => (p i).tickets) r (List.finRange n) 0)

def countTickets (p : Fin n → Proc) : Int :=
  sumWeights plus (fun i => !(p i).done) (fun i => (p i).tickets) (List.finRange n) 0

def allDone (p : Fin n → Proc) : Bool := (List.finRange n).all fun i => (p i).done

def award (winner : Fin n) (sim : Sim n) : Sim n :=
  let remaining := (sim.p winner).remaining - 1
  let tick := sim.tick + 1
  { gantt := sim.gantt ++ [(sim.p winner).pid]
    tick := tick
    p := Function.update sim.p winner
      (if remaining = 0 then
        { sim.p winner with remaining := remaining, done := true, finishTime := tick }
      else { sim.p winner with remaining := remaining }) }

def body (draw : Fin (randMax + 1)) (sim : Sim n) : Except Fault (Option (Sim n)) := do
  let total := countTickets sim.p
  match ← pickWinner draw sim.p total with
  | none => return none
  | some winner =>
      if sim.gantt.length < GANTT_SIZE then return some (award winner sim)
      else throw (.gantt sim.gantt.length)

def start (burst tickets : Fin n → Int) : Sim n where
  p i :=
    { pid := i + 1, burst := burst i, tickets := tickets i, remaining := burst i, done := false
      finishTime := 0 }
  gantt := []
  tick := 0

/-- The state in which the loop ends, when the number of processes is accepted and the loop takes at
most `fuel` rounds. -/
def runLottery (fuel : ℕ) (rand : ℕ → Fin (randMax + 1)) (burst tickets : Fin n → Int) :
    Except Fault (Option (Sim n)) :=
  if n < 1 ∨ n > MAX_PROC then return none
  else checkedLoop (fun sim => !allDone sim.p) body fuel rand (start burst tickets)

/-! ### Who can win -/

def marked (burst tickets : Fin n → Int) (done : Finset (Fin n)) : Fin n → Proc :=
  fun i => { (start burst tickets).p i with done := i ∈ done }

/-- Some result of `rand()` gives the process the next unit when just those of `done` are done. -/
def Drawable (randMax : ℕ) (burst tickets : Fin n → Int) (done : Finset (Fin n)) (i : Fin n) :
    Prop :=
  ∃ draw : Fin (randMax + 1), pickWinner draw (marked burst tickets done)
    (countTickets (marked burst tickets done)) = .ok (some i)

instance (randMax : ℕ) (burst tickets : Fin n → Int) (done : Finset (Fin n)) :
    DecidablePred (Drawable randMax burst tickets done) :=
  fun _ => inferInstanceAs (Decidable (∃ _, _))

variable {burst tickets : Fin n → Int} {done : Finset (Fin n)} {left : Fin n → Int}
  {sim : Sim n}

theorem Drawable.undone {i : Fin n} (drawable : Drawable randMax burst tickets done i) :
    i ∉ done := by
  obtain ⟨draw, picked⟩ := drawable
  rw [pickWinner] at picked
  split at picked
  · cases picked
  · have free := (scanDrawn_some (Except.ok.inj picked)).2
    simpa [marked] using free

/-- What is left of each process, and that the chart has an entry for every unit. -/
structure Reached (burst tickets : Fin n → Int) (done : Finset (Fin n)) (left : Fin n → Int)
    (sim : Sim n) : Prop where
  gone : ∀ i, (sim.p i).done = true ↔ i ∈ done
  share : ∀ i, (sim.p i).tickets = tickets i
  remaining : ∀ i, (sim.p i).remaining = left i
  written : (sim.gantt.length : Int) = ∑ i, (burst i - left i)
  fits : sim.gantt.length ≤ GANTT_SIZE

theorem start_reached (burst tickets : Fin n → Int) :
    Reached burst tickets ∅ burst (start burst tickets) := by
  constructor <;> simp [start]

namespace Reached

variable (reached : Reached burst tickets done left sim)
include reached

theorem eligible_eq : (fun i => !(sim.p i).done) =
    fun i => !(marked burst tickets done i).done := by
  funext i
  have gone := reached.gone i
  by_cases inside : i ∈ done
  · simp [marked, gone.mpr inside, inside]
  · have still : (sim.p i).done = false := by simpa using mt gone.mp inside
    simp [marked, still, inside]

theorem tickets_eq : (fun i => (sim.p i).tickets) =
    fun i => (marked burst tickets done i).tickets :=
  funext reached.share

theorem countTickets_eq :
    countTickets sim.p = countTickets (marked burst tickets done) := by
  rw [countTickets, countTickets, reached.eligible_eq, reached.tickets_eq]

theorem pickWinner_eq (draw : Fin (randMax + 1)) (total : Int) :
    pickWinner draw sim.p total = pickWinner draw (marked burst tickets done) total := by
  rw [pickWinner, pickWinner, reached.eligible_eq, reached.tickets_eq]

theorem running (some : done ≠ Finset.univ) : (!allDone sim.p) = true := by
  rw [Bool.not_eq_true', ← Bool.not_eq_true, allDone, List.all_eq_true]
  intro all
  apply some
  ext i
  simpa [reached.gone] using all i (List.mem_finRange i)

theorem award {i : Fin n} (waiting : i ∉ done) (room : sim.gantt.length < GANTT_SIZE) :
    Reached burst tickets (if left i = 1 then insert i done else done)
      (Function.update left i (left i - 1)) (award i sim) := by
  have others : ∀ x, x ≠ i → (Lottery.award i sim).p x = sim.p x :=
    fun x other => Function.update_of_ne other _ _
  have mine : (Lottery.award i sim).p i =
      if left i - 1 = 0 then
        { sim.p i with remaining := left i - 1, done := true, finishTime := sim.tick + 1 }
      else { sim.p i with remaining := left i - 1 } := by
    simp only [Lottery.award, Function.update_self, reached.remaining]
  constructor
  · intro x
    by_cases same : x = i
    · subst x
      rw [mine]
      by_cases last : left i = 1
      · simp [last]
      · have more : left i - 1 ≠ 0 := by omega
        simp [last, more, reached.gone, waiting]
    · rw [others x same, reached.gone]
      split <;> simp [same]
  · intro x
    by_cases same : x = i
    · subst x
      rw [mine, ← reached.share]
      split <;> rfl
    · rw [others x same]
      exact reached.share x
  · intro x
    by_cases same : x = i
    · subst x
      rw [mine, Function.update_self]
      split <;> rfl
    · rw [others x same, Function.update_of_ne same]
      exact reached.remaining x
  · have written := reached.written
    have member := Finset.mem_univ i
    rw [← Finset.add_sum_erase _ _ member] at written ⊢
    have rest : ∑ x ∈ Finset.univ.erase i, (burst x - Function.update left i (left i - 1) x) =
        ∑ x ∈ Finset.univ.erase i, (burst x - left x) :=
      Finset.sum_congr rfl fun x other => by
        rw [Function.update_of_ne (Finset.ne_of_mem_erase other)]
    rw [rest, Function.update_self]
    simp only [Lottery.award, List.length_append, List.length_singleton]
    push_cast
    omega
  · simp only [Lottery.award, List.length_append, List.length_singleton]
    omega

end Reached

end OsLab.Shajith.Lottery
