import OsLab.Ayush.Lottery
import OsLab.Shajith.Lottery
import OsLab.Vijay.Lottery
import Mathlib.Data.Int.Interval
import Mathlib.Data.Set.Card

/-!
The draws of the three lottery simulators. One counts the tickets from 1 and compares with `>=`, two
count them from 0 and compare with `<`; for the same remainder of `rand()` they find the same winner.
-/

namespace OsLab.Lotteries

open OsLab.Library

variable {n c : ℕ}

structure Draws (n c : ℕ) where
  ayush : Ayush.Lottery.Sim n c
  cpu : Fin c
  procs : Fin n → Vijay.Process
  time : ℕ
  vijay : Vijay.Lottery.Sim n
  p : Fin n → Shajith.Lottery.Proc

/-- The three have the same tickets and let the same processes take part. -/
structure Draws.Among (draws : Draws n c) (tickets : Fin n → Int) (eligible : Fin n → Bool) :
    Prop where
  idle : (draws.ayush.cpus draws.cpu).currentProcessId = none
  ayushTickets : ∀ i, (draws.ayush.processes i).tickets = tickets i
  ayushEligible : ∀ i, Ayush.Lottery.eligible draws.ayush i = eligible i
  vijayTickets : ∀ i, (draws.procs i).tickets = tickets i
  vijayEligible : ∀ i, Vijay.Lottery.eligible draws.procs draws.time draws.vijay i = eligible i
  shajithTickets : ∀ i, (draws.p i).tickets = tickets i
  shajithEligible : ∀ i, (draws.p i).done = !eligible i

def total (tickets : Fin n → Int) (eligible : Fin n → Bool) : Int :=
  ∑ i with eligible i = true, tickets i

/-- Whenever `rand() % total` is `r`, each of the three selects the process. -/
structure Draws.Select (draws : Draws n c) (total r : Int) (i : Fin n) : Prop where
  ayush : ∀ rand : ℕ → Int, (rand draws.ayush.draws).tmod total = r →
    Ayush.Lottery.draw rand draws.ayush draws.cpu =
      Ayush.Lottery.dispatch { draws.ayush with draws := draws.ayush.draws + 1 } draws.cpu i
  vijay : ∀ rand : ℕ → ℕ, (rand draws.time : Int).tmod total = r →
    Vijay.Lottery.tick draws.procs rand draws.time draws.vijay =
      some (Vijay.Lottery.serve draws.procs draws.time draws.vijay i)
  shajith : ∀ (randMax : ℕ) (draw : Fin (randMax + 1)), (draw.val : Int).tmod total = r →
    Shajith.Lottery.pickWinner draw draws.p (Shajith.Lottery.countTickets draws.p) = .ok (some i)

/-- The owner of the ticket `r`, when they are counted from 0. -/
def owner (tickets : Fin n → Int) (eligible : Fin n → Bool) (r : Int) : Option (Fin n) :=
  scanDrawn (· + ·) eligible tickets r (List.finRange n) 0

variable {tickets : Fin n → Int} {eligible : Fin n → Bool}

theorem sumWeights_total (tickets : Fin n → Int) (eligible : Fin n → Bool) :
    sumWeights (· + ·) eligible tickets (List.finRange n) 0 = total tickets eligible := by
  rw [sumWeights_eq, zero_add, total, Finset.sum_filter, Fin.sum_univ_def]

namespace Draws

variable {draws : Draws n c} {r : Int} {i : Fin n} (among : draws.Among tickets eligible)
include among

section Selects

variable (shared : total tickets eligible ≠ 0) (won : owner tickets eligible r = some i)
include shared won

theorem Among.ayush {rand : ℕ → Int}
    (left : (rand draws.ayush.draws).tmod (total tickets eligible) = r) :
    Ayush.Lottery.draw rand draws.ayush draws.cpu =
      Ayush.Lottery.dispatch { draws.ayush with draws := draws.ayush.draws + 1 } draws.cpu i := by
  have shares : (fun i => (draws.ayush.processes i).tickets) = tickets :=
    funext among.ayushTickets
  have able : Ayush.Lottery.eligible draws.ayush = eligible := funext among.ayushEligible
  apply Ayush.Lottery.draw_found among.idle ?_ shared left
  · rw [shares, able]
    exact won
  · rw [Ayush.Lottery.totalTickets_eq, shares, able, sumWeights_total]

theorem Among.vijay {rand : ℕ → ℕ}
    (left : (rand draws.time : Int).tmod (total tickets eligible) = r) :
    Vijay.Lottery.tick draws.procs rand draws.time draws.vijay =
      some (Vijay.Lottery.serve draws.procs draws.time draws.vijay i) := by
  have shares : (fun i => (draws.procs i).tickets) = tickets := funext among.vijayTickets
  have able : Vijay.Lottery.eligible draws.procs draws.time draws.vijay = eligible :=
    funext among.vijayEligible
  have counted : Vijay.Lottery.totalTickets draws.procs draws.time draws.vijay =
      total tickets eligible := by
    rw [Vijay.Lottery.totalTickets, shares, able, sumWeights_total]
  rw [owner] at won
  simp only [Vijay.Lottery.tick, counted, if_neg shared, left, shares, able, won]

theorem Among.shajith (nonneg : ∀ i, 0 ≤ tickets i) (fits : total tickets eligible ≤ 2 ^ 31 - 1)
    {randMax : ℕ} {draw : Fin (randMax + 1)}
    (left : (draw.val : Int).tmod (total tickets eligible) = r) :
    Shajith.Lottery.pickWinner draw draws.p (Shajith.Lottery.countTickets draws.p) =
      .ok (some i) := by
  have shares : (fun i => (draws.p i).tickets) = tickets := funext among.shajithTickets
  have able : (fun i => !(draws.p i).done) = eligible := by
    funext i
    rw [among.shajithEligible, Bool.not_not]
  have plain : ∀ a b, 0 ≤ a → 0 ≤ b → a + b ≤ total tickets eligible →
      Shajith.Lottery.plus a b = a + b :=
    fun a b _ _ within => Shajith.Lottery.plus_eq (by omega) (within.trans fits)
  have whole : sumWeights (· + ·) eligible tickets (List.finRange n) 0 = total tickets eligible :=
    sumWeights_total tickets eligible
  have counted : Shajith.Lottery.countTickets draws.p = total tickets eligible := by
    rw [Shajith.Lottery.countTickets, shares, able,
      sumWeights_plain plain (fun i _ _ => nonneg i) (le_refl 0) whole.le, whole]
  rw [Shajith.Lottery.pickWinner, counted, if_neg shared]
  simp only [left, shares, able]
  rw [scanDrawn_plain plain (fun i _ _ => nonneg i) (le_refl 0) whole.le]
  exact congrArg Except.ok won

end Selects

variable (nonneg : ∀ i, 0 ≤ tickets i) (fits : total tickets eligible ≤ 2 ^ 31 - 1)
include nonneg fits

theorem Among.select_iff (lower : 0 ≤ r) (upper : r < total tickets eligible) :
    draws.Select (total tickets eligible) r i ↔ owner tickets eligible r = some i := by
  have shared : total tickets eligible ≠ 0 := by omega
  have selects : ∀ i, owner tickets eligible r = some i →
      draws.Select (total tickets eligible) r i := by
    intro i won
    exact ⟨fun _ left => among.ayush shared won left, fun _ left => among.vijay shared won left,
      fun _ _ left => among.shajith shared won nonneg fits left⟩
  constructor
  · intro selected
    obtain ⟨j, won⟩ := scanDrawn_found lower (upper.trans_eq (sumWeights_total _ _).symm)
    have left : ((Fin.last r.toNat).val : Int).tmod (total tickets eligible) = r := by
      rw [Fin.val_last, Int.toNat_of_nonneg lower, Int.tmod_eq_of_lt lower upper]
    have same := (selected.shajith r.toNat (Fin.last r.toNat) left).symm.trans
      ((selects j won).shajith r.toNat (Fin.last r.toNat) left)
    rw [Option.some.inj (Except.ok.inj same)]
    exact won
  · exact selects i

end Draws

/-- Whatever is drawn, the three select the same process, one that takes part and holds a ticket;
and each that takes part is selected by as many numbers as it holds tickets. -/
theorem draws_agree (draws : Draws n c) (among : draws.Among tickets eligible)
    (nonneg : ∀ i, 0 ≤ tickets i) (fits : total tickets eligible ≤ 2 ^ 31 - 1) :
    (∀ r, 0 ≤ r → r < total tickets eligible →
      ∃ i, eligible i = true ∧ 1 ≤ tickets i ∧ draws.Select (total tickets eligible) r i) ∧
    ∀ i, eligible i = true →
      ({r | 0 ≤ r ∧ r < total tickets eligible ∧
        draws.Select (total tickets eligible) r i}.ncard : Int) = tickets i := by
  have slots : ∀ i, eligible i = true → ∃ first, 0 ≤ first ∧
      first + tickets i ≤ total tickets eligible ∧ ∀ r, 0 ≤ r →
        (owner tickets eligible r = some i ↔ first ≤ r ∧ r < first + tickets i) := by
    intro i able
    obtain ⟨first, lower, upper, slot⟩ := scanDrawn_slot 0 (List.nodup_finRange n)
      (fun i _ _ => nonneg i) (List.mem_finRange i) able
    rw [sumWeights_total] at upper
    exact ⟨first, lower, upper, slot⟩
  constructor
  · intro r lower upper
    obtain ⟨i, won⟩ := scanDrawn_found lower (upper.trans_eq (sumWeights_total _ _).symm)
    have able := (scanDrawn_some won).2
    obtain ⟨first, -, -, slot⟩ := slots i able
    have inside := (slot r lower).mp won
    exact ⟨i, able, by omega, (among.select_iff nonneg fits lower upper).mpr won⟩
  · intro i able
    obtain ⟨first, lower, upper, slot⟩ := slots i able
    have numbers : {r | 0 ≤ r ∧ r < total tickets eligible ∧
        draws.Select (total tickets eligible) r i} = Finset.Ico first (first + tickets i) := by
      ext r
      rw [Set.mem_ofPred_eq, Finset.coe_Ico, Set.mem_Ico]
      constructor
      · rintro ⟨low, high, selected⟩
        exact (slot r low).mp ((among.select_iff nonneg fits low high).mp selected)
      · intro inside
        have low : 0 ≤ r := by omega
        have high : r < total tickets eligible := by omega
        exact ⟨low, high, (among.select_iff nonneg fits low high).mpr ((slot r low).mpr inside)⟩
    have share := nonneg i
    rw [numbers, Set.ncard_coe_finset, Int.card_Ico]
    omega

/-- Processes that have all arrived by time 0, but for those that do not take part. -/
def present (tickets : Fin n → Int) (eligible : Fin n → Bool) : Draws n 1 where
  ayush := Ayush.Lottery.start 1 fun i =>
    { id := i + 1, arrivalTime := if eligible i then 0 else 1, burstTime := 1, remainingTime := 1
      period := 0, tickets := tickets i, priorityLevel := 0, state := .ready, completionTime := 0
      startTime := -1, cpuId := -1 }
  cpu := Fin.last 0
  procs i :=
    { pid := i + 1, burstTime := 1, arrivalTime := if eligible i then 0 else 1
      tickets := tickets i, period := 0, remainingTime := 1 }
  time := 0
  vijay := { remainingTime := fun _ => 1, trace := [] }
  p i := { (Shajith.Lottery.start (fun _ => 1) tickets).p i with done := !eligible i }

theorem present_among (tickets : Fin n → Int) (eligible : Fin n → Bool) :
    (present tickets eligible).Among tickets eligible where
  idle := rfl
  ayushTickets _ := rfl
  ayushEligible i := by
    cases able : eligible i <;>
      simp [present, Ayush.Lottery.start, Ayush.Lottery.eligible, able]
  vijayTickets _ := rfl
  vijayEligible i := by
    cases able : eligible i <;> simp [present, Vijay.Lottery.eligible, able]
  shajithTickets _ := rfl
  shajithEligible _ := rfl

def fourTickets : Fin 4 → Int := ![2, 0, 5, 3]

def fourEligible : Fin 4 → Bool := ![true, true, false, true]

theorem draws_agree_four :
    (∃ i, fourEligible i = true ∧ 1 ≤ fourTickets i ∧
      (present fourTickets fourEligible).Select 5 2 i) ∧
    ({r | 0 ≤ r ∧ r < 5 ∧ (present fourTickets fourEligible).Select 5 r 3}.ncard : Int) = 3 := by
  have sum : total fourTickets fourEligible = 5 := by decide
  obtain ⟨winner, shares⟩ := draws_agree (present fourTickets fourEligible)
    (present_among fourTickets fourEligible) (by decide) (by decide)
  rw [sum] at winner shares
  exact ⟨winner 2 (by decide) (by decide), shares 3 rfl⟩

end OsLab.Lotteries
