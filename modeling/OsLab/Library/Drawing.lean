import Mathlib.Algebra.BigOperators.Group.List.Basic
import Mathlib.Algebra.Order.BigOperators.Group.List
import Mathlib.Algebra.Order.Ring.Int
import Mathlib.Tactic.Common

/-!
Weighted drawing: walk a list, add up the weights of the eligible entries, and stop at the entry
that takes the sum past a drawn number. The addition is a parameter, so that it can wrap around.
-/

namespace OsLab.Library

variable {α : Type*} {add : Int → Int → Int} {eligible : α → Bool} {weight : α → Int}

def sumWeights (add : Int → Int → Int) (eligible : α → Bool) (weight : α → Int) :
    List α → Int → Int
  | [], sum => sum
  | entry :: rest, sum =>
      if eligible entry then sumWeights add eligible weight rest (add sum (weight entry))
      else sumWeights add eligible weight rest sum

def scanDrawn (add : Int → Int → Int) (eligible : α → Bool) (weight : α → Int) (drawn : Int) :
    List α → Int → Option α
  | [], _ => none
  | entry :: rest, sum =>
      if eligible entry then
        if drawn < add sum (weight entry) then some entry
        else scanDrawn add eligible weight drawn rest (add sum (weight entry))
      else scanDrawn add eligible weight drawn rest sum

theorem scanDrawn_some {drawn sum : Int} {entries : List α} {owner : α}
    (found : scanDrawn add eligible weight drawn entries sum = some owner) :
    owner ∈ entries ∧ eligible owner = true := by
  induction entries generalizing sum with
  | nil => simp [scanDrawn] at found
  | cons entry rest ih =>
      simp only [scanDrawn] at found
      split at found
      · rename_i ok
        split at found
        · simp only [Option.some.injEq] at found
          subst owner
          exact ⟨by simp, ok⟩
        · obtain ⟨member, eligible⟩ := ih found
          exact ⟨by simp [member], eligible⟩
      · obtain ⟨member, eligible⟩ := ih found
        exact ⟨by simp [member], eligible⟩

theorem scanDrawn_found {drawn sum : Int} {entries : List α} (lower : sum ≤ drawn)
    (upper : drawn < sumWeights add eligible weight entries sum) :
    ∃ owner, scanDrawn add eligible weight drawn entries sum = some owner := by
  induction entries generalizing sum with
  | nil =>
      simp only [sumWeights] at upper
      omega
  | cons entry rest ih =>
      simp only [sumWeights] at upper
      simp only [scanDrawn]
      split
      · rename_i ok
        rw [if_pos ok] at upper
        split
        · exact ⟨entry, rfl⟩
        · exact ih (by omega) upper
      · rename_i skipped
        rw [if_neg skipped] at upper
        exact ih lower upper

theorem sumWeights_eq (entries : List α) (sum : Int) :
    sumWeights (· + ·) eligible weight entries sum =
      sum + (entries.map fun entry => if eligible entry then weight entry else 0).sum := by
  induction entries generalizing sum with
  | nil => simp [sumWeights]
  | cons entry rest ih =>
      simp only [sumWeights, List.map_cons, List.sum_cons]
      split
      · rw [ih]
        omega
      · rw [ih]
        omega

theorem sumWeights_ge {sum : Int} {entries : List α}
    (nonneg : ∀ entry ∈ entries, eligible entry = true → 0 ≤ weight entry) :
    sum ≤ sumWeights (· + ·) eligible weight entries sum := by
  rw [sumWeights_eq]
  have parts : 0 ≤ (entries.map fun entry => if eligible entry then weight entry else 0).sum := by
    apply List.sum_nonneg
    intro part member
    obtain ⟨entry, inside, rfl⟩ := List.mem_map.mp member
    split
    · exact nonneg entry inside (by assumption)
    · exact le_refl 0
  omega

theorem sumWeights_zero {sum : Int} {entries : List α}
    (positive : ∀ entry ∈ entries, eligible entry = true → 0 < weight entry)
    (same : sumWeights (· + ·) eligible weight entries sum = sum) :
    ∀ entry ∈ entries, eligible entry = false := by
  induction entries with
  | nil => simp
  | cons entry rest ih =>
      have later : ∀ entry ∈ rest, eligible entry = true → 0 < weight entry := by
        intro other member
        exact positive other (by simp [member])
      simp only [sumWeights] at same
      cases ok : eligible entry with
      | false =>
          have nobody := ih later (by simpa [ok] using same)
          simpa [ok] using nobody
      | true =>
          have some := positive entry (by simp) ok
          have part : sum + weight entry ≤
              sumWeights (· + ·) eligible weight rest (sum + weight entry) :=
            sumWeights_ge fun other member able => (later other member able).le
          simp only [ok, if_true] at same
          omega

/-- Each eligible entry owns as many successive numbers as its weight says. -/
theorem scanDrawn_slot (sum : Int) {entries : List α} {owner : α} (nodup : entries.Nodup)
    (nonneg : ∀ entry ∈ entries, eligible entry = true → 0 ≤ weight entry)
    (member : owner ∈ entries) (ok : eligible owner = true) :
    ∃ first, sum ≤ first ∧
      first + weight owner ≤ sumWeights (· + ·) eligible weight entries sum ∧
      ∀ drawn, sum ≤ drawn →
        (scanDrawn (· + ·) eligible weight drawn entries sum = some owner ↔
          first ≤ drawn ∧ drawn < first + weight owner) := by
  induction entries generalizing sum with
  | nil => simp at member
  | cons entry rest ih =>
      obtain ⟨fresh, nodup⟩ := List.nodup_cons.mp nodup
      have later : ∀ entry ∈ rest, eligible entry = true → 0 ≤ weight entry := by
        intro other member
        exact nonneg other (by simp [member])
      simp only [sumWeights, scanDrawn]
      cases here : eligible entry with
      | false =>
          have other : owner ∈ rest := by
            rcases List.mem_cons.mp member with rfl | other
            · simp [ok] at here
            · exact other
          simpa using ih sum nodup later other
      | true =>
          have some := nonneg entry (by simp) here
          simp only [if_true]
          rcases List.mem_cons.mp member with rfl | other
          · refine ⟨sum, le_refl sum, sumWeights_ge later, ?_⟩
            intro drawn lower
            by_cases mine : drawn < sum + weight owner
            · simp [mine, lower]
            · have beyond : scanDrawn (· + ·) eligible weight drawn rest (sum + weight owner) ≠
                  Option.some owner := by
                intro found
                exact fresh (scanDrawn_some found).1
              simp [mine, beyond]
          · obtain ⟨first, after, within, slot⟩ := ih (sum + weight entry) nodup later other
            refine ⟨first, by omega, within, ?_⟩
            intro drawn lower
            by_cases taken : drawn < sum + weight entry
            · have apart : entry ≠ owner := by
                rintro rfl
                exact fresh other
              have before : ¬ first ≤ drawn := by omega
              simp [taken, apart, before]
            · rw [if_neg taken, slot drawn (by omega)]

section Bounded

variable {bound : Int} (plain : ∀ a b, 0 ≤ a → 0 ≤ b → a + b ≤ bound → add a b = a + b)
include plain

theorem sumWeights_plain {sum : Int} {entries : List α}
    (nonneg : ∀ entry ∈ entries, eligible entry = true → 0 ≤ weight entry) (lower : 0 ≤ sum)
    (within : sumWeights (· + ·) eligible weight entries sum ≤ bound) :
    sumWeights add eligible weight entries sum =
      sumWeights (· + ·) eligible weight entries sum := by
  induction entries generalizing sum with
  | nil => rfl
  | cons entry rest ih =>
      have later : ∀ entry ∈ rest, eligible entry = true → 0 ≤ weight entry := by
        intro other member
        exact nonneg other (by simp [member])
      simp only [sumWeights] at within ⊢
      cases ok : eligible entry with
      | false => simpa [ok] using ih later lower (by simpa [ok] using within)
      | true =>
          have some := nonneg entry (by simp) ok
          simp only [ok, if_true] at within ⊢
          have part : sum + weight entry ≤
              sumWeights (· + ·) eligible weight rest (sum + weight entry) := sumWeights_ge later
          rw [plain sum (weight entry) lower some (by omega)]
          exact ih later (by omega) within

theorem scanDrawn_plain {drawn sum : Int} {entries : List α}
    (nonneg : ∀ entry ∈ entries, eligible entry = true → 0 ≤ weight entry) (lower : 0 ≤ sum)
    (within : sumWeights (· + ·) eligible weight entries sum ≤ bound) :
    scanDrawn add eligible weight drawn entries sum =
      scanDrawn (· + ·) eligible weight drawn entries sum := by
  induction entries generalizing sum with
  | nil => rfl
  | cons entry rest ih =>
      have later : ∀ entry ∈ rest, eligible entry = true → 0 ≤ weight entry := by
        intro other member
        exact nonneg other (by simp [member])
      simp only [sumWeights] at within
      simp only [scanDrawn]
      cases ok : eligible entry with
      | false => simpa using ih later lower (by simpa [ok] using within)
      | true =>
          have some := nonneg entry (by simp) ok
          simp only [ok, if_true] at within ⊢
          have part : sum + weight entry ≤
              sumWeights (· + ·) eligible weight rest (sum + weight entry) := sumWeights_ge later
          rw [plain sum (weight entry) lower some (by omega), ih later (by omega) within]

/-- With positive weights each eligible entry owns a number below the sum. -/
theorem scanDrawn_owner {sum : Int} {entries : List α} {owner : α} (nodup : entries.Nodup)
    (positive : ∀ entry ∈ entries, eligible entry = true → 0 < weight entry) (lower : 0 ≤ sum)
    (within : sumWeights (· + ·) eligible weight entries sum ≤ bound) (member : owner ∈ entries)
    (ok : eligible owner = true) :
    ∃ drawn, sum ≤ drawn ∧ drawn < sumWeights (· + ·) eligible weight entries sum ∧
      scanDrawn add eligible weight drawn entries sum = some owner := by
  have nonneg : ∀ entry ∈ entries, eligible entry = true → 0 ≤ weight entry :=
    fun entry inside ok => (positive entry inside ok).le
  obtain ⟨first, after, short, slot⟩ := scanDrawn_slot sum nodup nonneg member ok
  have some := positive owner member ok
  refine ⟨first, after, by omega, ?_⟩
  rw [scanDrawn_plain plain nonneg lower within, slot first after]
  omega

end Bounded

end OsLab.Library
