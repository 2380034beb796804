import Mathlib.Data.Int.Order.Basic
import Mathlib.Tactic.Common

/-!
The scan that schedulers use to pick an entry: walk a list once, keep the
eligible entry with the least key met so far, and start from a sentinel key
that no useful entry reaches. Ties keep the entry met first.
-/

namespace OsLab.Library

variable {α : Type*}

def scanLeast (eligible : α → Bool) (key : α → Int) : List α → Option α → Int → Option α
  | [], chosen, _ => chosen
  | entry :: rest, chosen, least =>
      if eligible entry && decide (key entry < least) then
        scanLeast eligible key rest (some entry) (key entry)
      else
        scanLeast eligible key rest chosen least

theorem scanLeast_cases (eligible : α → Bool) (key : α → Int) (entries : List α)
    (chosen : Option α) (least : Int) :
    (scanLeast eligible key entries chosen least = chosen ∧
      ∀ entry ∈ entries, eligible entry = true → least ≤ key entry) ∨
    ∃ best ∈ entries, scanLeast eligible key entries chosen least = some best ∧
      eligible best = true ∧ key best < least ∧
      ∀ entry ∈ entries, eligible entry = true → key best ≤ key entry := by
  induction entries generalizing chosen least with
  | nil => exact Or.inl ⟨rfl, by simp⟩
  | cons entry rest ih =>
      simp only [scanLeast]
      split
      · rename_i better
        simp only [Bool.and_eq_true, decide_eq_true_eq] at better
        right
        rcases ih (some entry) (key entry) with ⟨same, lower⟩ | ⟨best, member, found, ok, below, lower⟩
        · refine ⟨entry, by simp, same, better.1, better.2, ?_⟩
          intro other belongs otherOk
          rcases List.mem_cons.mp belongs with rfl | later
          · exact le_refl _
          · exact lower other later otherOk
        · refine ⟨best, by simp [member], found, ok, by omega, ?_⟩
          intro other belongs otherOk
          rcases List.mem_cons.mp belongs with rfl | later
          · omega
          · exact lower other later otherOk
      · rename_i worse
        have skipped : eligible entry = true → least ≤ key entry := by
          intro ok
          simp only [ok, Bool.true_and, decide_eq_true_eq] at worse
          omega
        rcases ih chosen least with ⟨same, lower⟩ | ⟨best, member, found, ok, below, lower⟩
        · refine Or.inl ⟨same, ?_⟩
          intro other belongs otherOk
          rcases List.mem_cons.mp belongs with rfl | later
          · exact skipped otherOk
          · exact lower other later otherOk
        · refine Or.inr ⟨best, by simp [member], found, ok, below, ?_⟩
          intro other belongs otherOk
          rcases List.mem_cons.mp belongs with rfl | later
          · have := skipped otherOk
            omega
          · exact lower other later otherOk

theorem scanLeast_none {eligible : α → Bool} {key : α → Int} {entries : List α} {bound : Int}
    (nothing : scanLeast eligible key entries none bound = none) :
    ∀ entry ∈ entries, eligible entry = true → bound ≤ key entry := by
  rcases scanLeast_cases eligible key entries none bound with ⟨_, lower⟩ | ⟨best, _, found, _⟩
  · exact lower
  · simp [found] at nothing

theorem scanLeast_some {eligible : α → Bool} {key : α → Int} {entries : List α} {bound : Int}
    {best : α} (found : scanLeast eligible key entries none bound = some best) :
    best ∈ entries ∧ eligible best = true ∧ key best < bound ∧
      ∀ entry ∈ entries, eligible entry = true → key best ≤ key entry := by
  rcases scanLeast_cases eligible key entries none bound with ⟨same, _⟩ | ⟨other, member, same, rest⟩
  · simp [same] at found
  · rw [same, Option.some.injEq] at found
    subst found
    exact ⟨member, rest⟩

theorem scanLeast_split (eligible : α → Bool) (key : α → Int) (entries : List α)
    (chosen : Option α) (least : Int) :
    scanLeast eligible key entries chosen least = chosen ∨
      ∃ before best after, entries = before ++ best :: after ∧
        scanLeast eligible key entries chosen least = some best ∧ key best < least ∧
        ∀ entry ∈ before, eligible entry = true → key best < key entry := by
  induction entries generalizing chosen least with
  | nil => exact Or.inl rfl
  | cons entry rest ih =>
      simp only [scanLeast]
      split
      · rename_i better
        simp only [Bool.and_eq_true, decide_eq_true_eq] at better
        right
        rcases ih (some entry) (key entry) with
          same | ⟨before, best, after, split, found, below, greater⟩
        · exact ⟨[], entry, rest, rfl, same, better.2, by simp⟩
        · refine ⟨entry :: before, best, after, by simp [split], found, by omega, ?_⟩
          intro other belongs otherOk
          rcases List.mem_cons.mp belongs with equal | later
          · rw [equal]
            exact below
          · exact greater other later otherOk
      · rename_i worse
        rcases ih chosen least with
          same | ⟨before, best, after, split, found, below, greater⟩
        · exact Or.inl same
        · right
          refine ⟨entry :: before, best, after, by simp [split], found, below, ?_⟩
          intro other belongs otherOk
          rcases List.mem_cons.mp belongs with equal | later
          · rw [equal] at otherOk ⊢
            simp only [otherOk, Bool.true_and, decide_eq_true_eq] at worse
            omega
          · exact greater other later otherOk

theorem scanLeast_first {eligible : α → Bool} {key : α → Int} {entries : List α} {bound : Int}
    {best : α} (found : scanLeast eligible key entries none bound = some best) :
    ∃ before after, entries = before ++ best :: after ∧
      ∀ entry ∈ before, eligible entry = true → key best < key entry := by
  rcases scanLeast_split eligible key entries none bound with
    same | ⟨before, other, after, split, same, -, greater⟩
  · simp [same] at found
  · rw [same, Option.some.injEq] at found
    subst found
    exact ⟨before, after, split, greater⟩

end OsLab.Library
