import Mathlib.Logic.Function.Basic

/-!
References that own cells exactly: every reference is to a used cell, no two references are to
one cell, and every used cell has a reference. The value `0` is no reference.
-/

namespace OsLab.Library

variable {κ β : Type*} [Zero β] {used : β → Prop} {refs : κ → β}

structure Owns (used : β → Prop) (refs : κ → β) : Prop where
  proper : ¬ used 0
  live : ∀ k, refs k ≠ 0 → used (refs k)
  apart : ∀ k l, refs k ≠ 0 → refs k = refs l → k = l
  owned : ∀ b, used b → ∃ k, refs k = b

namespace Owns

theorem congr {other : β → Prop} (owns : Owns used refs) (same : ∀ b, other b ↔ used b) :
    Owns other refs where
  proper zero := owns.proper ((same 0).mp zero)
  live k set := (same _).mpr (owns.live k set)
  apart := owns.apart
  owned b taken := owns.owned b ((same b).mp taken)

theorem empty (unused : ∀ b, ¬ used b) (none : ∀ k, refs k = 0) : Owns used refs where
  proper := unused 0
  live k set := absurd (none k) set
  apart k _ set := absurd (none k) set
  owned b taken := absurd taken (unused b)

variable [DecidableEq κ] {b : β} {k : κ}

theorem assign (owns : Owns used refs) (free : ¬ used b) (nonzero : b ≠ 0) (none : refs k = 0) :
    Owns (fun c => used c ∨ c = b) (Function.update refs k b) where
  proper := by
    rintro (zero | zero)
    · exact owns.proper zero
    · exact nonzero zero.symm
  live l set := by
    by_cases here : l = k
    · exact .inr (by rw [here, Function.update_self])
    · rw [Function.update_of_ne here] at set ⊢
      exact .inl (owns.live l set)
  apart l m set same := by
    by_cases first : l = k <;> by_cases second : m = k
    · exact first.trans second.symm
    · rw [first, Function.update_self, Function.update_of_ne second] at same
      exact absurd (same ▸ owns.live m (same ▸ nonzero)) free
    · rw [second, Function.update_self, Function.update_of_ne first] at same
      exact absurd (same ▸ owns.live l (same ▸ nonzero)) free
    · rw [Function.update_of_ne first] at set same
      rw [Function.update_of_ne second] at same
      exact owns.apart l m set same
  owned c taken := by
    rcases taken with before | rfl
    · obtain ⟨l, rfl⟩ := owns.owned c before
      refine ⟨l, Function.update_of_ne ?_ ..⟩
      rintro rfl
      exact owns.proper (none ▸ before)
    · exact ⟨k, Function.update_self ..⟩

theorem drop (owns : Owns used refs) (set : refs k ≠ 0) :
    Owns (fun c => used c ∧ c ≠ refs k) (Function.update refs k 0) where
  proper zero := owns.proper zero.1
  live l left := by
    by_cases here : l = k
    · rw [here, Function.update_self] at left
      exact absurd rfl left
    · rw [Function.update_of_ne here] at left ⊢
      exact ⟨owns.live l left, fun same => here (owns.apart l k left same)⟩
  apart l m left same := by
    have first : l ≠ k := by
      rintro rfl
      exact left (Function.update_self ..)
    rw [Function.update_of_ne first] at left same
    by_cases second : m = k
    · rw [second, Function.update_self] at same
      exact absurd same left
    · rw [Function.update_of_ne second] at same
      exact owns.apart l m left same
  owned c taken := by
    obtain ⟨l, rfl⟩ := owns.owned c taken.1
    refine ⟨l, Function.update_of_ne ?_ ..⟩
    rintro rfl
    exact taken.2 rfl

end Owns

end OsLab.Library
