import Mathlib.Algebra.BigOperators.Group.Finset.Piecewise
import Mathlib.Algebra.Order.BigOperators.Group.Finset
import Mathlib.Data.Fintype.Card
import Mathlib.Data.Nat.Notation

/-! First-in-first-out queues by level, and how often an entry is in all of them together. -/

namespace OsLab.Library.Levels

variable {κ α : Type*} [DecidableEq κ]

def push (queues : κ → List α) (level : κ) (x : α) : κ → List α :=
  Function.update queues level (queues level ++ [x])

def pop (queues : κ → List α) (level : κ) : κ → List α :=
  Function.update queues level (queues level).tail

variable [Fintype κ] [DecidableEq α]

def held (queues : κ → List α) (x : α) : ℕ := ∑ level, (queues level).count x

theorem held_push (queues : κ → List α) (level : κ) (x y : α) :
    held (push queues level x) y = held queues y + if x = y then 1 else 0 := by
  have split : ∀ other, (push queues level x other).count y =
      (queues other).count y + if other = level then if x = y then 1 else 0 else 0 := by
    intro other
    by_cases here : other = level
    · subst other
      simp [push, List.count_append, List.count_singleton]
    · simp [push, here]
  simp only [held, split, Finset.sum_add_distrib, Finset.sum_ite_eq', Finset.mem_univ, if_true]

theorem held_pop {queues : κ → List α} {level : κ} {x : α} {rest : List α}
    (front : queues level = x :: rest) (y : α) :
    held queues y = held (pop queues level) y + if x = y then 1 else 0 := by
  have split : ∀ other, (queues other).count y =
      (pop queues level other).count y + if other = level then if x = y then 1 else 0 else 0 := by
    intro other
    by_cases here : other = level
    · subst other
      simp [pop, front, List.count_cons]
    · simp [pop, here]
  simp only [held, split, Finset.sum_add_distrib, Finset.sum_ite_eq', Finset.mem_univ, if_true]

omit [DecidableEq κ] in
theorem count_le_held (queues : κ → List α) (level : κ) (x : α) :
    (queues level).count x ≤ held queues x :=
  Finset.single_le_sum (f := fun level => (queues level).count x) (fun _ _ => Nat.zero_le _)
    (Finset.mem_univ level)

omit [DecidableEq κ] in
theorem held_pos {queues : κ → List α} {level : κ} {x : α} (member : x ∈ queues level) :
    0 < held queues x :=
  (List.count_pos_iff.mpr member).trans_le (count_le_held queues level x)

omit [DecidableEq κ] in
theorem held_empty {queues : κ → List α} (empty : ∀ level, queues level = []) (x : α) :
    held queues x = 0 := by
  simp [held, empty]

omit [DecidableEq κ] in
theorem length_le [Fintype α] {queues : κ → List α} (once : ∀ x, held queues x ≤ 1) (level : κ) :
    (queues level).length ≤ Fintype.card α := by
  apply List.Nodup.length_le_card
  rw [List.nodup_iff_count_le_one]
  exact fun x => (count_le_held queues level x).trans (once x)

omit [DecidableEq κ] in
theorem length_lt [Fintype α] {queues : κ → List α} (once : ∀ x, held queues x ≤ 1) {x : α}
    (out : held queues x = 0) (level : κ) : (queues level).length < Fintype.card α := by
  have absent : x ∉ queues level := by
    intro member
    have here := held_pos member
    omega
  have distinct : (queues level).Nodup := by
    rw [List.nodup_iff_count_le_one]
    exact fun y => (count_le_held queues level y).trans (once y)
  exact (List.nodup_cons.mpr ⟨absent, distinct⟩).length_le_card

end OsLab.Library.Levels
