import Mathlib.Data.Finset.Basic
import Mathlib.Data.List.FinRange

/-!
A finite set of indices below `w` as a word of `w` bits, and the set's operations as
the usual `or`, `and not` and `and` with a single bit.
-/

namespace OsLab.Library

variable {w : ℕ}

def word (S : Finset (Fin w)) : BitVec w :=
  ((List.finRange w).filter (· ∈ S)).foldr (fun (i : Fin w) rest => BitVec.twoPow w i ||| rest) 0#w

theorem getElem_foldr_twoPow (list : List (Fin w)) (j : Fin w) :
    (list.foldr (fun (i : Fin w) rest => BitVec.twoPow w i ||| rest) 0#w)[(j : ℕ)] =
      decide (j ∈ list) := by
  induction list with
  | nil => simp
  | cons i list ih =>
      rw [List.foldr_cons, BitVec.getElem_or, ih]
      simp [Fin.val_inj]

@[simp] theorem getElem_word (S : Finset (Fin w)) (j : Fin w) :
    (word S)[(j : ℕ)] = decide (j ∈ S) := by
  simp [word, getElem_foldr_twoPow]

theorem bits_ext {x y : BitVec w} (same : ∀ j : Fin w, x[(j : ℕ)] = y[(j : ℕ)]) : x = y :=
  BitVec.eq_of_getElem_eq fun j bound => same ⟨j, bound⟩

theorem word_empty : word (∅ : Finset (Fin w)) = 0 := bits_ext fun j => by simp

theorem word_injective : Function.Injective (word (w := w)) := by
  intro S T same
  ext j
  have bit := congrArg (fun x => x[(j : ℕ)]) same
  simpa using bit

theorem word_insert (S : Finset (Fin w)) (i : Fin w) :
    word (insert i S) = word S ||| BitVec.twoPow w i := by
  refine bits_ext fun j => ?_
  rw [BitVec.getElem_or]
  by_cases same : j = i <;> simp [same, Fin.val_inj]

theorem word_erase (S : Finset (Fin w)) (i : Fin w) :
    word (S.erase i) = word S &&& ~~~ BitVec.twoPow w i := by
  refine bits_ext fun j => ?_
  rw [BitVec.getElem_and, BitVec.getElem_not]
  by_cases same : j = i <;> simp [same, Fin.val_inj]

theorem word_and_twoPow (S : Finset (Fin w)) (i : Fin w) :
    word S &&& BitVec.twoPow w i = 0 ↔ i ∉ S := by
  constructor
  · intro clear member
    have bit := congrArg (fun x => x[(i : ℕ)]) clear
    simp [member] at bit
  · intro absent
    refine bits_ext fun j => ?_
    rw [BitVec.getElem_and]
    by_cases same : j = i <;> simp [same, absent, Fin.val_inj]

theorem signExtend_eq_zero {v : ℕ} (wide : w ≤ v) {x : BitVec w} :
    x.signExtend v = 0 ↔ x = 0 := by
  constructor
  · intro zero
    refine bits_ext fun j => ?_
    have bit := congrArg (fun y => y.getLsbD j) zero
    have low : (j : ℕ) < v := by omega
    simpa only [BitVec.getLsbD_signExtend, low, decide_true, Bool.true_and, j.isLt, if_true,
      BitVec.ofNat_eq_ofNat, BitVec.getLsbD_zero, BitVec.getElem_zero,
      BitVec.getLsbD_eq_getElem j.isLt] using bit
  · rintro rfl
    exact bits_ext fun j => by simp [BitVec.getElem_signExtend]

end OsLab.Library
