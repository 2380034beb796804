import Mathlib.Data.List.TakeWhile
import Mathlib.Data.Nat.Notation
import Mathlib.Tactic.Common

/-!
Strings in byte arrays. An array is a list of bytes; what would be read past its end counts as
a NUL.
-/

namespace OsLab.Library.CString

abbrev Bytes := List UInt8

/-- What an array holds before its first NUL. -/
def text (s : Bytes) : Bytes := s.takeWhile fun c => c ≠ 0

def strlen : Bytes → ℕ
  | [] => 0
  | c :: rest => if c = 0 then 0 else strlen rest + 1

/-- The difference of the first two bytes that decide. -/
def strncmp : ℕ → Bytes → Bytes → Int
  | 0, _, _ => 0
  | n + 1, p, q =>
      if p.headD 0 ≠ 0 ∧ p.headD 0 = q.headD 0 then strncmp n p.tail q.tail
      else ((p.headD 0).toNat : Int) - (q.headD 0).toNat

/-- The `n` bytes that `strncpy` writes. -/
def strncpy : ℕ → Bytes → Bytes
  | 0, _ => []
  | n + 1, t => if t.headD 0 = 0 then List.replicate (n + 1) 0 else t.headD 0 :: strncpy n t.tail

/-- The array `s` after `safestrcpy(s, t, n)`. The loop stops behind a NUL it has copied, or
one place before the end, and one more NUL is stored where it stops. -/
def safestrcpy : ℕ → Bytes → Bytes → Bytes
  | 0, s, _ => s
  | 1, s, _ => 0 :: s.tail
  | n + 2, s, t =>
      t.headD 0 :: if t.headD 0 = 0 then 0 :: s.tail.tail else safestrcpy (n + 1) s.tail t.tail

@[simp] theorem text_nil : text [] = [] := rfl

theorem text_cons (c : UInt8) (rest : Bytes) :
    text (c :: rest) = if c = 0 then [] else c :: text rest := by
  by_cases zero : c = 0 <;> simp [text, zero]

@[simp] theorem strlen_eq (s : Bytes) : strlen s = (text s).length := by
  induction s with
  | nil => rfl
  | cons c rest ih =>
      rw [strlen, text_cons]
      split
      · rfl
      · rw [ih, List.length_cons]

theorem text_length_le (s : Bytes) : (text s).length ≤ s.length := (List.takeWhile_prefix _).length_le

theorem ne_zero_of_mem_text {s : Bytes} {c : UInt8} (member : c ∈ text s) : c ≠ 0 := by
  simpa using List.mem_takeWhile_imp member

theorem text_eq_self {s : Bytes} (clean : ∀ c ∈ s, c ≠ 0) : text s = s :=
  List.takeWhile_eq_self_iff.mpr (by simpa using clean)

theorem text_text (s : Bytes) : text (text s) = text s :=
  text_eq_self fun _ => ne_zero_of_mem_text

theorem text_append {s t : Bytes} (clean : ∀ c ∈ s, c ≠ 0) : text (s ++ t) = s ++ text t :=
  List.takeWhile_append_of_pos (by simpa using clean)

theorem text_append_of_nul {s : Bytes} (nul : 0 ∈ s) (t : Bytes) : text (s ++ t) = text s := by
  induction s with
  | nil => simp at nul
  | cons c rest ih =>
      rw [List.cons_append, text_cons, text_cons]
      by_cases zero : c = 0
      · simp [zero]
      · rw [if_neg zero, if_neg zero, ih (by simpa [Ne.symm zero] using nul)]

theorem text_length_lt {s : Bytes} (nul : 0 ∈ s) : (text s).length < s.length := by
  refine lt_of_le_of_ne (text_length_le s) fun same => ?_
  have whole : text s = s := (List.takeWhile_prefix _).eq_of_length same
  exact ne_zero_of_mem_text (by rwa [whole]) rfl

theorem text_append_zero (s : Bytes) : text (s ++ [0]) = text s := by
  induction s with
  | nil => rfl
  | cons c rest ih => rw [List.cons_append, text_cons, text_cons, ih]

theorem text_take_succ (n : ℕ) (s : Bytes) : text (s.take (n + 1)) =
    if s.headD 0 = 0 then [] else s.headD 0 :: text (s.tail.take n) := by
  cases s with
  | nil => rfl
  | cons c rest => exact text_cons c (rest.take n)

theorem strncmp_eq_zero {n : ℕ} {p q : Bytes} :
    strncmp n p q = 0 ↔ text (p.take n) = text (q.take n) := by
  induction n generalizing p q with
  | zero => simp [strncmp]
  | succ n ih =>
      rw [strncmp, text_take_succ, text_take_succ]
      generalize p.headD 0 = c
      generalize q.headD 0 = d
      by_cases same : c = d
      · subst d
        by_cases zero : c = 0
        · simp [zero]
        · simp [zero, ih]
      · have apart : (c.toNat : Int) - d.toNat ≠ 0 := by
          intro equal
          apply same
          apply UInt8.toNat_inj.mp
          omega
        rw [if_neg fun both => same both.2]
        refine ⟨fun equal => absurd equal apart, fun lists => ?_⟩
        by_cases zero : c = 0
        · by_cases other : d = 0
          · exact absurd (zero.trans other.symm) same
          · simp [zero, other] at lists
        · by_cases other : d = 0 <;> simp [zero, other, same] at lists

@[simp] theorem strncpy_length (n : ℕ) (t : Bytes) : (strncpy n t).length = n := by
  induction n generalizing t with
  | zero => rfl
  | succ n ih =>
      rw [strncpy]
      split
      · simp
      · simp [ih]

theorem text_strncpy (n : ℕ) (t : Bytes) : text (strncpy n t) = text (t.take n) := by
  induction n generalizing t with
  | zero => simp [strncpy]
  | succ n ih =>
      rw [strncpy]
      cases t with
      | nil => simp [text, List.replicate_succ]
      | cons c t => by_cases zero : c = 0 <;> simp [text_cons, zero, ih, List.replicate_succ]

/-- The string, cut to `n` bytes, and then two NULs over what was there, or one at the end. -/
theorem safestrcpy_eq {n : ℕ} {s t : Bytes} (size : s.length = n + 1) :
    safestrcpy (n + 1) s t = text (t.take n) ++
      if (text (t.take n)).length < n then 0 :: 0 :: s.drop ((text (t.take n)).length + 2)
      else [0] := by
  induction n generalizing s t with
  | zero =>
      have short : s.tail = [] := List.length_eq_zero_iff.mp (by simp [size])
      simp [safestrcpy, short]
  | succ n ih =>
      rw [safestrcpy, text_take_succ]
      by_cases zero : t.headD 0 = 0
      · rw [if_pos zero, if_pos zero, zero, ← List.drop_one, ← List.drop_one, List.drop_drop]
        simp
      · rw [if_neg zero, if_neg zero, ih (by simp [size])]
        simp

theorem safestrcpy_length {n : ℕ} {s t : Bytes} (size : s.length = n + 1) :
    (safestrcpy (n + 1) s t).length = n + 1 := by
  have bound := text_length_le (t.take n)
  rw [List.length_take] at bound
  rw [safestrcpy_eq size]
  split <;> simp [size] <;> omega

theorem text_safestrcpy {n : ℕ} {s t : Bytes} (size : s.length = n + 1) :
    text (safestrcpy (n + 1) s t) = text (t.take n) := by
  rw [safestrcpy_eq size, text_append fun _ => ne_zero_of_mem_text]
  split <;> simp [text_cons]

end OsLab.Library.CString
