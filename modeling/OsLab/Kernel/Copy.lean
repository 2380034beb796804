import OsLab.Kernel.Memlayout
import Mathlib.Data.Fin.Basic
import Mathlib.Logic.Function.Basic
import Mathlib.Tactic.NormNum

/-!
`copyin` and `copyout` of `vm.c`, page by page. What `walkaddr`, and `vmfault`
after it, find for each page of the process is an argument: a page may be
missing, and a page may be read-only, differently in every call.
-/

namespace OsLab.Kernel

def memmove {size : ℕ} (dst : Fin size → UInt8) (start : ℕ) (src : ℕ → UInt8) (n : ℕ) :
    Fin size → UInt8 :=
  fun k => if start ≤ k.val ∧ k.val < start + n then src (k.val - start) else dst k

/-- The bytes of the frame behind each page of user memory, where there is one. -/
abbrev SourcePages := ℕ → Option (ℕ → UInt8)

/-- Whether each page of user memory has a frame, and whether its entry has `PTE_W`. -/
abbrev TargetPages := ℕ → Option Bool

/-- The loop of `copyin` with `done` bytes copied; the flag is false for a return of -1. -/
def copyin {size : ℕ} (pages : SourcePages) (dst : Fin size → UInt8) (done srcva len : ℕ) :
    (Fin size → UInt8) × Bool :=
  if len = 0 then
    (dst, true)
  else
    let va0 := pgRoundDown srcva
    match pages va0 with
    | none => (dst, false)
    | some page =>
        let n := min (PGSIZE - (srcva - va0)) len
        copyin pages (memmove dst done (fun k => page (srcva - va0 + k)) n) (done + n)
          ((va0 + PGSIZE) % 2 ^ 64) (len - n)
termination_by len
decreasing_by
  have := pgRoundDown_le srcva
  have := lt_pgRoundDown_add srcva
  omega

/-- The loop of `copyout` with `done` bytes copied into the user memory `mem`. -/
def copyout {size : ℕ} (pages : TargetPages) (mem : ℕ → UInt8) (src : Fin size → UInt8)
    (done dstva len : ℕ) : (ℕ → UInt8) × Bool :=
  if len = 0 then
    (mem, true)
  else
    let va0 := pgRoundDown dstva
    if MAXVA ≤ va0 then
      (mem, false)
    else
      match pages va0 with
      | none => (mem, false)
      | some writable =>
          if writable then
            let n := min (PGSIZE - (dstva - va0)) len
            let written := fun va =>
              if h : dstva ≤ va ∧ va < dstva + n ∧ done + (va - dstva) < size then
                src ⟨done + (va - dstva), h.2.2⟩
              else mem va
            copyout pages written src (done + n) (va0 + PGSIZE) (len - n)
          else (mem, false)
termination_by len
decreasing_by
  have := pgRoundDown_le dstva
  have := lt_pgRoundDown_add dstva
  omega

/-- The byte of user memory at `va`, where its page has a frame. -/
def userByte (pages : SourcePages) (va : ℕ) : Option UInt8 :=
  (pages (pgRoundDown va)).map fun page => page (va - pgRoundDown va)

theorem userByte_chunk {pages : SourcePages} {page : ℕ → UInt8} {srcva k : ℕ}
    (bound : srcva < 2 ^ 64) (found : pages (pgRoundDown srcva) = some page)
    (inside : k < PGSIZE - (srcva - pgRoundDown srcva)) :
    userByte pages ((srcva + k) % 2 ^ 64) = some (page (srcva - pgRoundDown srcva + k)) := by
  have same : pgRoundDown ((srcva + k) % 2 ^ 64) = pgRoundDown srcva := by
    unfold pgRoundDown PGSIZE at *
    omega
  have offset : (srcva + k) % 2 ^ 64 - pgRoundDown srcva = srcva - pgRoundDown srcva + k := by
    unfold pgRoundDown PGSIZE at *
    omega
  simp only [userByte, same, found, Option.map_some, offset]

theorem next_chunk {srcva n k : ℕ} (whole : n = PGSIZE - (srcva - pgRoundDown srcva))
    (later : n ≤ k) :
    ((pgRoundDown srcva + PGSIZE) % 2 ^ 64 + (k - n)) % 2 ^ 64 = (srcva + k) % 2 ^ 64 := by
  unfold pgRoundDown PGSIZE at *
  omega

/-- `copyin` succeeds exactly when every byte it is asked for has a frame behind it. -/
theorem copyin_succeeds_iff {size : ℕ} (pages : SourcePages) (dst : Fin size → UInt8)
    (done srcva len : ℕ) (bound : srcva < 2 ^ 64) :
    (copyin pages dst done srcva len).2 = true ↔
      ∀ k < len, (userByte pages ((srcva + k) % 2 ^ 64)).isSome := by
  induction len using Nat.strongRecOn generalizing dst done srcva with
  | ind len ih =>
      rw [copyin]
      by_cases nothing : len = 0
      · simp [nothing]
      · simp only [nothing, ↓reduceIte]
        cases found : pages (pgRoundDown srcva) with
        | none =>
            simp only [Bool.false_eq_true, false_iff, not_forall]
            refine ⟨0, by omega, ?_⟩
            rw [Nat.add_zero, Nat.mod_eq_of_lt bound]
            simp [userByte, found]
        | some page =>
            have start := pgRoundDown_le srcva
            have room := lt_pgRoundDown_add srcva
            simp only
            rw [ih _ (by omega) _ _ _ (Nat.mod_lt _ (by norm_num))]
            constructor
            · intro rest k below
              by_cases inside : k < PGSIZE - (srcva - pgRoundDown srcva)
              · rw [userByte_chunk bound found inside, Option.isSome_some]
              · have whole : min (PGSIZE - (srcva - pgRoundDown srcva)) len =
                    PGSIZE - (srcva - pgRoundDown srcva) := by omega
                have byte := rest (k - min (PGSIZE - (srcva - pgRoundDown srcva)) len) (by omega)
                rwa [next_chunk whole (by omega)] at byte
            · intro all k below
              have whole : min (PGSIZE - (srcva - pgRoundDown srcva)) len =
                  PGSIZE - (srcva - pgRoundDown srcva) := by omega
              have byte := all (k + min (PGSIZE - (srcva - pgRoundDown srcva)) len) (by omega)
              rwa [← next_chunk whole (by omega), Nat.add_sub_cancel] at byte

theorem copyin_bytes {size : ℕ} (pages : SourcePages) (dst : Fin size → UInt8)
    (done srcva len : ℕ) (bound : srcva < 2 ^ 64)
    (succeeded : (copyin pages dst done srcva len).2 = true) (j : Fin size) :
    some ((copyin pages dst done srcva len).1 j) =
      if done ≤ j.val ∧ j.val < done + len then userByte pages ((srcva + (j.val - done)) % 2 ^ 64)
      else some (dst j) := by
  induction len using Nat.strongRecOn generalizing dst done srcva with
  | ind len ih =>
      rw [copyin] at succeeded ⊢
      by_cases nothing : len = 0
      · simp [nothing]
      · simp only [nothing, ↓reduceIte] at succeeded ⊢
        cases found : pages (pgRoundDown srcva) with
        | none => simp [found] at succeeded
        | some page =>
            have start := pgRoundDown_le srcva
            have room := lt_pgRoundDown_add srcva
            simp only [found] at succeeded
            simp only
            rw [ih _ (by omega) _ _ _ (Nat.mod_lt _ (by norm_num)) succeeded]
            by_cases first : done ≤ j.val ∧
                j.val < done + min (PGSIZE - (srcva - pgRoundDown srcva)) len
            · rw [if_neg (by omega), if_pos (by omega),
                userByte_chunk bound found (by omega), memmove, if_pos first]
            · by_cases wanted : done ≤ j.val ∧ j.val < done + len
              · have whole : min (PGSIZE - (srcva - pgRoundDown srcva)) len =
                    PGSIZE - (srcva - pgRoundDown srcva) := by omega
                rw [if_pos (by omega), if_pos wanted, ← next_chunk whole (k := j.val - done) (by omega),
                  Nat.sub_sub]
              · rw [if_neg (by omega), if_neg wanted, memmove, if_neg first]

/-- A `copyin` that fails has copied some of the bytes, and nothing else. -/
theorem copyin_or {size : ℕ} (pages : SourcePages) (dst : Fin size → UInt8)
    (done srcva len : ℕ) (bound : srcva < 2 ^ 64) (j : Fin size) :
    (copyin pages dst done srcva len).1 j = dst j ∨ (done ≤ j.val ∧ j.val < done + len ∧
      userByte pages ((srcva + (j.val - done)) % 2 ^ 64) =
        some ((copyin pages dst done srcva len).1 j)) := by
  induction len using Nat.strongRecOn generalizing dst done srcva with
  | ind len ih =>
      rw [copyin]
      by_cases nothing : len = 0
      · simp [nothing]
      · simp only [nothing, ↓reduceIte]
        cases found : pages (pgRoundDown srcva) with
        | none => exact .inl rfl
        | some page =>
            have start := pgRoundDown_le srcva
            have room := lt_pgRoundDown_add srcva
            simp only
            rcases ih (len - min (PGSIZE - (srcva - pgRoundDown srcva)) len) (by omega)
              (memmove dst done (fun k => page (srcva - pgRoundDown srcva + k))
                (min (PGSIZE - (srcva - pgRoundDown srcva)) len)) _ _
              (Nat.mod_lt _ (by norm_num)) with same | ⟨lower, upper, byte⟩
            · rw [same]
              by_cases first : done ≤ j.val ∧
                  j.val < done + min (PGSIZE - (srcva - pgRoundDown srcva)) len
              · refine .inr ⟨first.1, by omega, ?_⟩
                rw [userByte_chunk bound found (by omega), memmove, if_pos first]
              · rw [memmove, if_neg first]
                exact .inl rfl
            · have whole : min (PGSIZE - (srcva - pgRoundDown srcva)) len =
                  PGSIZE - (srcva - pgRoundDown srcva) := by omega
              refine .inr ⟨by omega, by omega, ?_⟩
              rw [← byte, ← next_chunk whole (k := j.val - done) (by omega), Nat.sub_sub]

/-- Whether `copyout` may store `len` bytes from `dstva` on. -/
def userWritable (pages : TargetPages) (dstva len : ℕ) : Prop :=
  ∀ k < len, pgRoundDown (dstva + k) < MAXVA ∧ pages (pgRoundDown (dstva + k)) = some true

theorem target_chunk {dstva k : ℕ} (inside : k < PGSIZE - (dstva - pgRoundDown dstva)) :
    pgRoundDown (dstva + k) = pgRoundDown dstva := by
  unfold pgRoundDown PGSIZE at *
  omega

theorem target_next {dstva n k : ℕ} (whole : n = PGSIZE - (dstva - pgRoundDown dstva))
    (later : n ≤ k) : pgRoundDown dstva + PGSIZE + (k - n) = dstva + k := by
  have := pgRoundDown_le dstva
  have := lt_pgRoundDown_add dstva
  omega

theorem copyout_succeeds_iff {size : ℕ} (pages : TargetPages) (mem : ℕ → UInt8)
    (src : Fin size → UInt8) (done dstva len : ℕ) :
    (copyout pages mem src done dstva len).2 = true ↔ userWritable pages dstva len := by
  induction len using Nat.strongRecOn generalizing mem done dstva with
  | ind len ih =>
      rw [copyout]
      by_cases nothing : len = 0
      · simp [nothing, userWritable]
      · simp only [nothing, ↓reduceIte]
        have refused : (pgRoundDown dstva < MAXVA → pages (pgRoundDown dstva) ≠ some true) →
            ¬ userWritable pages dstva len := by
          intro closed writable
          have first := writable 0 (by omega)
          exact closed first.1 first.2
        split
        · rename_i beyond
          simp only [Bool.false_eq_true, false_iff]
          exact refused (by omega)
        · rename_i below
          cases found : pages (pgRoundDown dstva) with
          | none =>
              simp only [Bool.false_eq_true, false_iff]
              exact refused (by simp [found])
          | some writable =>
              cases writable with
              | false =>
                  simp only [Bool.false_eq_true, ↓reduceIte, false_iff]
                  exact refused (by simp [found])
              | true =>
                  have start := pgRoundDown_le dstva
                  have room := lt_pgRoundDown_add dstva
                  simp only [↓reduceIte]
                  rw [ih _ (by omega)]
                  constructor
                  · intro rest k limit
                    by_cases inside : k < PGSIZE - (dstva - pgRoundDown dstva)
                    · rw [target_chunk inside]
                      exact ⟨by omega, found⟩
                    · have whole : min (PGSIZE - (dstva - pgRoundDown dstva)) len =
                          PGSIZE - (dstva - pgRoundDown dstva) := by omega
                      have byte := rest (k - min (PGSIZE - (dstva - pgRoundDown dstva)) len) (by omega)
                      rwa [target_next whole (by omega)] at byte
                  · intro all k limit
                    have whole : min (PGSIZE - (dstva - pgRoundDown dstva)) len =
                        PGSIZE - (dstva - pgRoundDown dstva) := by omega
                    have byte := all (k + min (PGSIZE - (dstva - pgRoundDown dstva)) len) (by omega)
                    rwa [← target_next whole (by omega), Nat.add_sub_cancel] at byte

theorem copyout_bytes {size : ℕ} (pages : TargetPages) (mem : ℕ → UInt8) (src : Fin size → UInt8)
    (done dstva len : ℕ) (fits : done + len ≤ size)
    (succeeded : (copyout pages mem src done dstva len).2 = true) (va : ℕ) :
    (copyout pages mem src done dstva len).1 va =
      if h : dstva ≤ va ∧ va < dstva + len then src ⟨done + (va - dstva), by omega⟩ else mem va := by
  induction len using Nat.strongRecOn generalizing mem done dstva with
  | ind len ih =>
      rw [copyout] at succeeded
      conv_lhs => rw [copyout]
      by_cases nothing : len = 0
      · simp only [nothing, ↓reduceIte]
        rw [dif_neg (by omega)]
      · simp only [nothing, ↓reduceIte] at succeeded ⊢
        split at succeeded
        · simp at succeeded
        · rename_i below
          rw [if_neg below]
          cases found : pages (pgRoundDown dstva) with
          | none => simp [found] at succeeded
          | some writable =>
              cases writable with
              | false => simp [found] at succeeded
              | true =>
                  have start := pgRoundDown_le dstva
                  have room := lt_pgRoundDown_add dstva
                  simp only [found, ↓reduceIte] at succeeded
                  simp only [↓reduceIte]
                  rw [ih _ (by omega) _ _ _ (by omega) succeeded]
                  by_cases first : dstva ≤ va ∧
                      va < dstva + min (PGSIZE - (dstva - pgRoundDown dstva)) len
                  · rw [dif_neg (by omega), dif_pos (by omega), dif_pos (by omega)]
                  · by_cases wanted : dstva ≤ va ∧ va < dstva + len
                    · rw [dif_pos (by omega), dif_pos wanted]
                      refine congrArg src (Fin.ext ?_)
                      simp only
                      omega
                    · rw [dif_neg (by omega), dif_neg wanted, dif_neg (by omega)]

theorem copyout_outside {size : ℕ} (pages : TargetPages) (mem : ℕ → UInt8) (src : Fin size → UInt8)
    (done dstva len : ℕ) {va : ℕ} (outside : va < dstva ∨ dstva + len ≤ va) :
    (copyout pages mem src done dstva len).1 va = mem va := by
  induction len using Nat.strongRecOn generalizing mem done dstva with
  | ind len ih =>
      rw [copyout]
      by_cases nothing : len = 0
      · simp [nothing]
      · simp only [nothing, ↓reduceIte]
        split
        · rfl
        · split
          · rfl
          · have start := pgRoundDown_le dstva
            have room := lt_pgRoundDown_add dstva
            split
            · rw [ih _ (by omega) _ _ _ (by omega), dif_neg (by omega)]
            · rfl

theorem copyout_list (pages : TargetPages) (mem : ℕ → UInt8) (bytes : List UInt8) (dstva : ℕ)
    (success : (copyout pages mem bytes.get 0 dstva bytes.length).2 = true) (va : ℕ) :
    (copyout pages mem bytes.get 0 dstva bytes.length).1 va =
      if dstva ≤ va then (bytes[va - dstva]?).getD (mem va) else mem va := by
  rw [copyout_bytes pages mem bytes.get 0 dstva _ (by omega) success va]
  by_cases inside : dstva ≤ va ∧ va < dstva + bytes.length
  · rw [dif_pos inside, if_pos inside.1, List.getElem?_eq_getElem (by omega)]
    simp
  · rw [dif_neg inside]
    by_cases behind : dstva ≤ va
    · rw [if_pos behind, List.getElem?_eq_none (by omega)]
      rfl
    · rw [if_neg behind]

end OsLab.Kernel
