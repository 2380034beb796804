import Mathlib.Data.List.Infix
import OsLab.Library.System
import OsLab.User.Grep

/-!
The loop of `grep`: it reads into a buffer of 1024 bytes, prints the complete lines in it that
match and moves what is left to the front. However `read` splits the file, what is printed is the
lines that match, up to the first line the buffer has no room for or that holds a NUL.
-/

namespace OsLab.User.Grep

open OsLab.Library

/-- `sizeof(buf) - 1`: one byte is kept for the NUL. -/
def room : ℕ := 1023

/-- `strchr(p, '\n')`: the line in front of the newline and what follows it. -/
def strchr : List UInt8 → Option (List UInt8 × List UInt8)
  | [] => none
  | c :: p =>
      if c = 0 then none
      else if c = newline then some ([], p)
      else (strchr p).map fun (line, rest) => (c :: line, rest)

/-- The inner loop: what it writes, and what is left from `p` on. -/
def printLines (pattern : List UInt8) : ℕ → List UInt8 → List UInt8 × List UInt8
  | 0, p => ([], p)
  | fuel + 1, p =>
      match strchr p with
      | none => ([], p)
      | some (line, rest) =>
          let (out, left) := printLines pattern fuel rest
          ((if matchText pattern line then line ++ [newline] else []) ++ out, left)

/-- `buf` is the `m` bytes in the buffer, `file` what has not been read, `out` what was written. -/
structure State where
  buf : List UInt8
  file : List UInt8
  out : List UInt8
  done : Bool

/-- A round of the loop in which `read` returns `n`. It returns nothing only at the end of the file
or when it was asked for nothing. -/
def step (pattern : List UInt8) (s : State) (n : ℕ) : Option State :=
  if s.done then none
  else if n = 0 then
    if s.file = [] ∨ s.buf.length = room then some { s with done := true } else none
  else if n ≤ s.file.length ∧ n ≤ room - s.buf.length then
    let buf := s.buf ++ s.file.take n
    let (out, left) := printLines pattern buf.length buf
    some { s with buf := left, file := s.file.drop n, out := s.out ++ out }
  else none

def start (file : List UInt8) : State := ⟨[], file, [], false⟩

def system (pattern file : List UInt8) : System State ℕ where
  init s := s = start file
  step s n t := step pattern s n = some t

/-! ### The lines of a file -/

/-- A line that fits into the buffer with its newline, and holds no NUL. -/
def Whole (line : List UInt8) : Prop := line.length < room ∧ 0 ∉ line

instance (line : List UInt8) : Decidable (Whole line) := inferInstanceAs (Decidable (_ ∧ _))

/-- The lines in front of the first one that is not whole. What follows the last newline is no
line. -/
def lines (file : List UInt8) : List (List UInt8) :=
  (file.splitOn newline).dropLast.takeWhile (Whole ·)

/-- What should be written: the lines in which the pattern is found. -/
def matching (pattern file : List UInt8) : List UInt8 :=
  ((lines file).filter (· ∈ found pattern)).flatMap (· ++ [newline])

variable {pattern file line rest p left out : List UInt8} {s t : State} {n fuel : ℕ}

theorem lines_cons (first : newline ∉ line) (whole : Whole line) :
    lines (line ++ newline :: rest) = line :: lines rest := by
  have split : (line ++ newline :: rest).splitOn newline = line :: rest.splitOn newline :=
    List.splitOn_append_cons_self_of_not_mem first rest
  rw [lines, split, List.dropLast_cons_of_ne_nil (List.splitOn_ne_nil newline rest),
    List.takeWhile_cons_of_pos (by simpa using whole), lines]

theorem lines_eq_nil
    (none : ∀ line rest, file = line ++ newline :: rest → newline ∉ line → ¬ Whole line) :
    lines file = [] := by
  by_cases present : newline ∈ file
  · obtain ⟨line, rest, rfl, first⟩ := List.eq_append_cons_of_mem present
    have split : (line ++ newline :: rest).splitOn newline = line :: rest.splitOn newline :=
      List.splitOn_append_cons_self_of_not_mem first rest
    rw [lines, split, List.dropLast_cons_of_ne_nil (List.splitOn_ne_nil newline rest),
      List.takeWhile_cons_of_neg (by simpa using none line rest rfl first)]
  · rw [lines, List.splitOn_eq_singleton present]
    rfl

theorem matching_cons (first : newline ∉ line) (whole : Whole line) :
    matching pattern (line ++ newline :: rest) =
      (if matchText pattern line then line ++ [newline] else []) ++ matching pattern rest := by
  simp only [matching, lines_cons first whole, List.filter_cons, decide_eq_true_eq, matchText_iff]
  split
  · rw [List.flatMap_cons]
  · rw [List.nil_append]

theorem strchr_some (found : strchr p = some (line, rest)) :
    p = line ++ newline :: rest ∧ newline ∉ line ∧ 0 ∉ line := by
  induction p generalizing line rest with
  | nil => cases found
  | cons c p ih =>
      rw [strchr] at found
      split at found
      case isTrue => cases found
      case isFalse nonzero =>
        split at found
        case isTrue here =>
          obtain ⟨rfl, rfl⟩ := Prod.mk.inj (Option.some.inj found)
          exact ⟨by rw [here, List.nil_append], List.not_mem_nil, List.not_mem_nil⟩
        case isFalse other =>
          obtain ⟨⟨line, rest⟩, later, same⟩ := Option.map_eq_some_iff.mp found
          obtain ⟨rfl, rfl⟩ := Prod.mk.inj same
          obtain ⟨rfl, first, clean⟩ := ih later
          exact ⟨rfl, List.not_mem_cons_of_ne_of_not_mem (Ne.symm other) first,
            List.not_mem_cons_of_ne_of_not_mem (Ne.symm nonzero) clean⟩

theorem strchr_none (missing : strchr (line ++ newline :: rest) = none) (first : newline ∉ line) :
    0 ∈ line := by
  induction line with
  | nil => cases missing
  | cons c line ih =>
      rw [List.mem_cons, not_or] at first
      rw [List.cons_append, strchr] at missing
      split at missing
      case isTrue zero => exact zero ▸ List.mem_cons_self
      case isFalse =>
        rw [if_neg (Ne.symm first.1)] at missing
        exact List.mem_cons_of_mem _ (ih (Option.map_eq_none_iff.mp missing) first.2)

theorem lines_stuck (missing : strchr p = none) (stop : file = [] ∨ room ≤ p.length) :
    lines (p ++ file) = [] := by
  refine lines_eq_nil fun line rest same first whole => ?_
  have later (unread : file ≠ []) (long : p.length ≤ line.length) : False := by
    have short := whole.1
    have full := stop.resolve_left unread
    omega
  -- The newline is in the file, and then the line fills the buffer, or in the buffer.
  obtain ⟨more, rfl, tail⟩ | ⟨more, rfl, tail⟩ := List.append_eq_append_iff.mp same
  · refine later (fun empty => ?_) (by rw [List.length_append]; omega)
    rw [empty] at tail
    exact List.cons_ne_nil _ _ (List.append_eq_nil_iff.mp tail.symm).2
  · cases more with
    | nil =>
        refine later (fun empty => ?_) (by rw [List.append_nil])
        rw [empty] at tail
        cases tail
    | cons c more =>
        obtain ⟨rfl, -⟩ := List.cons.inj tail
        exact whole.2 (strchr_none missing first)

/-- The inner loop writes the lines of `p` that match, whatever is read after it. -/
theorem printLines_matching (pattern file : List UInt8) (enough : p.length ≤ fuel)
    (fits : p.length ≤ room) (printed : printLines pattern fuel p = (out, left)) :
    out ++ matching pattern (left ++ file) = matching pattern (p ++ file) ∧
      strchr left = none ∧ left.length ≤ p.length := by
  induction fuel generalizing p out with
  | zero =>
      obtain rfl := List.eq_nil_of_length_eq_zero (Nat.le_zero.mp enough)
      obtain ⟨rfl, rfl⟩ := Prod.mk.inj printed
      exact ⟨rfl, rfl, Nat.le_refl _⟩
  | succ fuel ih =>
      rw [printLines] at printed
      cases found : strchr p with
      | none =>
          simp only [found] at printed
          obtain ⟨rfl, rfl⟩ := Prod.mk.inj printed
          exact ⟨rfl, found, Nat.le_refl _⟩
      | some pair =>
          obtain ⟨line, rest⟩ := pair
          simp only [found] at printed
          obtain ⟨rfl, rfl⟩ := Prod.mk.inj printed
          obtain ⟨rfl, first, clean⟩ := strchr_some found
          rw [List.length_append, List.length_cons] at enough fits
          obtain ⟨later, missing, shorter⟩ := ih (by omega) (by omega) rfl
          refine ⟨?_, missing, by rw [List.length_append, List.length_cons]; omega⟩
          rw [List.append_assoc, later, List.append_assoc, List.cons_append,
            matching_cons first ⟨by omega, clean⟩]

structure Inv (pattern file : List UInt8) (s : State) : Prop where
  fits : s.buf.length ≤ room
  searched : strchr s.buf = none
  written : s.out ++ (if s.done then [] else matching pattern (s.buf ++ s.file)) =
    matching pattern file

theorem start_inv : Inv pattern file (start file) :=
  ⟨Nat.zero_le _, rfl, rfl⟩

theorem step_cases (taken : step pattern s n = some t) : s.done = false ∧
    (((s.file = [] ∨ s.buf.length = room) ∧ t = { s with done := true }) ∨
      ∃ out left, 0 < n ∧ n ≤ s.file.length ∧ n ≤ room - s.buf.length ∧
        printLines pattern (s.buf ++ s.file.take n).length (s.buf ++ s.file.take n) =
          (out, left) ∧
        t = { s with buf := left, file := s.file.drop n, out := s.out ++ out }) := by
  rw [step] at taken
  split at taken
  case isTrue => cases taken
  case isFalse going =>
    refine ⟨Bool.eq_false_iff.mpr going, ?_⟩
    split at taken
    case isTrue =>
      split at taken
      case isTrue stop => exact .inl ⟨stop, (Option.some.inj taken).symm⟩
      case isFalse => cases taken
    case isFalse positive =>
      split at taken
      case isTrue enough =>
        exact .inr ⟨_, _, Nat.pos_of_ne_zero positive, enough.1, enough.2, rfl,
          (Option.some.inj taken).symm⟩
      case isFalse => cases taken

theorem step_inv (inv : Inv pattern file s) (taken : step pattern s n = some t) :
    Inv pattern file t := by
  obtain ⟨going, ⟨stop, rfl⟩ | ⟨out, left, -, -, short, printed, rfl⟩⟩ := step_cases taken
  all_goals
    have written := inv.written
    rw [going, if_neg Bool.false_ne_true] at written
  · have stuck := lines_stuck inv.searched (stop.imp_right ge_of_eq)
    rw [matching, stuck] at written
    exact ⟨inv.fits, inv.searched, written⟩
  · have fits : (s.buf ++ s.file.take n).length ≤ room := by
      have := inv.fits
      rw [List.length_append, List.length_take]
      omega
    obtain ⟨later, searched, shorter⟩ :=
      printLines_matching pattern (s.file.drop n) (Nat.le_refl _) fits printed
    refine ⟨shorter.trans fits, searched, ?_⟩
    rw [List.append_assoc, List.take_append_drop] at later
    dsimp only
    rw [going, if_neg Bool.false_ne_true, List.append_assoc, later, written]

theorem another (inv : Inv pattern file s) (going : s.done = false) :
    ∃ n t, step pattern s n = some t := by
  by_cases stop : s.file = [] ∨ s.buf.length = room
  · exact ⟨0, _, by rw [step, going, if_neg Bool.false_ne_true, if_pos rfl, if_pos stop]⟩
  · rw [not_or] at stop
    have unread := List.length_pos_iff.mpr stop.1
    have fits := inv.fits
    exact ⟨1, _, by
      rw [step, going, if_neg Bool.false_ne_true, if_neg Nat.one_ne_zero, if_pos (by omega)]⟩

theorem inv_of_run {labels : List ℕ} (run : (system pattern file).Run (start file) labels s) :
    Inv pattern file s :=
  (run.reachable (.start rfl)).invariant (fun _ first => first ▸ start_inv) fun _ _ _ => step_inv

def State.remaining (s : State) : ℕ := s.file.length + (!s.done).toNat

theorem step_remaining (taken : step pattern s n = some t) : t.remaining < s.remaining := by
  obtain ⟨going, ⟨-, rfl⟩ | ⟨out, left, positive, enough, -, -, rfl⟩⟩ := step_cases taken
  · simp [State.remaining, going]
  · simp only [State.remaining, List.length_drop]
    omega

theorem run_remaining {labels : List ℕ} (run : (system pattern file).Run s labels t) :
    labels.length + t.remaining ≤ s.remaining := by
  induction run with
  | nil _ => rw [List.length_nil, Nat.zero_add]
  | cons taken _ ih =>
      have less := step_remaining taken
      rw [List.length_cons]
      omega

/-- Whatever lengths `read` returns, only lines in which the pattern is found are written, in their
order, and all of them when the loop ends. It does end: until then another round is possible, and
there are at most as many as the file has bytes, and one. -/
theorem grep_lines (pattern file : List UInt8) (labels : List ℕ) (s : State)
    (run : (system pattern file).Run (start file) labels s) :
    s.buf.length ≤ room ∧ s.out <+: matching pattern file ∧
      (s.done = true → s.out = matching pattern file) ∧
      (s.done = false → ∃ n t, step pattern s n = some t) ∧ labels.length ≤ file.length + 1 := by
  have inv := inv_of_run run
  have bound := run_remaining run
  have start : (start file).remaining = file.length + 1 := rfl
  refine ⟨inv.fits, ⟨_, inv.written⟩, fun ended => ?_, another inv, by omega⟩
  have written := inv.written
  rwa [if_pos ended, List.append_nil] at written

/-- The pattern `a` in a file of one line and a rest, read in two pieces. -/
theorem grep_lines_pieces : ([97, 10] : List UInt8) = matching [97] [97, 10, 98] := by
  have run : (system [97] [97, 10, 98]).Run (start [97, 10, 98]) [1, 2, 0]
      ⟨[98], [], [97, 10], true⟩ := .ofExecute (fun _ _ _ taken => taken) rfl
  exact (grep_lines _ _ _ _ run).2.2.1 rfl

end OsLab.User.Grep
