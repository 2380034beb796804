import OsLab.Kernel.Copy
import OsLab.Kernel.Signal
import OsLab.Library.CString
import Mathlib.Data.List.Forall2

/-!
`get_psinfo`: one `struct uproc` on the kernel stack is filled for each process in turn and
copied out whole.
-/

namespace OsLab.Kernel.Psinfo

open OsLab.Library OsLab.Library.CString
open OsLab.Kernel.Signal (NPROC Slot)

/-- The values of `enum procstate`. -/
def number : Procstate → UInt32
  | .UNUSED => 0
  | .USED => 1
  | .SLEEPING => 2
  | .RUNNABLE => 3
  | .RUNNING => 4
  | .ZOMBIE => 5

/-- The fields that `get_psinfo` reads, and the mask that follows the name in memory. -/
structure Proc where
  state : Procstate
  pid : UInt32
  parent : Option Slot
  name : Bytes
  name_size : name.length = 16
  pendingSignals : UInt64

abbrev Table := Slot → Proc

structure Uproc where
  pid : UInt32
  state : UInt32
  ppid : UInt32
  name : Bytes
  name_size : name.length = 20

/-- The `k` low bytes of an integer, least significant first. -/
def littleEndian (k x : ℕ) : Bytes := (List.range k).map fun i => .ofNat (x / 256 ^ i)

def Uproc.bytes (up : Uproc) : Bytes :=
  littleEndian 4 up.pid.toNat ++ littleEndian 4 up.state.toNat ++
    littleEndian 4 up.ppid.toNat ++ up.name

def Proc.fromName (proc : Proc) : Bytes := proc.name ++ littleEndian 8 proc.pendingSignals.toNat

/-- The assignments to `up` and the `safestrcpy` into it. -/
def fill (table : Table) (p : Slot) (up : Uproc) : Uproc where
  pid := (table p).pid
  state := number (table p).state
  ppid := match (table p).parent with
    | some parent => (table parent).pid
    | none => 0
  name := safestrcpy 20 up.name (table p).fromName
  name_size := safestrcpy_length up.name_size

/-- The loop over the table. `pages` is what the `copyout` of each round finds. -/
def loop (table : Table) (pages : ℕ → TargetPages) (addr : ℕ) :
    List Slot → Uproc → ℕ → (ℕ → UInt8) → (ℕ → UInt8) × Int
  | [], _, count, mem => (mem, count)
  | p :: rest, up, count, mem =>
      if (table p).state ≠ .UNUSED then
        let filled := fill table p up
        let dstva := (addr + 32 * count) % 2 ^ 64
        let (written, copied) := copyout (pages count) mem filled.bytes.get 0 dstva filled.bytes.length
        if copied then loop table pages addr rest filled (count + 1) written else (written, -1)
      else loop table pages addr rest up count mem

/-- `up` is what the stack variable holds at the start, `mem` the caller's memory. -/
def getPsinfo (table : Table) (pages : ℕ → TargetPages) (addr : UInt64) (up : Uproc)
    (mem : ℕ → UInt8) : (ℕ → UInt8) × Int :=
  loop table pages addr.toNat (List.finRange NPROC) up 0 mem

/-! ### What is claimed -/

def active (table : Table) : List Slot :=
  (List.finRange NPROC).filter fun p => (table p).state ≠ .UNUSED

structure Describes (table : Table) (p : Slot) (up : Uproc) : Prop where
  pid : up.pid = (table p).pid
  state : up.state = number (table p).state
  ppid : up.ppid = ((table p).parent.elim 0 fun parent => (table parent).pid)
  name : text up.name = text ((table p).fromName.take 19)

/-- The records of the processes in use, one behind the other, are what is written from `addr`
on, and nothing else is. -/
def Writes (table : Table) (addr : UInt64) (mem : ℕ → UInt8) (result : (ℕ → UInt8) × Int) : Prop :=
  result.2 = (active table).length ∧ ∃ records : List Uproc,
    List.Forall₂ (Describes table) (active table) records ∧
    ∀ va, result.1 va =
      if addr.toNat ≤ va then ((records.flatMap Uproc.bytes)[va - addr.toNat]?).getD (mem va)
      else mem va

/-- A call that does not fail writes the records of the processes in use, and the same bytes
whatever the stack held before. -/
def RevealsTable (table : Table) : Prop :=
  ∀ pages addr mem up, (getPsinfo table pages addr up mem).2 ≠ -1 →
    Writes table addr mem (getPsinfo table pages addr up mem) ∧
      ∀ other, getPsinfo table pages addr other mem = getPsinfo table pages addr up mem

/-! ### What is written -/

section Records

variable {table : Table}

def records (table : Table) : List Slot → Uproc → List Uproc
  | [], _ => []
  | p :: rest, up =>
      if (table p).state ≠ .UNUSED then fill table p up :: records table rest (fill table p up)
      else records table rest up

@[simp] theorem littleEndian_length (k x : ℕ) : (littleEndian k x).length = k := by
  simp [littleEndian]

@[simp] theorem bytes_length (up : Uproc) : up.bytes.length = 32 := by
  simp [Uproc.bytes, up.name_size]

theorem fill_describes (table : Table) (p : Slot) (up : Uproc) :
    Describes table p (fill table p up) where
  pid := rfl
  state := rfl
  ppid := by cases parent : (table p).parent <;> simp [fill, parent]
  name := text_safestrcpy up.name_size

theorem records_describe (slots : List Slot) (up : Uproc) :
    List.Forall₂ (Describes table) (slots.filter fun p => (table p).state ≠ .UNUSED)
      (records table slots up) := by
  induction slots generalizing up with
  | nil => exact .nil
  | cons p rest ih =>
      by_cases used : (table p).state ≠ .UNUSED
      · rw [records, if_pos used, List.filter_cons_of_pos (by simpa using used)]
        exact .cons (fill_describes table p up) (ih _)
      · rw [records, if_neg used, List.filter_cons_of_neg (by simpa using used)]
        exact ih up

theorem loop_writes {pages : ℕ → TargetPages} {addr count : ℕ} {slots : List Slot} {up : Uproc}
    {mem : ℕ → UInt8} (start : addr + 32 * count < 2 ^ 64)
    (succeeds : (loop table pages addr slots up count mem).2 ≠ -1) :
    (loop table pages addr slots up count mem).2 = count + (records table slots up).length ∧
      ∀ va, (loop table pages addr slots up count mem).1 va =
        if addr + 32 * count ≤ va then
          (((records table slots up).flatMap Uproc.bytes)[va - (addr + 32 * count)]?).getD (mem va)
        else mem va := by
  induction slots generalizing up count mem with
  | nil => simp [loop, records]
  | cons p rest ih =>
      by_cases used : (table p).state ≠ .UNUSED
      · rw [records, if_pos used]
        simp only [loop, if_pos used, Nat.mod_eq_of_lt start] at succeeds ⊢
        cases copied : (copyout (pages count) mem (fill table p up).bytes.get 0
            (addr + 32 * count) (fill table p up).bytes.length).2 with
        | false =>
            rw [copied] at succeeds
            exact absurd rfl succeeds
        | true =>
            have first := ((copyout_succeeds_iff ..).mp copied 0 (by simp)).1
            have next : addr + 32 * (count + 1) < 2 ^ 64 := by
              unfold pgRoundDown PGSIZE MAXVA at first
              omega
            simp only [copied, if_true] at succeeds ⊢
            obtain ⟨result, bytes⟩ := ih next succeeds
            refine ⟨by rw [result]; simp; omega, fun va => ?_⟩
            rw [bytes va, copyout_list _ _ _ _ copied va, List.flatMap_cons]
            by_cases before : addr + 32 * count ≤ va
            · by_cases behind : addr + 32 * (count + 1) ≤ va
              · have past : (fill table p up).bytes.length ≤ va - (addr + 32 * count) := by
                  rw [bytes_length]
                  omega
                have later : va - (addr + 32 * count) - 32 = va - (addr + 32 * (count + 1)) := by
                  omega
                rw [if_pos behind, if_pos before, if_pos before, List.getElem?_append_right past,
                  List.getElem?_eq_none past, bytes_length, later]
                rfl
              · rw [if_neg behind, if_pos before, if_pos before,
                  List.getElem?_append_left (by rw [bytes_length]; omega)]
            · rw [if_neg (by omega), if_neg before, if_neg before]
      · rw [records, if_neg used]
        simp only [loop, if_neg used] at succeeds ⊢
        exact ih start succeeds

end Records

/-! ### What it depends on -/

theorem loop_fails_iff {table : Table} {pages : ℕ → TargetPages} {addr count : ℕ}
    {slots : List Slot} (up other : Uproc) (mem mem' : ℕ → UInt8) :
    (loop table pages addr slots up count mem).2 = -1 ↔
      (loop table pages addr slots other count mem').2 = -1 := by
  induction slots generalizing up other count mem mem' with
  | nil => simp [loop]
  | cons p rest ih =>
      by_cases used : (table p).state ≠ .UNUSED
      · have same : (copyout (pages count) mem (fill table p up).bytes.get 0
            ((addr + 32 * count) % 2 ^ 64) (fill table p up).bytes.length).2 =
            (copyout (pages count) mem' (fill table p other).bytes.get 0
              ((addr + 32 * count) % 2 ^ 64) (fill table p other).bytes.length).2 := by
          rw [Bool.eq_iff_iff, copyout_succeeds_iff, copyout_succeeds_iff, bytes_length,
            bytes_length]
        simp only [loop, if_pos used, same]
        split
        · exact ih _ _ _ _
        · simp
      · simp only [loop, if_neg used]
        exact ih up other mem mem'

theorem loop_succeeds {table : Table} {count : ℕ} {slots : List Slot} (up : Uproc)
    (mem : ℕ → UInt8) (room : 32 * (count + slots.length) < MAXVA) :
    (loop table (fun _ _ => some true) 0 slots up count mem).2 ≠ -1 := by
  induction slots generalizing up count mem with
  | nil => simp [loop]
  | cons p rest ih =>
      rw [List.length_cons] at room
      by_cases used : (table p).state ≠ .UNUSED
      · have copied : (copyout (fun _ => some true) mem (fill table p up).bytes.get 0
            ((0 + 32 * count) % 2 ^ 64) (fill table p up).bytes.length).2 = true := by
          rw [copyout_succeeds_iff, bytes_length]
          intro k low
          refine ⟨?_, rfl⟩
          unfold MAXVA at room
          unfold pgRoundDown PGSIZE MAXVA
          omega
        simp only [loop, if_pos used, copied, if_true]
        exact ih _ _ (by omega)
      · simp only [loop, if_neg used]
        exact ih _ _ (by omega)

theorem getPsinfo_succeeds (table : Table) (up : Uproc) (mem : ℕ → UInt8) :
    (getPsinfo table (fun _ _ => some true) 0 up mem).2 ≠ -1 :=
  loop_succeeds up mem (by decide)

def named (proc : Proc) : Bytes := text (proc.fromName.take 19)

theorem fill_covers {table : Table} {p : Slot} (long : 18 ≤ (named (table p)).length)
    (up other : Uproc) : fill table p up = fill table p other := by
  have covers : ∀ s : Bytes, s.length = 20 → safestrcpy 20 s (table p).fromName =
      named (table p) ++ if (named (table p)).length < 19 then [0, 0] else [0] := by
    intro s size
    rw [safestrcpy_eq size]
    by_cases cut : (named (table p)).length < 19
    · have rest : s.drop ((named (table p)).length + 2) = [] :=
        List.drop_of_length_le (by omega)
      rw [← named, if_pos cut, if_pos cut, rest]
    · rw [← named, if_neg cut, if_neg cut]
  simp only [fill, covers up.name up.name_size, covers other.name other.name_size]

theorem fill_leaves {table : Table} {p : Slot} (short : (named (table p)).length < 18)
    (up : Uproc) : (fill table p up).bytes[31]? = up.name[19]? := by
  have split : (fill table p up).name =
      named (table p) ++ 0 :: 0 :: up.name.drop ((named (table p)).length + 2) := by
    have copied := safestrcpy_eq (t := (table p).fromName) up.name_size
    rwa [← named, if_pos (by omega)] at copied
  have front : (littleEndian 4 (fill table p up).pid.toNat ++
      littleEndian 4 (fill table p up).state.toNat ++
      littleEndian 4 (fill table p up).ppid.toNat).length = 12 := by simp
  obtain ⟨k, place⟩ : ∃ k, 19 = (named (table p)).length + (k + 2) :=
    ⟨17 - (named (table p)).length, by omega⟩
  have inside : 31 - 12 - (named (table p)).length = k + 2 := by omega
  rw [Uproc.bytes, List.getElem?_append_right (by rw [front]; omega), front, split, place,
    List.getElem?_append_right (by omega), inside, List.getElem?_cons_succ,
    List.getElem?_cons_succ, List.getElem?_drop]
  congr 1
  omega

theorem records_covered {table : Table} {slots : List Slot}
    (long : ∀ p, (slots.filter fun p => (table p).state ≠ .UNUSED).head? = some p →
      18 ≤ (named (table p)).length) (up other : Uproc) :
    records table slots up = records table slots other := by
  induction slots with
  | nil => rfl
  | cons p rest ih =>
      by_cases used : (table p).state ≠ .UNUSED
      · have same := fill_covers (long p (by simp [used])) up other
        rw [records, records, if_pos used, if_pos used, same]
      · rw [records, records, if_neg used, if_neg used]
        exact ih fun q first => long q (by simpa [used] using first)

theorem records_head {table : Table} {slots : List Slot} {p : Slot}
    (first : (slots.filter fun p => (table p).state ≠ .UNUSED).head? = some p) (up : Uproc) :
    ∃ rest, records table slots up = fill table p up :: rest := by
  induction slots with
  | nil => simp at first
  | cons q rest ih =>
      by_cases used : (table q).state ≠ .UNUSED
      · obtain rfl : q = p := by simpa [used] using first
        exact ⟨_, by rw [records, if_pos used]⟩
      · rw [records, if_neg used]
        exact ih (by simpa [used] using first)

def dirty (last : UInt8) : Uproc where
  pid := 0
  state := 0
  ppid := 0
  name := List.replicate 19 0 ++ [last]
  name_size := by simp

theorem last_byte_leaks {table : Table} {p : Slot} (first : (active table).head? = some p)
    (short : (named (table p)).length < 18) (last : UInt8) :
    (getPsinfo table (fun _ _ => some true) 0 (dirty last) fun _ => 0).1 31 = last := by
  have written := (loop_writes (by decide)
    (getPsinfo_succeeds table (dirty last) fun _ => 0)).2 31
  obtain ⟨rest, start⟩ := records_head first (dirty last)
  rw [start, List.flatMap_cons, List.getElem?_append_left (by simp)] at written
  have place : 31 - (UInt64.toNat 0 + 32 * 0) = 31 := rfl
  rw [if_pos (by simp), place, fill_leaves short] at written
  exact written

theorem not_reveals {table : Table} {p : Slot} (first : (active table).head? = some p)
    (short : (named (table p)).length < 18) : ¬ RevealsTable table := by
  intro reveals
  have same := (reveals _ _ _ _ (getPsinfo_succeeds table (dirty 0) fun _ => 0)).2 (dirty 1)
  have byte := last_byte_leaks first short 1
  rw [same, last_byte_leaks first short 0] at byte
  simp at byte

/-- `get_psinfo` reveals the table and nothing else exactly if there is nobody to report, or the
first process to be reported has a name of at least 18 bytes. -/
theorem psinfo_reveals_table_iff (table : Table) :
    RevealsTable table ↔
      ∀ p, (active table).head? = some p → 18 ≤ (named (table p)).length := by
  constructor
  · intro reveals p first
    by_contra short
    exact not_reveals first (not_le.mp short) reveals
  · intro long pages addr mem up succeeds
    have start : addr.toNat + 32 * 0 < 2 ^ 64 := addr.toNat_lt
    obtain ⟨result, bytes⟩ := loop_writes start succeeds
    have described : List.Forall₂ (Describes table) (active table)
        (records table (List.finRange NPROC) up) := records_describe _ up
    refine ⟨⟨?_, _, described, bytes⟩, fun other => ?_⟩
    · rw [getPsinfo, result, described.length_eq]
      simp
    · have alike := records_covered long up other
      have again : (getPsinfo table pages addr other mem).2 ≠ -1 := fun fails =>
        succeeds ((loop_fails_iff up other mem mem).mpr fails)
      obtain ⟨result', bytes'⟩ := loop_writes start again
      refine Prod.ext (funext fun va => ?_) ?_
      · rw [getPsinfo, getPsinfo, bytes va, bytes' va, alike]
      · rw [getPsinfo, getPsinfo, result, result', alike]

theorem named_short {proc : Proc} (terminated : 0 ∈ proc.name) : (named proc).length < 18 := by
  have cut : proc.fromName.take 19 =
      proc.name ++ (littleEndian 8 proc.pendingSignals.toNat).take 3 := by
    rw [Proc.fromName, List.take_append, proc.name_size,
      List.take_of_length_le (by rw [proc.name_size]; omega)]
  have bound := text_length_lt terminated
  rw [named, cut, text_append_of_nul terminated]
  rw [proc.name_size] at bound
  omega

/-- So every table with terminated names and a process in it leaks. -/
theorem leaks_of_terminated {table : Table} (terminated : ∀ p, 0 ∈ (table p).name) {p : Slot}
    (used : (table p).state ≠ .UNUSED) : ¬ RevealsTable table := by
  cases first : (active table).head? with
  | some q => exact not_reveals first (named_short (terminated q))
  | none =>
      have member : p ∈ active table := List.mem_filter.mpr ⟨List.mem_finRange p, by simpa using used⟩
      rw [List.head?_eq_none_iff] at first
      simp [first] at member

def initOnly : Table := fun p =>
  if p = Signal.initproc then
    { state := .RUNNING
      pid := 1
      parent := none
      name := [105, 110, 105, 116] ++ List.replicate 12 0
      name_size := by simp
      pendingSignals := 0 }
  else
    { state := .UNUSED
      pid := 0
      parent := none
      name := List.replicate 16 0
      name_size := by simp
      pendingSignals := 0 }

theorem stack_bytes_leak :
    (getPsinfo initOnly (fun _ _ => some true) 0 (dirty 0) fun _ => 0).1 31 = 0 ∧
      (getPsinfo initOnly (fun _ _ => some true) 0 (dirty 1) fun _ => 0).1 31 = 1 ∧
      ¬ RevealsTable initOnly := by
  have first : (active initOnly).head? = some Signal.initproc := by decide +kernel
  have short : (named (initOnly Signal.initproc)).length < 18 := by decide +kernel
  exact ⟨last_byte_leaks first short 0, last_byte_leaks first short 1, not_reveals first short⟩

end OsLab.Kernel.Psinfo
