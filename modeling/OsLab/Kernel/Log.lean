import OsLab.Library.System
import Mathlib.Data.Finset.Card
import Mathlib.Data.Fintype.Basic
import Mathlib.Data.List.Range

/-!
The log of `log.c` over the buffer cache: system calls of several processes between `begin_op`
and `end_op`, the commit of the last of them, and recovery after a crash, which may come between
any two steps. One step writes at most one block of the disk.
-/

namespace OsLab.Kernel.Log

open OsLab.Library

def MAXOPBLOCKS : ℕ := 10

def LOGBLOCKS : ℕ := MAXOPBLOCKS * 3

def NBUF : ℕ := MAXOPBLOCKS * 3

/-- A block of the disk, as words of the size of an `int`. -/
abbrev Block := ℕ → ℕ

/-- The loops of `write_log` and `install_trans` in `commit`, and what `end_op` does after it. -/
inductive Stage
  | writeLog (tail : ℕ)
  | installTrans (tail : ℕ)
  | finish
  deriving DecidableEq

/-- `used` counts the blocks that the system call has added to the log. -/
inductive Pc
  | user
  | op (used : ℕ)
  | commit (stage : Stage)
  deriving DecidableEq

/-- `initlog` runs before any other code uses the disk. -/
inductive Mode
  | initlog
  | recovering (tail : ℕ)
  | running
  deriving DecidableEq

inductive Panic
  | committing
  | tooBig
  | outsideTrans
  | noBuffers
  deriving DecidableEq

/-- `cache` has the valid buffers, `held` the buffers that a process has locked. `changed` and
`pinned` record the buffers changed and not logged since, and those that `log_write` has pinned;
`committed` is what the home blocks are to be after a crash. -/
structure State (n : ℕ) where
  disk : ℕ → Block
  cache : ℕ → Option Block
  refcnt : ℕ → ℕ
  held : Fin n → List ℕ
  lh : List ℕ
  outstanding : ℕ
  committing : Bool
  pc : Fin n → Pc
  mode : Mode
  panic : Option Panic
  changed : ℕ → Bool
  pinned : List ℕ
  committed : ℕ → Block

inductive Label (n : ℕ)
  | beginOp (p : Fin n)
  | bread (p : Fin n) (b : ℕ)
  | modify (p : Fin n) (b : ℕ) (data : Block)
  | logWrite (p : Fin n) (b : ℕ)
  | brelse (p : Fin n) (b : ℕ)
  | endOp (p : Fin n)
  | commit (p : Fin n)
  | evict (b : ℕ)
  | recover
  | crash

def readHead (data : Block) : List ℕ := (List.range (data 0)).map fun i => data (i + 1)

def writeHead (lh : List ℕ) (data : Block) : Block := fun i =>
  match i with
  | 0 => lh.length
  | i + 1 => (lh[i]?).getD (data (i + 1))

variable {n : ℕ}

namespace State

def view (s : State n) (b : ℕ) : Block := (s.cache b).getD (s.disk b)

def goto (s : State n) (p : Fin n) (pc : Pc) : State n :=
  { s with pc := Function.update s.pc p pc }

def enter (s : State n) (mode : Mode) : State n := { s with mode := mode }

def unlocked (s : State n) (b : ℕ) : Bool := decide (∀ q, b ∉ s.held q)

/-- `memmove` to the buffer of a block, and `bwrite`. -/
def bwrite (s : State n) (b : ℕ) (data : Block) : State n :=
  { s with
    cache := Function.update s.cache b (some data)
    disk := Function.update s.disk b data }

def inUse (s : State n) : Finset ℕ := (s.pinned ++ (List.finRange n).flatMap s.held).toFinset

/-- `bget` panics where no buffer is left for one of the blocks. -/
def lacks (s : State n) (blocks : List ℕ) : Bool :=
  decide (NBUF < (s.inUse ∪ blocks.toFinset).card)

def exhaust (s : State n) : State n := { s with panic := some .noBuffers }

def beginOp (s : State n) (p : Fin n) : Option (State n) :=
  if s.pc p ≠ .user then none
  else if s.committing then none
  else if s.lh.length + (s.outstanding + 1) * MAXOPBLOCKS > LOGBLOCKS then none
  else some ({ s with outstanding := s.outstanding + 1 }.goto p (.op 0))

/-- A process that waits for the buffer does not count in `refcnt` yet. -/
def bread (s : State n) (p : Fin n) (b : ℕ) : Option (State n) :=
  if s.unlocked b then
    some { s with
      cache := Function.update s.cache b (some (s.view b))
      refcnt := Function.update s.refcnt b (s.refcnt b + 1)
      held := Function.update s.held p (b :: s.held p) }
  else none

def modify (s : State n) (p : Fin n) (b : ℕ) (data : Block) : Option (State n) :=
  match s.pc p with
  | .op _ =>
      if b ∈ s.held p then
        some { s with
          cache := Function.update s.cache b (some data)
          changed := Function.update s.changed b true }
      else none
  | _ => none

def bpin (s : State n) (b : ℕ) : State n :=
  { s with
    refcnt := Function.update s.refcnt b (s.refcnt b + 1)
    pinned := s.pinned ++ [b] }

def bunpin (s : State n) (b : ℕ) : State n :=
  { s with
    refcnt := Function.update s.refcnt b (s.refcnt b - 1)
    pinned := s.pinned.erase b }

def logWrite (s : State n) (p : Fin n) (b : ℕ) : Option (State n) :=
  match s.pc p with
  | .op used =>
      if b ∉ s.held p then none
      else if s.lh.length ≥ LOGBLOCKS then some { s with panic := some .tooBig }
      else if s.outstanding < 1 then some { s with panic := some .outsideTrans }
      else if b ∈ s.lh then some { s with changed := Function.update s.changed b false }
      else some ({ s with
        lh := s.lh ++ [b]
        changed := Function.update s.changed b false }.bpin b |>.goto p (.op (used + 1)))
  | _ => none

def brelse (s : State n) (p : Fin n) (b : ℕ) : Option (State n) :=
  if b ∈ s.held p then
    some { s with
      refcnt := Function.update s.refcnt b (s.refcnt b - 1)
      held := Function.update s.held p ((s.held p).erase b) }
  else none

def endOp (s : State n) (p : Fin n) : Option (State n) :=
  match s.pc p with
  | .op _ =>
      if s.committing then some { s with panic := some .committing }
      else if s.outstanding - 1 = 0 then
        some ({ s with outstanding := s.outstanding - 1, committing := true }.goto p
          (.commit (if s.lh.length > 0 then .writeLog 0 else .finish)))
      else some ({ s with outstanding := s.outstanding - 1 }.goto p .user)
  | _ => none

/-- A turn of the two loops reads a block of the log and its home, and the end of one the header. -/
def entryBlocks (start : ℕ) (s : State n) (tail : ℕ) : List ℕ :=
  match s.lh[tail]? with
  | some home => [start + tail + 1, home]
  | none => [start]

def blocks (start : ℕ) (s : State n) (p : Fin n) : List ℕ :=
  match s.pc p with
  | .commit (.writeLog tail) | .commit (.installTrans tail) => s.entryBlocks start tail
  | _ => []

/-- A step of `commit`; the header that ends the loop of `write_log` is the commit point. -/
def commit (start : ℕ) (s : State n) (p : Fin n) : Option (State n) :=
  match s.pc p with
  | .commit (.writeLog tail) =>
      match s.lh[tail]? with
      | some home =>
          if s.unlocked (start + tail + 1) ∧ s.unlocked home then
            some (({ s with cache := Function.update s.cache home (some (s.view home)) }.bwrite
              (start + tail + 1) (s.view home)).goto p (.commit (.writeLog (tail + 1))))
          else none
      | none =>
          if s.unlocked start then
            some (({ s with committed := s.view }.bwrite start (writeHead s.lh (s.view start))).goto p
              (.commit (.installTrans 0)))
          else none
  | .commit (.installTrans tail) =>
      match s.lh[tail]? with
      | some home =>
          if s.unlocked (start + tail + 1) ∧ s.unlocked home then
            some ((({ s with
              cache := Function.update s.cache (start + tail + 1)
                (some (s.view (start + tail + 1))) }.bwrite home
              (s.view (start + tail + 1))).bunpin home).goto p (.commit (.installTrans (tail + 1))))
          else none
      | none =>
          if s.unlocked start then
            some (({ s with lh := [] }.bwrite start (writeHead [] (s.view start))).goto p
              (.commit .finish))
          else none
  | .commit .finish => some ({ s with committing := false }.goto p .user)
  | _ => none

def evict (s : State n) (b : ℕ) : Option (State n) :=
  if s.refcnt b = 0 then some { s with cache := Function.update s.cache b none } else none

/-- A step of `recover_from_log`. All buffers are free then. -/
def recover (start : ℕ) (s : State n) : Option (State n) :=
  match s.mode with
  | .initlog =>
      some { s with
        cache := Function.update s.cache start (some (s.view start))
        lh := readHead (s.view start)
        mode := .recovering 0 }
  | .recovering tail =>
      match s.lh[tail]? with
      | some home =>
          some (({ s with
            cache := Function.update s.cache (start + tail + 1)
              (some (s.view (start + tail + 1))) }.bwrite home
            (s.view (start + tail + 1))).enter (.recovering (tail + 1)))
      | none =>
          some (({ s with lh := [] }.bwrite start (writeHead [] (s.view start))).enter .running)
  | .running => none

/-- The machine starts again with what is on the disk. -/
def crash (s : State n) : State n :=
  { s with
    cache := fun _ => none
    refcnt := fun _ => 0
    held := fun _ => []
    lh := []
    outstanding := 0
    committing := false
    pc := fun _ => .user
    mode := .initlog
    panic := none
    changed := fun _ => false
    pinned := [] }

def running (s : State n) : Bool := decide (s.mode = .running ∧ s.panic = none)

end State

/-- Nothing but a restart follows a panic. -/
def step (start : ℕ) (s : State n) : Label n → Option (State n)
  | .beginOp p => if s.running then s.beginOp p else none
  | .bread p b =>
      if s.running then if s.lacks [b] then some s.exhaust else s.bread p b else none
  | .modify p b data => if s.running then s.modify p b data else none
  | .logWrite p b => if s.running then s.logWrite p b else none
  | .brelse p b => if s.running then s.brelse p b else none
  | .endOp p => if s.running then s.endOp p else none
  | .commit p =>
      if s.running then
        if s.lacks (s.blocks start p) then some s.exhaust else s.commit start p
      else none
  | .evict b => if s.running then s.evict b else none
  | .recover => s.recover start
  | .crash => some s.crash

/-- A disk of `mkfs`: the log is empty. -/
structure Formatted (start : ℕ) (s : State n) : Prop where
  empty : s.disk start 0 = 0
  committed : s.committed = s.disk
  off : s = s.crash

def system (n start : ℕ) : System (State n) (Label n) where
  init := Formatted start
  step s label t := step start s label = some t

def Home (start b : ℕ) : Prop := b < start ∨ start + LOGBLOCKS < b

instance (start b : ℕ) : Decidable (Home start b) := inferInstanceAs (Decidable (_ ∨ _))

def Pc.used : Pc → ℕ
  | .op used => used
  | _ => 0

/-- How the file system uses the log: its blocks are outside, what it changes is logged before it
is released, and no call adds more than `MAXOPBLOCKS` blocks to the log. -/
def Disciplined (start : ℕ) (s : State n) : Label n → Prop
  | .bread _ b => Home start b
  | .logWrite p _ => (s.pc p).used < MAXOPBLOCKS
  | .brelse _ b => s.changed b = false
  | .endOp p => s.held p = []
  | _ => True

instance (start : ℕ) (s : State n) (label : Label n) : Decidable (Disciplined start s label) :=
  match label with
  | .bread _ b => inferInstanceAs (Decidable (Home start b))
  | .logWrite _ _ => inferInstanceAs (Decidable (_ < _))
  | .brelse _ _ => inferInstanceAs (Decidable (_ = _))
  | .endOp _ => inferInstanceAs (Decidable (_ = _))
  | .beginOp _ | .modify _ _ _ | .commit _ | .evict _ | .recover | .crash =>
      inferInstanceAs (Decidable True)

def disciplined (n start : ℕ) : System (State n) (Label n) :=
  (system n start).restrict (Disciplined start)

end OsLab.Kernel.Log
