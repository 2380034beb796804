import OsLab.Library.LinkedRing
import OsLab.Library.System
import Mathlib.Data.List.FinRange

/-!
The buffer cache of `bio.c`. Processes read, change, write and release buffers; a step is a
section under `bcache.lock`, an operation on a buffer's sleep lock, or a transfer of one block
between a buffer and the disk.
-/

namespace OsLab.Kernel.Buffers

open OsLab.Library

/-- `disk`, which belongs to the driver, and the sleep lock are left out here. -/
structure Buf (D : Type) where
  valid : Bool
  dev : ℕ
  blockno : ℕ
  refcnt : ℕ
  data : D

/-- The buffer as `bget` gives it to another block. -/
def Buf.recycle {D : Type} (buf : Buf D) (dev blockno : ℕ) : Buf D :=
  { buf with dev := dev, blockno := blockno, valid := false, refcnt := 1 }

/-- Where a process is between the steps of `bread` and `brelse`. -/
inductive Pc (n : ℕ)
  | user
  | acquiresleep (b : Fin n)
  | load (b : Fin n)
  | release (b : Fin n)
  deriving DecidableEq

inductive Panic
  | noBuffers
  | bwrite
  | brelse
  deriving DecidableEq

/-- `none` is `bcache.head`. `lock` has the holders of the sleep locks, `held` the buffers that
`bread` has returned to a process and `brelse` has not taken back. `pins` counts the calls of
`bpin` without a `bunpin` yet, and `stamp` is when `brelse` last gave up the last reference to a
buffer. -/
structure State (n m : ℕ) (D : Type) where
  buf : Fin n → Buf D
  links : Links (Option (Fin n))
  lock : Fin n → Option (Fin m)
  pc : Fin m → Pc n
  held : Fin m → List (Fin n)
  disk : ℕ → ℕ → D
  panic : Option Panic
  pins : Fin n → ℕ
  stamp : Fin n → ℕ
  clock : ℕ

inductive Label (n m : ℕ) (D : Type)
  | bget (p : Fin m) (dev blockno : ℕ)
  | acquiresleep (p : Fin m)
  | load (p : Fin m)
  | modify (p : Fin m) (b : Fin n) (data : D)
  | bwrite (p : Fin m) (b : Fin n)
  | brelse (p : Fin m) (b : Fin n)
  | unref (p : Fin m)
  | bpin (p : Fin m) (b : Fin n)
  | bunpin (p : Fin m) (b : Fin n)

variable {n m : ℕ} {D : Type}

/-- The list that `binit` makes: every buffer is put in at the front. -/
def binit (n : ℕ) : Links (Option (Fin n)) :=
  (List.finRange n).foldl (fun links b => links.insert none (some b))
    ⟨fun _ => none, fun _ => none⟩

namespace State

def Clean (s : State n m D) (b : Fin n) : Prop :=
  (s.buf b).data = s.disk (s.buf b).dev (s.buf b).blockno

def goto (s : State n m D) (p : Fin m) (pc : Pc n) : State n m D :=
  { s with pc := Function.update s.pc p pc }

def set (s : State n m D) (b : Fin n) (buf : Buf D) : State n m D :=
  { s with buf := Function.update s.buf b buf }

def names (s : State n m D) (dev blockno : ℕ) (b : Fin n) : Bool :=
  (s.buf b).dev = dev && (s.buf b).blockno = blockno

def cached (s : State n m D) (dev blockno : ℕ) : Option (Fin n) :=
  (Links.search s.links.next none (fun node => node.any (s.names dev blockno)) (n + 1)
    (s.links.next none)).join

/-- The search for a buffer to recycle, from the back of the list. -/
def unused (s : State n m D) : Option (Fin n) :=
  (Links.search s.links.prev none (fun node => node.any fun b => (s.buf b).refcnt = 0) (n + 1)
    (s.links.prev none)).join

/-- The section of `bget` under `bcache.lock`. -/
def bget (s : State n m D) (p : Fin m) (dev blockno : ℕ) : State n m D :=
  match s.cached dev blockno with
  | some b =>
      (s.set b { s.buf b with refcnt := (s.buf b).refcnt + 1 }).goto p (.acquiresleep b)
  | none =>
      match s.unused with
      | some b =>
          (s.set b ((s.buf b).recycle dev blockno)).goto
            p (.acquiresleep b)
      | none => { s with panic := some .noBuffers }

def load (s : State n m D) (p : Fin m) (b : Fin n) : State n m D :=
  let t := if (s.buf b).valid then s else
    s.set b { s.buf b with data := s.disk (s.buf b).dev (s.buf b).blockno, valid := true }
  { t with
    pc := Function.update s.pc p .user
    held := Function.update s.held p (b :: s.held p) }

def bwrite (s : State n m D) (p : Fin m) (b : Fin n) : State n m D :=
  if s.lock b = some p then
    { s with
      disk := Function.update s.disk (s.buf b).dev
        (Function.update (s.disk (s.buf b).dev) (s.buf b).blockno (s.buf b).data) }
  else { s with panic := some .bwrite }

def brelse (s : State n m D) (p : Fin m) (b : Fin n) : State n m D :=
  if s.lock b = some p then
    { s with
      pc := Function.update s.pc p (.release b)
      lock := Function.update s.lock b none
      held := Function.update s.held p ((s.held p).erase b) }
  else { s with panic := some .brelse }

/-- The section of `brelse` under `bcache.lock`. -/
def unref (s : State n m D) (p : Fin m) (b : Fin n) : State n m D :=
  let t := (s.set b { s.buf b with refcnt := (s.buf b).refcnt - 1 }).goto p .user
  if (t.buf b).refcnt = 0 then
    { t with links := (s.links.unlink (some b)).insert none (some b) }
  else t

/-- The record of a release, whatever `brelse` does with the list. -/
def mark (s : State n m D) (b : Fin n) : State n m D :=
  if (s.buf b).refcnt = 0 then
    { s with stamp := Function.update s.stamp b (s.clock + 1), clock := s.clock + 1 }
  else s

def repin (s : State n m D) (b : Fin n) (refcnt pins : ℕ) : State n m D :=
  { s with
    buf := Function.update s.buf b { s.buf b with refcnt := refcnt }
    pins := Function.update s.pins b pins }

def bpin (s : State n m D) (b : Fin n) : State n m D :=
  s.repin b ((s.buf b).refcnt + 1) (s.pins b + 1)

def bunpin (s : State n m D) (b : Fin n) : State n m D :=
  s.repin b ((s.buf b).refcnt - 1) (s.pins b - 1)

def step (s : State n m D) (label : Label n m D) : Option (State n m D) :=
  if s.panic ≠ none then none
  else match label with
  | .bget p dev blockno => if s.pc p = .user then some (s.bget p dev blockno) else none
  | .acquiresleep p =>
      match s.pc p with
      | .acquiresleep b =>
          if s.lock b = none then
            some { s with
              pc := Function.update s.pc p (.load b)
              lock := Function.update s.lock b (some p) }
          else none
      | _ => none
  | .load p =>
      match s.pc p with
      | .load b => some (s.load p b)
      | _ => none
  | .modify p b data =>
      if s.pc p = .user then some (s.set b { s.buf b with data := data }) else none
  | .bwrite p b => if s.pc p = .user then some (s.bwrite p b) else none
  | .brelse p b => if s.pc p = .user then some (s.brelse p b) else none
  | .unref p =>
      match s.pc p with
      | .release b => some ((s.unref p b).mark b)
      | _ => none
  | .bpin p b => if s.pc p = .user then some (s.bpin b) else none
  | .bunpin p b => if s.pc p = .user then some (s.bunpin b) else none

end State

/-- How the callers use the cache: blocks are on a device other than 0, and a buffer is used while
it is held. -/
def Uses (s : State n m D) : Label n m D → Prop
  | .bget _ dev _ => dev ≠ 0
  | .modify p b _ | .bwrite p b | .brelse p b | .bpin p b => b ∈ s.held p
  | .bunpin p b => b ∈ s.held p ∧ s.pins b ≠ 0
  | _ => True

/-- A buffer is written before it is released, unless it is pinned. -/
def Saves (s : State n m D) : Label n m D → Prop
  | .brelse _ b => s.Clean b ∨ s.pins b ≠ 0
  | _ => True

structure Boot (s : State n m D) : Prop where
  buf : ∀ b, (s.buf b).valid = false ∧ (s.buf b).dev = 0 ∧ (s.buf b).refcnt = 0
  links : s.links = binit n
  lock : ∀ b, s.lock b = none
  pc : ∀ p, s.pc p = .user ∧ s.held p = []
  panic : s.panic = none
  pins : ∀ b, s.pins b = 0
  stamp : ∀ b, s.stamp b = b
  clock : s.clock = n

def system (n m : ℕ) (D : Type) : System (State n m D) (Label n m D) where
  init := Boot
  step s label t := s.step label = some t

def used (n m : ℕ) (D : Type) : System (State n m D) (Label n m D) :=
  (system n m D).restrict Uses

def disciplined (n m : ℕ) (D : Type) : System (State n m D) (Label n m D) :=
  (used n m D).restrict Saves

end OsLab.Kernel.Buffers
