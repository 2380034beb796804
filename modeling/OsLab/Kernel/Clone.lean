import OsLab.Kernel.PagingTree
import OsLab.Kernel.Memory
import OsLab.Kernel.Signal
import OsLab.Library.CString

/-!
`kclone` with all it calls, from `allocproc` down to the entries of the page tables. The call is
one step: the slot is locked, the parent's table is its own, and what other CPUs do to the
allocator meanwhile is in `Machine.denied`.
-/

namespace OsLab.Kernel.Clone

open OsLab.Library OsLab.Library.CString OsLab.Kernel.Paging
open OsLab.Kernel.Memory (trampoline)
open OsLab.Kernel.Signal (NSIG SIG_DFL)

def NOFILE : ℕ := 16

/-- `struct context`; the callee-saved registers are one value. -/
structure Context where
  ra : ℕ
  sp : ℕ
  saved : ℕ
  deriving DecidableEq

/-- A slot of the process table. Open files and inodes are places in the tables of `file.c` and
`fs.c`, and a null pointer is none. -/
structure Proc (n : ℕ) where
  state : Procstate
  chan : ℕ
  killed : Int
  xstate : Int
  pid : Int
  parent : Option (Fin n)
  kstack : ℕ
  sz : ℕ
  pagetable : Option Frame
  trapframe : Option Frame
  context : Context
  ofile : Fin NOFILE → Option ℕ
  cwd : Option ℕ
  name : Bytes
  pendingSignals : UInt64
  signalHandlers : Fin NSIG → UInt64
  sigTf : Option Frame
  isHandlingSignal : Bool
  isThread : Bool
  memParent : Option (Fin n)

/-- The reference counts are those of open files and of inodes; `forkret` is the address of the
function. -/
structure State (n : ℕ) where
  machine : Machine
  procs : Fin n → Proc n
  nextpid : Int
  fileRef : ℕ → ℕ
  inodeRef : ℕ → ℕ
  forkret : ℕ

variable {n : ℕ}

/-! ### Making and freeing a slot -/

def procPagetable (m : Machine) (trapframe : Frame) : Option (Machine × Option Frame) :=
  match uvmcreate m with
  | (m, none) => some (m, none)
  | (m, some pagetable) =>
      match mappages m pagetable trampolinePage trampoline (PTE_R ||| PTE_X) with
      | none => none
      | some (m, false) => (uvmfree m pagetable 0).map fun m => (m, none)
      | some (m, true) =>
          match mappages m pagetable trapframePage trapframe (PTE_R ||| PTE_W) with
          | none => none
          | some (m, false) =>
              ((uvmunmap false pagetable m trampolinePage 1).bind fun m =>
                uvmfree m pagetable 0).map fun m => (m, none)
          | some (m, true) => some (m, some pagetable)

def procFreepagetable (m : Machine) (pagetable : Frame) (sz : ℕ) : Option Machine :=
  (uvmunmap false pagetable m trampolinePage 1).bind fun m =>
    (uvmunmap false pagetable m trapframePage 1).bind fun m => uvmfree m pagetable sz

def Proc.cleared (p : Proc n) : Proc n :=
  { p with
    trapframe := none
    sigTf := none
    pagetable := none
    sz := 0
    pid := 0
    parent := none
    name := 0 :: p.name.tail
    chan := 0
    killed := 0
    xstate := 0
    isThread := false
    memParent := none
    state := .UNUSED }

def freeproc (m : Machine) (p : Proc n) : Option (Machine × Proc n) :=
  let m := (m.kfreeIf p.trapframe).kfreeIf p.sigTf
  match p.pagetable with
  | none => some (m, p.cleared)
  | some pagetable =>
      if p.isThread then
        ((uvmunmap false pagetable m trampolinePage 1).bind fun m =>
          (uvmunmap false pagetable m trapframePage 1).bind fun m =>
            (uvmunmap false pagetable m 0 (pages p.sz)).bind fun m =>
              freewalk 3 m pagetable).map fun m => (m, p.cleared)
      else (procFreepagetable m pagetable p.sz).map fun m => (m, p.cleared)

/-- The end of `allocproc`. -/
def Proc.prepared (p : Proc n) (forkret : ℕ) : Proc n :=
  { p with
    signalHandlers := fun _ => SIG_DFL
    pendingSignals := 0
    isHandlingSignal := false
    isThread := false
    memParent := none
    context := ⟨forkret, p.kstack + PGSIZE, 0⟩ }

namespace State

def setProc (s : State n) (m : Machine) (q : Fin n) (p : Proc n) : State n :=
  { s with machine := m, procs := Function.update s.procs q p }

def findUnused (s : State n) : Option (Fin n) :=
  (List.finRange n).find? fun q => (s.procs q).state = .UNUSED

def giveUp (s : State n) (np : Fin n) (m : Machine) (p : Proc n) : Option (State n × Option (Fin n)) :=
  (freeproc m p).map fun freed => (s.setProc freed.1 np freed.2, none)

def allocproc (s : State n) : Option (State n × Option (Fin n)) :=
  match s.findUnused with
  | none => some (s, none)
  | some np =>
      let p := { s.procs np with pid := s.nextpid, state := .USED }
      let s := { s with nextpid := s.nextpid + 1 }
      match s.machine.kalloc with
      | (m, none) => s.giveUp np m { p with trapframe := none }
      | (m, some trapframe) =>
          let p := { p with trapframe := some trapframe }
          match m.kalloc with
          | (m, none) => s.giveUp np m { p with sigTf := none }
          | (m, some sigTf) =>
              let p := { p with sigTf := some sigTf }
              match procPagetable m trapframe with
              | none => none
              | some (m, none) => s.giveUp np m { p with pagetable := none }
              | some (m, some pagetable) =>
                  let p := { p with pagetable := some pagetable }
                  some (s.setProc m np (p.prepared s.forkret), some np)

end State

/-! ### Sharing -/

/-- A file without references is a panic. -/
def filedup (ref : ℕ → ℕ) (f : ℕ) : Option (ℕ → ℕ) :=
  if ref f < 1 then none else some (Function.update ref f (ref f + 1))

def idup (ref : ℕ → ℕ) (ip : ℕ) : ℕ → ℕ := Function.update ref ip (ref ip + 1)

def dupFiles (ofile : Fin NOFILE → Option ℕ) (ref : ℕ → ℕ) : Option (ℕ → ℕ) :=
  (List.finRange NOFILE).foldlM (fun ref fd =>
    match ofile fd with
    | none => some ref
    | some f => filedup ref f) ref

/-- The words of `struct trapframe`, and the places of three of them. -/
def trapframeWords : ℕ := 36

def epc : Fin 512 := ⟨3, by decide⟩

def sp : Fin 512 := ⟨6, by decide⟩

def a0 : Fin 512 := ⟨14, by decide⟩

def shareTrapframe (m : Machine) (dst src : Frame) (fcn stack arg : ℕ) : Machine :=
  (((m.copyWords dst src trapframeWords).store dst epc (.ofNat fcn)).store dst sp
    (.ofNat (stack + PGSIZE))).store dst a0 (.ofNat arg)

namespace State

/-- `kclone` after `uvmshare`; a null pointer that is followed is a fault. -/
def startThread (s : State n) (p np : Fin n) (fcn stack arg : ℕ) :
    Option (State n × Option Int) :=
  match (s.procs p).trapframe, (s.procs np).trapframe, (s.procs p).cwd,
      dupFiles (s.procs p).ofile s.fileRef with
  | some src, some dst, some cwd, some fileRef =>
      let child := { s.procs np with
        sz := (s.procs p).sz
        isThread := true
        memParent := some p
        ofile := fun fd => ((s.procs p).ofile fd).or ((s.procs np).ofile fd)
        cwd := some cwd
        name := safestrcpy 16 (s.procs np).name (s.procs p).name
        parent := some p
        state := .RUNNABLE }
      some ({ s.setProc (shareTrapframe s.machine dst src fcn stack arg) np child with
        fileRef := fileRef
        inodeRef := idup s.inodeRef cwd }, some child.pid)
  | _, _, _, _ => none

/-- The result is a pid, or none for -1. -/
def kclone (s : State n) (p : Fin n) (fcn stack arg : ℕ) : Option (State n × Option Int) :=
  match s.allocproc with
  | none => none
  | some (s, none) => some (s, none)
  | some (s, some np) =>
      match (s.procs p).pagetable, (s.procs np).pagetable with
      | some old, some new =>
          match uvmshare s.machine old new (s.procs p).sz with
          | none => none
          | some (m, false) =>
              (freeproc m (s.procs np)).map fun freed => (s.setProc freed.1 np freed.2, none)
          | some (m, true) => { s with machine := m }.startThread p np fcn stack arg
      | _, _ => none

end State

end OsLab.Kernel.Clone
