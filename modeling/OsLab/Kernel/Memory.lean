import OsLab.Kernel.PageTable
import OsLab.Kernel.Proc
import OsLab.Library.System
import Mathlib.Data.List.FinRange

/-!
The memory of processes and threads: `kfork`, `kclone`, `growproc`, `sys_sbrk`,
`vmfault`, `kexec`, `kexit` and the reaping by `kwait` and `kjoin`, with `allocproc`
and `freeproc`. A page table is written only by the process it belongs to, by the one
that fills it or by the one that frees it, and the allocator is locked, so a call is
one step.
-/

namespace OsLab.Kernel.Memory

open OsLab.Library

variable {n : ℕ}

structure Proc (n : ℕ) where
  state : Procstate
  pid : Int
  parent : Option (Fin n)
  isThread : Bool
  memParent : Option (Fin n)
  sz : ℕ
  trapframe : Option Frame
  sigTf : Option Frame
  pagetable : Option PageTable

/-- `creatorPid` and `split` record, for a thread, the pid of the process that cloned it, and
whether either of the two has replaced its memory by `kexec` since. -/
structure State (n : ℕ) where
  kmem : Kmem
  procs : Fin n → Proc n
  nextpid : Int
  creatorPid : Fin n → Int
  split : Fin n → Bool

/-- The page of `trampoline.S`, part of the kernel's own text. -/
def trampoline : Frame := 0x80007

def procFreepagetable (s : Space) (sz : ℕ) : Option Kmem :=
  ((s.uvmunmap false trampolinePage 1).uvmunmap false trapframePage 1).uvmfree sz

/-- A table with the trampoline and the trapframe, or none when memory runs out. -/
def procPagetable (kmem : Kmem) (trapframe : Frame) : Option (Kmem × Option PageTable) :=
  match kmem.kalloc with
  | none => some (kmem, none)
  | some (root, kmem) =>
      match Space.mappages ⟨kmem, ⟨root, [], ∅⟩⟩ trampolinePage
          ⟨trampoline, true, false, true, false⟩ with
      | none => none
      | some (s, false) => (s.uvmfree 0).map fun kmem => (kmem, none)
      | some (s, true) =>
          match s.mappages trapframePage ⟨trapframe, true, true, false, false⟩ with
          | none => none
          | some (s, false) =>
              ((s.uvmunmap false trampolinePage 1).uvmfree 0).map fun kmem => (kmem, none)
          | some (s, true) => some (s.kmem, some s.table)

def Proc.unused : Proc n where
  state := .UNUSED
  pid := 0
  parent := none
  isThread := false
  memParent := none
  sz := 0
  trapframe := none
  sigTf := none
  pagetable := none

/-- The frames of a thread are not given back. -/
def freeproc (kmem : Kmem) (p : Proc n) : Option (Kmem × Proc n) :=
  let kmem := (kmem.kfreeIf p.trapframe).kfreeIf p.sigTf
  match p.pagetable with
  | none => some (kmem, .unused)
  | some table =>
      if p.isThread then
        ((((Space.mk kmem table).uvmunmap false trampolinePage 1).uvmunmap false trapframePage 1
          ).uvmunmap false 0 (pages p.sz)).freewalk.map fun kmem => (kmem, .unused)
      else (procFreepagetable ⟨kmem, table⟩ p.sz).map fun kmem => (kmem, .unused)

/-- `allocproc` on the slot it has found; false when memory runs out. -/
def allocproc (kmem : Kmem) (p : Proc n) (pid : Int) : Option (Kmem × Proc n × Bool) :=
  let fail := fun (kmem : Kmem) (p : Proc n) =>
    (freeproc kmem p).map fun freed => (freed.1, freed.2, false)
  let p := { p with pid := pid, state := .USED }
  match kmem.kalloc with
  | none => fail kmem p
  | some (trapframe, kmem) =>
      let p := { p with trapframe := some trapframe }
      match kmem.kalloc with
      | none => fail kmem p
      | some (sigTf, kmem) =>
          let p := { p with sigTf := some sigTf }
          match procPagetable kmem trapframe with
          | none => none
          | some (kmem, none) => fail kmem p
          | some (kmem, some table) =>
              some (kmem, { p with pagetable := some table, isThread := false, memParent := none },
                true)

namespace State

def setProc (s : State n) (kmem : Kmem) (q : Fin n) (proc : Proc n) : State n :=
  { s with kmem := kmem, procs := Function.update s.procs q proc }

def findUnused (s : State n) : Option (Fin n) :=
  (List.finRange n).find? fun q => (s.procs q).state = .UNUSED

/-- What `kfork` and `kclone` do after copying or sharing memory; `finish` is what they set in
the new process. -/
def spawn (s : State n) (p : Fin n)
    (copy : PageTable → Space → ℕ → Option (Space × Bool)) (finish : Proc n → Proc n)
    (record : State n → Fin n → State n) : Option (State n) :=
  match s.findUnused with
  | none => some s
  | some np =>
      match allocproc s.kmem (s.procs np) s.nextpid with
      | none => none
      | some (kmem, child, false) =>
          some { s.setProc kmem np child with nextpid := s.nextpid + 1 }
      | some (kmem, child, true) =>
          match (s.procs p).pagetable, child.pagetable with
          | some old, some new =>
              match copy old ⟨kmem, new⟩ (s.procs p).sz with
              | none => none
              | some (space, false) =>
                  (freeproc space.kmem { child with pagetable := some space.table }).map
                    fun freed =>
                      { s.setProc freed.1 np freed.2 with nextpid := s.nextpid + 1 }
              | some (space, true) =>
                  let child := { child with
                    pagetable := some space.table
                    sz := (s.procs p).sz
                    parent := some p
                    state := .RUNNABLE }
                  some (record { s.setProc space.kmem np (finish child) with
                    nextpid := s.nextpid + 1 } np)
          | _, _ => none

def kfork (s : State n) (p : Fin n) : Option (State n) :=
  s.spawn p Space.uvmcopy id fun s _ => s

def kclone (s : State n) (p : Fin n) : Option (State n) :=
  s.spawn p Space.uvmshare (fun child => { child with isThread := true, memParent := some p })
    fun s np => { s with
      creatorPid := Function.update s.creatorPid np (s.procs p).pid
      split := Function.update s.split np false }

def wrap64 (x : Int) : ℕ := (x % 2 ^ 64).toNat

def setSpace (s : State n) (p : Fin n) (space : Space) (sz : ℕ) : State n :=
  s.setProc space.kmem p { s.procs p with pagetable := some space.table, sz := sz }

def growproc (s : State n) (p : Fin n) (count : Int) : Option (State n) :=
  match (s.procs p).pagetable with
  | none => none
  | some table =>
      let sz := (s.procs p).sz
      let newsz := wrap64 (sz + count)
      if count > 0 then
        if newsz > TRAPFRAME then some s
        else
          match Space.uvmalloc ⟨s.kmem, table⟩ sz newsz true false with
          | none => none
          | some (space, 0) => some (s.setSpace p space sz)
          | some (space, grown) => some (s.setSpace p space grown)
      else if count < 0 then
        let (space, shrunk) := Space.uvmdealloc ⟨s.kmem, table⟩ sz newsz
        some (s.setSpace p space shrunk)
      else some s

/-- `sys_sbrk` with a lazy `n ≥ 0`. -/
def sbrkLazy (s : State n) (p : Fin n) (count : ℕ) : State n :=
  if (s.procs p).sz + count > TRAPFRAME then s
  else s.setProc s.kmem p { s.procs p with sz := (s.procs p).sz + count }

def vmfault (s : State n) (p : Fin n) (va : ℕ) : Option (State n) :=
  match (s.procs p).pagetable with
  | none => none
  | some table =>
      (Space.vmfault ⟨s.kmem, table⟩ (s.procs p).sz va).map
        fun faulted => s.setSpace p faulted.1 (s.procs p).sz

end State

/-! ### kexec -/

def USERSTACK : ℕ := 1

/-- A program header of type `ELF_PROG_LOAD`, and whether `loadseg` reads its bytes. -/
structure Segment where
  vaddr : ℕ
  memsz : ℕ
  filesz : ℕ
  flags : ℕ
  loads : Bool

/-- The file as `kexec` finds it: its header, the program headers up to the first that cannot be
read, whether all could be, and whether the arguments fit on the stack. -/
structure Image where
  elf : Bool
  segments : List Segment
  complete : Bool
  argsFit : Bool

/-- The loop over the program headers, with the size reached and whether it came to its end. -/
def loadSegments (s : Space) (sz : ℕ) : List Segment → Option (Space × ℕ × Bool)
  | [] => some (s, sz, true)
  | ph :: rest =>
      if ph.memsz < ph.filesz ∨ ph.vaddr + ph.memsz ≥ 2 ^ 64 ∨ ph.vaddr % PGSIZE ≠ 0 then
        some (s, sz, false)
      else
        match s.uvmalloc sz (ph.vaddr + ph.memsz) (ph.flags.testBit 1) (ph.flags.testBit 0) with
        | none => none
        | some (s, 0) => some (s, sz, false)
        | some (s, sz1) => if ph.loads then loadSegments s sz1 rest else some (s, sz1, false)

/-- `kexec` up to its commit: the new table and size, or none on its way out through `bad`. -/
def loadImage (kmem : Kmem) (trapframe : Frame) (image : Image) :
    Option (Kmem × Option (PageTable × ℕ)) :=
  let bad := fun (s : Space) (sz : ℕ) =>
    (procFreepagetable s sz).map fun kmem => (kmem, (none : Option (PageTable × ℕ)))
  if image.elf then
    match procPagetable kmem trapframe with
    | none => none
    | some (kmem, none) => some (kmem, none)
    | some (kmem, some table) =>
        match loadSegments ⟨kmem, table⟩ 0 image.segments with
        | none => none
        | some (s, sz, false) => bad s sz
        | some (s, sz, true) =>
            if image.complete then
              let sz := pgRoundUp sz
              match s.uvmalloc sz (sz + (USERSTACK + 1) * PGSIZE) true false with
              | none => none
              | some (s, 0) => bad s sz
              | some (s, sz) =>
                  match s.uvmclear ((sz - (USERSTACK + 1) * PGSIZE) / PGSIZE) with
                  | none => none
                  | some s => if image.argsFit then some (s.kmem, some (s.table, sz)) else bad s sz
            else bad s sz
  else some (kmem, none)

namespace State

/-- A thread and its creator part when one of them replaces its memory. -/
def parts (s : State n) (p q : Fin n) : Bool :=
  q = p || (s.procs q).memParent = some p && s.creatorPid q = (s.procs p).pid

def kexec (s : State n) (p : Fin n) (image : Image) : Option (State n) :=
  match (s.procs p).pagetable, (s.procs p).trapframe with
  | some old, some trapframe =>
      match loadImage s.kmem trapframe image with
      | none => none
      | some (kmem, none) => some { s with kmem := kmem }
      | some (kmem, some (table, sz)) =>
          (procFreepagetable ⟨kmem, old⟩ (s.procs p).sz).map fun kmem =>
            { s.setSpace p ⟨kmem, table⟩ sz with split := fun q => s.split q || s.parts p q }
  | _, _ => none

/-! ### The end of a process -/

def exited (s : State n) (initproc p : Fin n) : State n :=
  { s with procs := fun q =>
    { s.procs q with
      parent := if (s.procs q).parent = some p then some initproc else (s.procs q).parent
      state := if q = p then .ZOMBIE else (s.procs q).state } }

def kexit (s : State n) (initproc p : Fin n) : Option (State n) :=
  if p = initproc then none else some (s.exited initproc p)

/-- The ZOMBIE child that `kwait`, or `kjoin` of a tid, comes to first. -/
def findZombie (s : State n) (p : Fin n) (tid : Option Int) : Option (Fin n) :=
  (List.finRange n).find? fun pp => (s.procs pp).parent = some p &&
    tid.all (fun tid => (s.procs pp).pid = tid) && (s.procs pp).state = .ZOMBIE

/-- `kwait`, or `kjoin` of a tid. Without such a child the call waits or fails. -/
def reap (s : State n) (p : Fin n) (tid : Option Int) : Option (State n) :=
  match s.findZombie p tid with
  | none => some s
  | some pp => (freeproc s.kmem (s.procs pp)).map fun freed => s.setProc freed.1 pp freed.2

end State

inductive Op
  | fork
  | clone
  | grow (count : Int)
  | sbrk (count : ℕ)
  | fault (va : ℕ)
  | exec (image : Image)
  | exit
  | wait
  | join (tid : Int)

def State.run (s : State n) (initproc p : Fin n) : Op → Option (State n)
  | .fork => s.kfork p
  | .clone => s.kclone p
  | .grow count => s.growproc p count
  | .sbrk count => some (s.sbrkLazy p count)
  | .fault va => s.vmfault p va
  | .exec image => s.kexec p image
  | .exit => s.kexit initproc p
  | .wait => s.reap p none
  | .join tid => s.reap p (some tid)

/-- A process that has been started and has not exited makes its next call. -/
def step (initproc : Fin n) (s : State n) (label : Fin n × Op) : Option (State n) :=
  if (s.procs label.1).state = .RUNNABLE then s.run initproc label.1 label.2 else none

/-- `kinit` and `userinit`, in a machine with these pages. -/
def boot (initproc : Fin n) (frames : List Frame) : Option (State n) :=
  match allocproc (Kmem.empty.kfreeAll frames) .unused 1 with
  | some (kmem, proc, true) =>
      some {
        kmem := kmem
        procs := Function.update (fun _ => .unused) initproc { proc with state := .RUNNABLE }
        nextpid := 2
        creatorPid := fun _ => 0
        split := fun _ => false }
  | _ => none

def system (initproc : Fin n) : System (State n) (Fin n × Op) where
  init s := ∃ frames : List Frame, frames.Nodup ∧ boot initproc frames = some s
  step before label after := step initproc before label = some after

end OsLab.Kernel.Memory
