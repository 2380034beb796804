import OsLab.Kernel.Inode
import OsLab.Library.System
import OsLab.Library.References

/-!
`sys_getcwd` of `syscall.c` beside `sys_unlink`, `sys_mkdir` and `sys_chdir` of `sysfile.c`
with the path walk of `namex`, one operation on an inode or on the log at a time. The
return values of the last three, and the copy of a path from or to user memory, are left
out. A wait in `begin_op` is the step that comes later.
-/

namespace OsLab.Kernel.Fs

open OsLab.Library

def ROOTINO : ℕ := 1

structure Path where
  absolute : Bool
  elements : List Name
  deriving DecidableEq, Repr

inductive Op
  | unlink
  | mkdir
  | chdir
  deriving DecidableEq, Repr

/-- `namex` is asked for the parent of the last element. -/
def Op.nameiparent : Op → Bool
  | .unlink | .mkdir => true
  | .chdir => false

inductive Tidy
  | unlock (i : ℕ)
  | put (i : ℕ)
  deriving DecidableEq, Repr

/-- The points of the four calls. `tidy` is a row of `iunlock`s and `iput`s on the way to another
point. -/
inductive Pc
  | user
  | getcwd
  | climb (cur : ℕ) (names : List Name)
  | climbLocked (cur : ℕ) (names : List Name)
  | lockParent (cur parent : ℕ) (names : List Name)
  | parentLocked (cur parent : ℕ) (names : List Name)
  | returned (path : Option (List Name))
  | beginOp (op : Op) (path : Path)
  | start (op : Op) (path : Path)
  | namex (op : Op) (ip : ℕ) (elements : List Name)
  | element (op : Op) (ip : ℕ) (name : Name) (rest : List Name)
  | unlink (dp : ℕ) (name : Name)
  | unlinkLocked (dp : ℕ) (name : Name)
  | unlinkTarget (dp off ip : ℕ)
  | unlinkBoth (dp off ip : ℕ)
  | unlinkDrop (ip : ℕ)
  | mkdir (dp : ℕ) (name : Name)
  | mkdirLocked (dp : ℕ) (name : Name)
  | mkdirExists (ip : ℕ)
  | mkdirNew (dp : ℕ) (name : Name) (ip : ℕ)
  | mkdirFill (dp : ℕ) (name : Name) (ip : ℕ)
  | chdir (ip : ℕ)
  | chdirLocked (ip : ℕ)
  | chdirEnd (ip : ℕ)
  | endOp
  | tidy (acts : List Tidy) (next : Pc)
  deriving DecidableEq, Repr

def Pc.resume (next : Pc) : List Tidy → Pc
  | [] => next
  | acts => .tidy acts next

inductive Panic
  | ilock
  | iunlock
  | noType
  | dirlookup
  | nlink
  | logWrite
  deriving DecidableEq, Repr

structure State (n : ℕ) where
  inode : ℕ → Inode n
  outstanding : ℕ
  cwd : Fin n → ℕ
  pc : Fin n → Pc
  panic : Option (Fin n × Panic)

variable {n : ℕ}

namespace State

def goto (state : State n) (p : Fin n) (next : Pc) : State n :=
  { state with pc := Function.update state.pc p next }

def setInode (state : State n) (i : ℕ) (ip : Inode n) : State n :=
  { state with inode := Function.update state.inode i ip }

def fail (state : State n) (p : Fin n) (panic : Panic) : State n :=
  { state with panic := some (p, panic) }

/-- A step that writes to the log, with the test of `log_write`. -/
def logged (state : State n) (p : Fin n) (after : State n) : State n :=
  if state.outstanding < 1 then state.fail p .logWrite else after

def ilock (state : State n) (p : Fin n) (i : ℕ) (next : Pc) : Option (State n) :=
  let ip := state.inode i
  if ip.ref < 1 then some (state.fail p .ilock)
  else if ip.lock ≠ none then none
  else if ip.valid = false ∧ ip.type = .free then some (state.fail p .noType)
  else some ((state.setInode i { ip with lock := some p, valid := true }).goto p next)

def tidy (state : State n) (p : Fin n) (next : Pc) : Tidy → State n
  | .unlock i =>
      let ip := state.inode i
      if ip.lock ≠ some p ∨ ip.ref < 1 then state.fail p .iunlock
      else (state.setInode i { ip with lock := none }).goto p next
  | .put i =>
      let ip := state.inode i
      let after := (state.setInode i ip.put).goto p next
      if ip.Frees then state.logged p after else after

end State

/-! ### `sys_getcwd` -/

/-- `names` are the components found so far, the topmost first. -/
def getcwd (state : State n) (p : Fin n) : Pc → Option (State n)
  | .getcwd =>
      let cur := state.cwd p
      some ((state.setInode cur (state.inode cur).dup).goto p (.climb cur []))
  | .climb cur names => state.ilock p cur (.climbLocked cur names)
  | .climbLocked cur names =>
      if (state.inode cur).type ≠ .dir then some (state.fail p .dirlookup)
      else
        match (state.inode cur).dirlookup dotdot with
        | none => some (state.goto p (.tidy [.unlock cur, .put cur] (.returned none)))
        | some (found, _) =>
            let parent := found.inum
            some ((state.setInode parent (state.inode parent).get).goto p
              (.tidy [.unlock cur] (.lockParent cur parent names)))
  | .lockParent cur parent names => state.ilock p parent (.parentLocked cur parent names)
  | .parentLocked cur parent names =>
      if cur = parent then
        some (state.goto p
          (.tidy [.unlock parent, .put parent, .put cur] (.returned (some names))))
      else
        match (state.inode parent).entries.find? fun de => de.inum ≠ 0 ∧ de.inum = cur with
        | none =>
            some (state.goto p (.tidy [.unlock parent, .put parent, .put cur] (.returned none)))
        | some de =>
            some (state.goto p
              (.tidy [.unlock parent, .put cur] (.climb parent (de.name :: names))))
  | .returned _ => some (state.goto p .user)
  | _ => none

/-! ### `namex` -/

def Op.found (ip : ℕ) (name : Name) : Op → Pc
  | .unlink => .unlink ip name
  | .mkdir => .mkdir ip name
  | .chdir => .chdir ip

def namex (state : State n) (p : Fin n) : Pc → Option (State n)
  | .beginOp op path =>
      some ({ state with outstanding := state.outstanding + 1 }.goto p (.start op path))
  | .start op path =>
      if path.absolute then
        some ((state.setInode ROOTINO (state.inode ROOTINO).get).goto p
          (.namex op ROOTINO path.elements))
      else
        let ip := state.cwd p
        some ((state.setInode ip (state.inode ip).dup).goto p (.namex op ip path.elements))
  | .namex op ip [] =>
      if op.nameiparent then some (state.goto p (.tidy [.put ip] .endOp))
      else some (state.goto p (op.found ip []))
  | .namex op ip (name :: rest) => state.ilock p ip (.element op ip name rest)
  | .element op ip name rest =>
      if (state.inode ip).type ≠ .dir then
        some (state.goto p (.tidy [.unlock ip, .put ip] .endOp))
      else if op.nameiparent = true ∧ rest = [] then
        some (state.goto p (.tidy [.unlock ip] (op.found ip name)))
      else
        match (state.inode ip).dirlookup name with
        | none => some (state.goto p (.tidy [.unlock ip, .put ip] .endOp))
        | some (found, _) =>
            let next := found.inum
            some ((state.setInode next (state.inode next).get).goto p
              (.tidy [.unlock ip, .put ip] (.namex op next rest)))
  | .endOp => some ({ state with outstanding := state.outstanding - 1 }.goto p .user)
  | _ => none

/-! ### `sys_unlink`, `sys_mkdir` and `sys_chdir` -/

def sysUnlink (state : State n) (p : Fin n) : Pc → Option (State n)
  | .unlink dp name => state.ilock p dp (.unlinkLocked dp name)
  | .unlinkLocked dp name =>
      if name = dot ∨ name = dotdot then
        some (state.goto p (.tidy [.unlock dp, .put dp] .endOp))
      else if (state.inode dp).type ≠ .dir then some (state.fail p .dirlookup)
      else
        match (state.inode dp).dirlookup name with
        | none => some (state.goto p (.tidy [.unlock dp, .put dp] .endOp))
        | some (found, off) =>
            let ip := found.inum
            some ((state.setInode ip (state.inode ip).get).goto p (.unlinkTarget dp off ip))
  | .unlinkTarget dp off ip => state.ilock p ip (.unlinkBoth dp off ip)
  | .unlinkBoth dp off ip =>
      let target := state.inode ip
      if target.nlink < 1 then some (state.fail p .nlink)
      else if target.type = .dir ∧ target.isdirempty = false then
        some (state.goto p (.tidy [.unlock ip, .put ip, .unlock dp, .put dp] .endOp))
      else
        let dir := state.inode dp
        some (state.logged p ((state.setInode dp { dir with
          entries := dir.entries.set off ⟨0, []⟩
          nlink := if target.type = .dir then dir.nlink - 1 else dir.nlink }).goto p
            (.tidy [.unlock dp, .put dp] (.unlinkDrop ip))))
  | .unlinkDrop ip =>
      let target := state.inode ip
      some (state.logged p ((state.setInode ip { target with nlink := target.nlink - 1 }).goto p
        (.tidy [.unlock ip, .put ip] .endOp)))
  | _ => none

/-- `create` for a directory; `space` says how many of its calls of `dirlink` succeed. -/
def sysMkdir (ninodes : ℕ) (state : State n) (p : Fin n) (space : ℕ) : Pc → Option (State n)
  | .mkdir dp name => state.ilock p dp (.mkdirLocked dp name)
  | .mkdirLocked dp name =>
      if (state.inode dp).type ≠ .dir then some (state.fail p .dirlookup)
      else
        match (state.inode dp).dirlookup name with
        | some (found, _) =>
            let ip := found.inum
            some ((state.setInode ip (state.inode ip).get).goto p
              (.tidy [.unlock dp, .put dp] (.mkdirExists ip)))
        | none =>
            match ialloc ninodes state.inode with
            | none => some (state.goto p (.tidy [.unlock dp, .put dp] .endOp))
            | some ip =>
                let zeroed := { state.inode ip with type := .dir, nlink := 0, entries := [] }
                some (state.logged p
                  ((state.setInode ip zeroed.get).goto p (.mkdirNew dp name ip)))
  | .mkdirExists ip => state.ilock p ip (.tidy [.unlock ip, .put ip] .endOp)
  | .mkdirNew dp name ip => state.ilock p ip (.mkdirFill dp name ip)
  | .mkdirFill dp name ip =>
      let made := { state.inode ip with nlink := 1 }.dots ip dp space
      if 3 ≤ space then
        let filled := state.setInode ip made
        let dir := (filled.inode dp).dirlink name ip
        some (state.logged p ((filled.setInode dp { dir with nlink := dir.nlink + 1 }).goto p
          (.tidy [.unlock dp, .put dp, .unlock ip, .put ip] .endOp)))
      else
        some (state.logged p ((state.setInode ip { made with nlink := 0 }).goto p
          (.tidy [.unlock ip, .put ip, .unlock dp, .put dp] .endOp)))
  | _ => none

/-- After `end_op` the assignment to `p->cwd`, which only the process itself reads. -/
def sysChdir (state : State n) (p : Fin n) : Pc → Option (State n)
  | .chdir ip => state.ilock p ip (.chdirLocked ip)
  | .chdirLocked ip =>
      if (state.inode ip).type ≠ .dir then
        some (state.goto p (.tidy [.unlock ip, .put ip] .endOp))
      else some (state.goto p (.tidy [.unlock ip, .put (state.cwd p)] (.chdirEnd ip)))
  | .chdirEnd ip =>
      some ({ state with
        outstanding := state.outstanding - 1
        cwd := Function.update state.cwd p ip }.goto p .user)
  | _ => none

/-! ### The processes -/

inductive Action
  | getcwd
  | call (op : Op) (path : Path)
  | next (space : ℕ)
  deriving DecidableEq, Repr

def advance (ninodes : ℕ) (state : State n) (p : Fin n) (space : ℕ) : Pc → Option (State n)
  | .tidy (act :: acts) next => some (state.tidy p (next.resume acts) act)
  | pc =>
      getcwd state p pc <|> namex state p pc <|> sysUnlink state p pc <|>
        sysMkdir ninodes state p space pc <|> sysChdir state p pc

def step (ninodes : ℕ) (state : State n) (label : Fin n × Action) : Option (State n) :=
  let (p, action) := label
  if state.panic ≠ none then none
  else
    match state.pc p, action with
    | .user, .getcwd => some (state.goto p .getcwd)
    | .user, .call op path => some (state.goto p (.beginOp op path))
    | pc, .next space => advance ninodes state p space pc
    | _, _ => none

/-- Any file system and table of inodes in which nobody is inside a call; other parts of the
kernel may hold references and be inside transactions. -/
structure State.Quiet (state : State n) : Prop where
  user : ∀ p, state.pc p = .user
  panic : state.panic = none
  counted : Covers (fun i => (state.inode i).ref) fun p => [state.cwd p]

def system (n ninodes : ℕ) : System (State n) (Fin n × Action) where
  init := State.Quiet
  step before label after := step ninodes before label = some after

end OsLab.Kernel.Fs
