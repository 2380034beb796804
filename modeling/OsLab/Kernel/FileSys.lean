import OsLab.Kernel.Inode
import OsLab.Library.CString
import OsLab.Library.System

/-!
Files, directories and paths byte by byte, one system call after the other: `dirlookup`,
`dirlink`, `skipelem` and `namex` of `fs.c`, and the calls of `sysfile.c` that make and remove
names. An inode in memory and its copy on disk are one record; it has been read when its last
reference goes, so `valid` is left out. The content of a directory is its list of entries.
-/

namespace OsLab.Kernel.FileSys

open OsLab.Library
open OsLab.Library.CString
open OsLab.Kernel.Fs (FileType)

def DIRSIZ : ℕ := 14

def MAXPATH : ℕ := 128

def ROOTINO : ℕ := 1

def slash : UInt8 := 47

def dot : Bytes := [46]

def dotdot : Bytes := [46, 46]

/-- A name has no NUL when it fills the field. Inode numbers are below `ninodes` and so fit `inum`. -/
structure Dirent where
  inum : ℕ
  name : Bytes
  width : name.length = DIRSIZ
  deriving DecidableEq

/-- `entries` is the content of a directory, `data` that of a file. -/
structure Inode where
  type : FileType
  nlink : Int
  entries : List Dirent
  data : Bytes
  ref : ℕ
  deriving DecidableEq

structure OpenFile where
  ip : ℕ
  off : ℕ
  writable : Bool
  deriving DecidableEq

structure State (n : ℕ) where
  inode : ℕ → Inode
  cwd : Fin n → ℕ
  ofile : Fin n → List OpenFile

inductive Panic
  | ilock
  | noType
  | dirlookup
  | nlink
  deriving DecidableEq, Repr

/-- What ends a call without a return: a panic, or a write outside of an array. -/
inductive Fault
  | panic (panic : Panic)
  | overflow
  deriving DecidableEq, Repr

@[simp] theorem ok_bind {α β : Type} (a : α) (rest : α → Except Fault β) :
    ((Except.ok a : Except Fault α) >>= rest) = rest a := rfl

theorem bind_ok {α β : Type} {first : Except Fault α} {rest : α → Except Fault β} {b : β}
    (result : (first >>= rest) = .ok b) : ∃ a, first = .ok a ∧ rest a = .ok b := by
  cases first with
  | error fault => simp [bind, Except.bind] at result
  | ok a => exact ⟨a, rfl, result⟩

variable {n : ℕ}

/-! ### Directories -/

def namecmp (s t : Bytes) : Int := strncmp DIRSIZ s t

def Dirent.text (de : Dirent) : Bytes := CString.text de.name

def entry (name : Bytes) (inum : ℕ) : Dirent where
  inum := inum
  name := strncpy DIRSIZ name
  width := strncpy_length DIRSIZ name

def unused : Dirent := entry [] 0

/-- The inode number of a name and the position of its entry. -/
def dirlookup (dp : Inode) (name : Bytes) : Except Fault (Option (ℕ × ℕ)) :=
  if dp.type ≠ .dir then .error (.panic .dirlookup)
  else
    .ok ((dp.entries.zipIdx.find? fun found =>
      found.1.inum ≠ 0 ∧ namecmp name found.1.name = 0).map fun found => (found.1.inum, found.2))

/-- The first position that is not in use, or the end. -/
def dirlink (dp : Inode) (name : Bytes) (inum : ℕ) : Inode :=
  { dp with
    entries := match dp.entries.findIdx? fun de => de.inum = 0 with
      | some off => dp.entries.set off (entry name inum)
      | none => dp.entries ++ [entry name inum] }

def isdirempty (dp : Inode) : Bool := (dp.entries.drop 2).all fun de => de.inum = 0

/-- The bytes of a file read as directory entries, as far as they are whole. -/
def decode (data : Bytes) : List Dirent :=
  if whole : 2 + DIRSIZ ≤ data.length then
    { inum := (data.headD 0).toNat + 256 * (data.tail.headD 0).toNat
      name := (data.drop 2).take DIRSIZ
      width := by simp only [List.length_take, List.length_drop]; omega } ::
      decode (data.drop (2 + DIRSIZ))
  else []
termination_by data.length
decreasing_by simp only [List.length_drop, DIRSIZ] at whole ⊢; omega

/-- What a loop of `readi` over an inode finds. -/
def readDirents (ip : Inode) : List Dirent :=
  if ip.type = .dir then ip.entries else decode ip.data

def skipelem (path : Bytes) : Option (Bytes × Bytes) :=
  match path.dropWhile fun c => c = slash with
  | [] => none
  | c :: s =>
      some (((c :: s).takeWhile fun c => c ≠ slash).take DIRSIZ,
        ((c :: s).dropWhile fun c => c ≠ slash).dropWhile fun c => c = slash)

theorem skipelem_length {path name rest : Bytes} (split : skipelem path = some (name, rest)) :
    rest.length < path.length := by
  have shorter := (List.dropWhile_suffix (l := path) fun c => decide (c = slash)).length_le
  rw [skipelem] at split
  split at split
  · simp at split
  · rename_i c s here
    rw [here] at shorter
    simp only [Option.some.injEq, Prod.mk.injEq] at split
    obtain ⟨-, rfl⟩ := split
    -- the first byte is not a slash
    have first : c ≠ slash := by
      have head := List.head?_dropWhile_not (fun c => decide (c = slash)) path
      rw [here] at head
      simpa using head
    have once := (List.dropWhile_suffix (l := (c :: s).dropWhile fun c => decide (c ≠ slash))
      fun c => decide (c = slash)).length_le
    have twice := (List.dropWhile_suffix (l := s) fun c => decide (c ≠ slash)).length_le
    rw [List.dropWhile_cons_of_pos (by simpa using first)] at once ⊢
    simp only [List.length_cons] at shorter
    omega

/-! ### References -/

namespace State

def setInode (st : State n) (i : ℕ) (ip : Inode) : State n :=
  { st with inode := Function.update st.inode i ip }

/-- `iget` and `idup`. -/
def get (st : State n) (i : ℕ) : State n :=
  st.setInode i { st.inode i with ref := (st.inode i).ref + 1 }

/-- `iput`, which frees an inode when its last reference goes and it has no links. -/
def put (st : State n) (i : ℕ) : State n :=
  let ip := st.inode i
  if ip.ref = 1 ∧ ip.nlink = 0 then
    st.setInode i { type := .free, nlink := ip.nlink, entries := [], data := [], ref := ip.ref - 1 }
  else st.setInode i { ip with ref := ip.ref - 1 }

def ilock (st : State n) (i : ℕ) : Except Fault Unit :=
  if (st.inode i).ref < 1 then .error (.panic .ilock)
  else if (st.inode i).type = .free then .error (.panic .noType)
  else .ok ()

variable {st : State n} {i j : ℕ}

@[simp] theorem get_type : ((st.get i).inode j).type = (st.inode j).type := by
  by_cases same : j = i
  · subst j
    simp [get, setInode]
  · simp [get, setInode, same]

@[simp] theorem get_nlink : ((st.get i).inode j).nlink = (st.inode j).nlink := by
  by_cases same : j = i
  · subst j
    simp [get, setInode]
  · simp [get, setInode, same]

@[simp] theorem get_entries : ((st.get i).inode j).entries = (st.inode j).entries := by
  by_cases same : j = i
  · subst j
    simp [get, setInode]
  · simp [get, setInode, same]

@[simp] theorem get_data : ((st.get i).inode j).data = (st.inode j).data := by
  by_cases same : j = i
  · subst j
    simp [get, setInode]
  · simp [get, setInode, same]

@[simp] theorem dirlookup_get (name : Bytes) :
    dirlookup ((st.get i).inode j) name = dirlookup (st.inode j) name := by
  simp [dirlookup]

@[simp] theorem readDirents_get :
    readDirents ((st.get i).inode j) = readDirents (st.inode j) := by
  simp [readDirents]

theorem get_ref : ((st.get i).inode j).ref = (st.inode j).ref + if j = i then 1 else 0 := by
  by_cases same : j = i
  · subst j
    simp [get, setInode]
  · simp [get, setInode, same]

@[simp] theorem get_cwd : (st.get i).cwd = st.cwd := rfl

@[simp] theorem get_ofile : (st.get i).ofile = st.ofile := rfl

theorem get_comm : (st.get i).get j = (st.get j).get i := by
  by_cases same : j = i
  · subst j
    rfl
  · simp [get, setInode, same, Ne.symm same, Function.update_comm same]

theorem get_put (kept : (st.inode i).nlink ≠ 0 ∨ (st.inode i).ref ≠ 0) :
    (st.get i).put i = st := by
  simp only [put, get, setInode, Function.update_self, Function.update_idem]
  rw [if_neg (by omega)]
  simp

theorem get_get_put (kept : (st.inode i).nlink ≠ 0 ∨ (st.inode i).ref ≠ 0) :
    ((st.get i).get j).put i = st.get j := by
  rw [get_comm]
  refine get_put (kept.imp ?_ ?_)
  · simp
  · rw [get_ref]
    omega

theorem ilock_ok (held : 1 ≤ (st.inode i).ref) (allocated : (st.inode i).type ≠ .free) :
    st.ilock i = .ok () := by
  rw [ilock, if_neg (by omega), if_neg allocated]

theorem get_ilock (allocated : (st.inode i).type ≠ .free) : (st.get i).ilock i = .ok () := by
  apply ilock_ok
  · rw [get_ref, if_pos rfl]
    omega
  · simpa using allocated

end State

/-! ### Paths -/

def namexLoop (nameiparent : Bool) (ip : ℕ) (name path : Bytes) (st : State n) :
    Except Fault (Option (ℕ × Bytes) × State n) :=
  match _split : skipelem path with
  | none => if nameiparent then .ok (none, st.put ip) else .ok (some (ip, name), st)
  | some (name, rest) => do
      st.ilock ip
      if (st.inode ip).type ≠ .dir then .ok (none, st.put ip)
      else if nameiparent = true ∧ rest = [] then .ok (some (ip, name), st)
      else
        match ← dirlookup (st.inode ip) name with
        | none => .ok (none, st.put ip)
        | some (next, _) => namexLoop nameiparent next name rest ((st.get next).put ip)
termination_by path.length
decreasing_by exact skipelem_length _split

theorem namexLoop_none {nameiparent : Bool} {ip : ℕ} {name path : Bytes} {st : State n}
    (last : skipelem path = none) : namexLoop nameiparent ip name path st =
      if nameiparent then .ok (none, st.put ip) else .ok (some (ip, name), st) := by
  rw [namexLoop]
  split
  · rfl
  · rename_i split
    simp [last] at split

theorem namexLoop_some {nameiparent : Bool} {ip : ℕ} {old name path rest : Bytes} {st : State n}
    (element : skipelem path = some (name, rest)) : namexLoop nameiparent ip old path st =
      (st.ilock ip >>= fun _ =>
        if (st.inode ip).type ≠ .dir then .ok (none, st.put ip)
        else if nameiparent = true ∧ rest = [] then .ok (some (ip, name), st)
        else
          dirlookup (st.inode ip) name >>= fun found =>
            match found with
            | none => .ok (none, st.put ip)
            | some (next, _) => namexLoop nameiparent next name rest ((st.get next).put ip)) := by
  rw [namexLoop]
  split
  · rename_i split
    simp [element] at split
  · rename_i split
    rw [element, Option.some.injEq, Prod.mk.injEq] at split
    obtain ⟨rfl, rfl⟩ := split
    rfl

/-- The inode of a path, or with `nameiparent` that of its parent and the last element. -/
def namex (st : State n) (p : Fin n) (nameiparent : Bool) (path : Bytes) :
    Except Fault (Option (ℕ × Bytes) × State n) :=
  let ip := if path.head? = some slash then ROOTINO else st.cwd p
  namexLoop nameiparent ip [] path (st.get ip)

def argstr (arg : Bytes) : Option Bytes :=
  let path := text arg
  if path.length < MAXPATH then some path else none

/-! ### The calls -/

def ialloc (ninodes : ℕ) (inode : ℕ → Inode) : Option ℕ :=
  (List.range ninodes).find? fun inum => 1 ≤ inum ∧ (inode inum).type = .free

/-- `create`; `space` says how many of its calls of `dirlink` find room on the disk. -/
def create (ninodes : ℕ) (st : State n) (p : Fin n) (path : Bytes) (type : FileType) (space : ℕ) :
    Except Fault (Option ℕ × State n) := do
  match ← namex st p true path with
  | (none, st) => .ok (none, st)
  | (some (dp, name), st) =>
      st.ilock dp
      match ← dirlookup (st.inode dp) name with
      | some (ip, _) =>
          let st := (st.get ip).put dp
          st.ilock ip
          if type = .file ∧ ((st.inode ip).type = .file ∨ (st.inode ip).type = .device) then
            .ok (some ip, st)
          else .ok (none, st.put ip)
      | none =>
          match ialloc ninodes st.inode with
          | none => .ok (none, st.put dp)
          | some ip =>
              let new : Inode :=
                { type := type, nlink := 1, entries := [], data := [], ref := (st.inode ip).ref + 1 }
              let room := if type = .dir then 3 else 1
              if room ≤ space then
                let made := if type = .dir then dirlink (dirlink new dot ip) dotdot dp else new
                let linked := dirlink (st.inode dp) name ip
                let st := (st.setInode ip made).setInode dp
                  { linked with nlink := if type = .dir then linked.nlink + 1 else linked.nlink }
                .ok (some ip, st.put dp)
              else .ok (none, ((st.setInode ip { new with nlink := 0 }).put ip).put dp)

def sysMkdir (ninodes : ℕ) (st : State n) (p : Fin n) (arg : Bytes) (space : ℕ) :
    Except Fault (Int × State n) :=
  match argstr arg with
  | none => .ok (-1, st)
  | some path => do
      match ← create ninodes st p path .dir space with
      | (none, st) => .ok (-1, st)
      | (some ip, st) => .ok (0, st.put ip)

/-- `sys_open` with `O_CREATE`; `slot` says whether there are a file structure and a descriptor
for it, and whether the device number, if it is one, is in range. -/
def sysOpen (ninodes : ℕ) (st : State n) (p : Fin n) (arg : Bytes) (trunc writable slot : Bool)
    (space : ℕ) : Except Fault (Int × State n) :=
  match argstr arg with
  | none => .ok (-1, st)
  | some path => do
      match ← create ninodes st p path .file space with
      | (none, st) => .ok (-1, st)
      | (some ip, st) =>
          if slot = false then .ok (-1, st.put ip)
          else
            let f : OpenFile := { ip := ip, off := 0, writable := writable }
            let st :=
              if trunc = true ∧ (st.inode ip).type = .file then
                st.setInode ip { st.inode ip with data := [] }
              else st
            .ok ((st.ofile p).length,
              { st with ofile := Function.update st.ofile p (st.ofile p ++ [f]) })

/-- `sys_write` of a file; `bytes` are those that find room on the disk, `whole` says whether that is
all. -/
def sysWrite (st : State n) (p : Fin n) (fd : ℕ) (bytes : Bytes) (whole : Bool) :
    Except Fault (Int × State n) :=
  match (st.ofile p)[fd]? with
  | none => .ok (-1, st)
  | some f =>
      let ip := st.inode f.ip
      if f.writable = false then .ok (-1, st)
      else if ip.type = .device then .ok (bytes.length, st)
      else do
        st.ilock f.ip
        if f.off > ip.data.length then .ok (-1, st)
        else
          let data := ip.data.take f.off ++ bytes ++ ip.data.drop (f.off + bytes.length)
          let written := st.setInode f.ip { ip with data := data }
          .ok (if whole then bytes.length else -1, { written with
            ofile := Function.update st.ofile p
              ((st.ofile p).set fd { f with off := f.off + bytes.length }) })

def sysUnlink (st : State n) (p : Fin n) (arg : Bytes) : Except Fault (Int × State n) :=
  match argstr arg with
  | none => .ok (-1, st)
  | some path => do
      match ← namex st p true path with
      | (none, st) => .ok (-1, st)
      | (some (dp, name), st) =>
          st.ilock dp
          if namecmp name dot = 0 ∨ namecmp name dotdot = 0 then .ok (-1, st.put dp)
          else
            match ← dirlookup (st.inode dp) name with
            | none => .ok (-1, st.put dp)
            | some (ip, off) =>
                let st := st.get ip
                st.ilock ip
                let target := st.inode ip
                if target.nlink < 1 then .error (.panic .nlink)
                else if target.type = .dir ∧ isdirempty target = false then
                  .ok (-1, (st.put ip).put dp)
                else
                  let dir := st.inode dp
                  let st := (st.setInode dp { dir with
                    entries := dir.entries.set off unused
                    nlink := if target.type = .dir then dir.nlink - 1 else dir.nlink }).put dp
                  let left := st.inode ip
                  .ok (0, (st.setInode ip { left with nlink := left.nlink - 1 }).put ip)

def sysChdir (st : State n) (p : Fin n) (arg : Bytes) : Except Fault (Int × State n) :=
  match argstr arg with
  | none => .ok (-1, st)
  | some path => do
      match ← namex st p false path with
      | (none, st) => .ok (-1, st)
      | (some (ip, _), st) =>
          st.ilock ip
          if (st.inode ip).type ≠ .dir then .ok (-1, st.put ip)
          else
            .ok (0, { st.put (st.cwd p) with cwd := Function.update st.cwd p ip })

inductive Call
  | mkdir (arg : Bytes) (space : ℕ)
  | openCreate (arg : Bytes) (trunc writable slot : Bool) (space : ℕ)
  | write (fd : ℕ) (bytes : Bytes) (whole : Bool)
  | unlink (arg : Bytes)
  | chdir (arg : Bytes)
  deriving DecidableEq, Repr

def call (ninodes : ℕ) (st : State n) (p : Fin n) : Call → Except Fault (Int × State n)
  | .mkdir arg space => sysMkdir ninodes st p arg space
  | .openCreate arg trunc writable slot space => sysOpen ninodes st p arg trunc writable slot space
  | .write fd bytes whole => sysWrite st p fd bytes whole
  | .unlink arg => sysUnlink st p arg
  | .chdir arg => sysChdir st p arg

def step (ninodes : ℕ) (st : State n) (label : Fin n × Call) : Option (State n) :=
  match call ninodes st label.1 label.2 with
  | .ok (_, after) => some after
  | .error _ => none

end OsLab.Kernel.FileSys
