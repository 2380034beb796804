import Mathlib.Data.List.Basic
import Mathlib.Logic.Function.Basic

/-!
Inodes and directories of `fs.c`. The copy of an inode in memory and the one on disk are
one record: they differ only while the inode's lock is held. `iget` finds an entry of the
table for every inode, so its panic on a full table is left out.
-/

namespace OsLab.Kernel.Fs

inductive FileType
  | free
  | dir
  | file
  | device
  deriving DecidableEq, Repr

/-- A path element or entry name, at most `DIRSIZ` characters of it. -/
abbrev Name := List Char

def dot : Name := ['.']

def dotdot : Name := ['.', '.']

structure Dirent where
  inum : ℕ
  name : Name
  deriving DecidableEq, Repr

/-- `entries` is the content of a directory; `lock` is the process that holds `ip->lock`. -/
structure Inode (n : ℕ) where
  type : FileType
  nlink : ℕ
  entries : List Dirent
  ref : ℕ
  valid : Bool
  lock : Option (Fin n)

variable {n : ℕ}

namespace Inode

def dup (ip : Inode n) : Inode n := { ip with ref := ip.ref + 1 }

/-- A reference by number; an entry that nobody used is taken over and not yet read. -/
def get (ip : Inode n) : Inode n :=
  { ip with ref := ip.ref + 1, valid := if ip.ref = 0 then false else ip.valid }

/-- The test of `iput` that decides whether the inode is freed. -/
def Frees (ip : Inode n) : Prop := ip.ref = 1 ∧ ip.valid = true ∧ ip.nlink = 0

instance (ip : Inode n) : Decidable ip.Frees := inferInstanceAs (Decidable (_ ∧ _ ∧ _))

/-- `iput`, with the truncation and the update on disk where it frees. -/
def put (ip : Inode n) : Inode n :=
  if ip.Frees then
    { ip with type := .free, entries := [], valid := false, ref := ip.ref - 1 }
  else { ip with ref := ip.ref - 1 }

def dirlookup (dp : Inode n) (name : Name) : Option (Dirent × ℕ) :=
  dp.entries.zipIdx.find? fun found => found.1.inum ≠ 0 ∧ found.1.name = name

def dirlink (dp : Inode n) (name : Name) (inum : ℕ) : Inode n :=
  { dp with
    entries := match dp.entries.findIdx? fun de => de.inum = 0 with
      | some off => dp.entries.set off ⟨inum, name⟩
      | none => dp.entries ++ [⟨inum, name⟩] }

/-- The first two entries that `create` gives a directory, as far as there is space. -/
def dots (ip : Inode n) (self parent space : ℕ) : Inode n :=
  let one := if 1 ≤ space then ip.dirlink dot self else ip
  if 2 ≤ space then one.dirlink dotdot parent else one

def isdirempty (dp : Inode n) : Bool := (dp.entries.drop 2).all fun de => de.inum = 0

@[simp] theorem dup_ref (ip : Inode n) : ip.dup.ref = ip.ref + 1 := rfl

@[simp] theorem dup_nlink (ip : Inode n) : ip.dup.nlink = ip.nlink := rfl

@[simp] theorem get_ref (ip : Inode n) : ip.get.ref = ip.ref + 1 := rfl

@[simp] theorem get_nlink (ip : Inode n) : ip.get.nlink = ip.nlink := rfl

@[simp] theorem put_ref (ip : Inode n) : ip.put.ref = ip.ref - 1 := by
  rw [put]
  split <;> rfl

@[simp] theorem put_nlink (ip : Inode n) : ip.put.nlink = ip.nlink := by
  rw [put]
  split <;> rfl

@[simp] theorem dirlink_ref (dp : Inode n) (name : Name) (inum : ℕ) :
    (dp.dirlink name inum).ref = dp.ref := rfl

@[simp] theorem dirlink_nlink (dp : Inode n) (name : Name) (inum : ℕ) :
    (dp.dirlink name inum).nlink = dp.nlink := rfl

@[simp] theorem dots_ref (ip : Inode n) (self parent space : ℕ) :
    (ip.dots self parent space).ref = ip.ref := by
  simp only [dots]
  split <;> split <;> rfl

@[simp] theorem dots_nlink (ip : Inode n) (self parent space : ℕ) :
    (ip.dots self parent space).nlink = ip.nlink := by
  simp only [dots]
  split <;> split <;> rfl

end Inode

def ialloc (ninodes : ℕ) (inode : ℕ → Inode n) : Option ℕ :=
  (List.range ninodes).find? fun inum => 1 ≤ inum ∧ (inode inum).type = .free

end OsLab.Kernel.Fs
