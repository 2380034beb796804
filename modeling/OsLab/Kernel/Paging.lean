import OsLab.Kernel.PageTable
import OsLab.Library.RadixTree

/-!
The page tables of `vm.c` where they are: entries of 64 bits in pages of physical memory, which
`kalloc` and `kfree` hand out and overwrite. Addresses are page numbers. `none` stands for a
panic.
-/

namespace OsLab.Kernel.Paging

open OsLab.Library

/-- What `PTE_FLAGS` keeps of an entry. -/
abbrev Flags := BitVec 10

def PTE_V : Flags := 1

def PTE_R : Flags := 2

def PTE_W : Flags := 4

def PTE_X : Flags := 8

def PTE_U : Flags := 16

/-- A word of 64 bits, as `PTE2PA` (in pages) and `PTE_FLAGS` divide it. -/
structure Word where
  frame : Frame
  flags : Flags
  deriving DecidableEq

def Word.ofNat (w : ℕ) : Word := ⟨w % 2 ^ 64 / 2 ^ 10, BitVec.ofNat 10 w⟩

def Word.valid (pte : Word) : Bool := pte.flags &&& PTE_V ≠ 0

/-- No `PTE_R`, `PTE_W` or `PTE_X`: the entry of a page-table page that is not at level 0. -/
def Word.inner (pte : Word) : Bool := pte.flags &&& (PTE_R ||| PTE_W ||| PTE_X) = 0

abbrev Page := Fin 512 → Word

/-- Physical memory and the allocator, whose list runs in `kmem`. The calls of `kalloc` are
counted, and in those that are `denied` other CPUs have the list empty. -/
structure Machine where
  kmem : Kmem
  mem : Frame → Page
  calls : ℕ
  denied : ℕ → Bool

namespace Machine

def store (m : Machine) (r : Frame) (i : Fin 512) (word : Word) : Machine :=
  { m with mem := Function.update m.mem r (Function.update (m.mem r) i word) }

def memset (m : Machine) (r : Frame) (c : ℕ) : Machine :=
  { m with mem := Function.update m.mem r fun _ => Word.ofNat (c * 0x0101010101010101) }

/-- A struct of `count` words is copied to the start of a page. -/
def copyWords (m : Machine) (dst src : Frame) (count : ℕ) : Machine :=
  { m with mem := Function.update m.mem dst fun i =>
    if i.val < count then m.mem src i else m.mem dst i }

def kalloc (m : Machine) : Machine × Option Frame :=
  let called := { m with calls := m.calls + 1 }
  if m.denied m.calls then (called, none)
  else
    match m.kmem.kalloc with
    | none => (called, none)
    | some (r, kmem) => ({ called with kmem := kmem }.memset r 5, some r)

def kfree (m : Machine) (r : Frame) : Machine := { m.memset r 1 with kmem := m.kmem.kfree r }

def kfreeIf (m : Machine) : Option Frame → Machine
  | none => m
  | some r => m.kfree r

end Machine

def px (page level : ℕ) : Fin 512 := Fin.ofNat 512 (page / 512 ^ level)

/-- The loop of `walk`, from a page-table page of the level. -/
def walkFrom (alloc : Bool) (page : ℕ) (m : Machine) (pagetable : Frame) :
    ℕ → Machine × Option Frame
  | 0 => (m, some pagetable)
  | level + 1 =>
      let pte := m.mem pagetable (px page (level + 1))
      if pte.valid then walkFrom alloc page m pte.frame level
      else if alloc then
        match m.kalloc with
        | (m, none) => (m, none)
        | (m, some new) =>
            let m := (m.memset new 0).store pagetable (px page (level + 1)) ⟨new, PTE_V⟩
            walkFrom alloc page m new level
      else (m, none)

/-- The page with the entry that `walk` returns, at `px page 0`. -/
def walk (alloc : Bool) (m : Machine) (pagetable : Frame) (page : ℕ) :
    Option (Machine × Option Frame) :=
  if page < maxPage then some (walkFrom alloc page m pagetable 2) else none

/-- `mappages` of one page; false stands for -1. -/
def mappages (m : Machine) (pagetable : Frame) (page : ℕ) (pa : Frame) (perm : Flags) :
    Option (Machine × Bool) :=
  match walk true m pagetable page with
  | none => none
  | some (m, none) => some (m, false)
  | some (m, some low) =>
      if (m.mem low (px page 0)).valid then none
      else some (m.store low (px page 0) ⟨pa, perm ||| PTE_V⟩, true)

def uvmcreate (m : Machine) : Machine × Option Frame :=
  match m.kalloc with
  | (m, none) => (m, none)
  | (m, some pagetable) => (m.memset pagetable 0, some pagetable)

def uvmunmap (doFree : Bool) (pagetable : Frame) (m : Machine) (page : ℕ) : ℕ → Option Machine
  | 0 => some m
  | npages + 1 =>
      match walk false m pagetable page with
      | none => none
      | some (m, none) => uvmunmap doFree pagetable m (page + 1) npages
      | some (m, some low) =>
          let pte := m.mem low (px page 0)
          if pte.valid then
            let m := if doFree then m.kfree pte.frame else m
            uvmunmap doFree pagetable (m.store low (px page 0) (.ofNat 0)) (page + 1) npages
          else uvmunmap doFree pagetable m (page + 1) npages

def freewalkEntry (below : Machine → Frame → Option Machine) (pagetable : Frame) (m : Machine)
    (i : Fin 512) : Option Machine :=
  let pte := m.mem pagetable i
  if pte.valid && pte.inner then
    (below m pte.frame).map fun m => m.store pagetable i (.ofNat 0)
  else if pte.valid then none
  else some m

/-- A table has three levels; a call that went deeper would count as a panic. -/
def freewalk : ℕ → Machine → Frame → Option Machine
  | 0, _, _ => none
  | depth + 1, m, pagetable =>
      ((List.finRange 512).foldlM (freewalkEntry (freewalk depth) pagetable) m).map
        fun m => m.kfree pagetable

def uvmfree (m : Machine) (pagetable : Frame) (sz : ℕ) : Option Machine :=
  if sz > 0 then
    (uvmunmap true pagetable m 0 (pages sz)).bind fun m => freewalk 3 m pagetable
  else freewalk 3 m pagetable

def uvmshareFrom (old new : Frame) (m : Machine) (page : ℕ) : ℕ → Option (Machine × Bool)
  | 0 => some (m, true)
  | count + 1 =>
      match walk false m old page with
      | none => none
      | some (m, none) => uvmshareFrom old new m (page + 1) count
      | some (m, some low) =>
          let pte := m.mem low (px page 0)
          if pte.valid then
            match mappages m new page pte.frame pte.flags with
            | none => none
            | some (m, true) => uvmshareFrom old new m (page + 1) count
            | some (m, false) => (uvmunmap false new m 0 page).map fun m => (m, false)
          else uvmshareFrom old new m (page + 1) count

def uvmshare (m : Machine) (old new : Frame) (sz : ℕ) : Option (Machine × Bool) :=
  uvmshareFrom old new m 0 (pages sz)

end OsLab.Kernel.Paging
