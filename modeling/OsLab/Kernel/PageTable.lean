import OsLab.Kernel.Kalloc
import OsLab.Kernel.Memlayout
import Mathlib.Data.List.AList
import Mathlib.Tactic.Ring

/-!
User page tables of `vm.c`, page by page: the tree of page-table pages that `walk`
grows and `freewalk` takes down, and the leaf entries. Addresses are page numbers.
`none` stands for a panic.
-/

namespace OsLab.Kernel

open OsLab.Library

structure Pte where
  frame : Frame
  r : Bool
  w : Bool
  x : Bool
  u : Bool
  deriving DecidableEq

/-- A level-1 page-table page, at an index of the root, with the level-0 pages below it. -/
structure Middle where
  index : ℕ
  frame : Frame
  lows : List (ℕ × Frame)

/-- Page-table pages stand in the order of their indices. -/
structure PageTable where
  root : Frame
  middles : List Middle
  leaves : AList fun _ : ℕ => Pte

def Middle.frames (middle : Middle) : List Frame := middle.lows.map Prod.snd ++ [middle.frame]

def middleFrames (middles : List Middle) : List Frame := middles.flatMap Middle.frames

/-- The page-table pages, in the order `freewalk` gives them back. -/
def PageTable.frames (table : PageTable) : List Frame := middleFrames table.middles ++ [table.root]

/-- The allocator and the page table a function of `vm.c` works on. -/
structure Space where
  kmem : Kmem
  table : PageTable

def maxPage : ℕ := MAXVA / PGSIZE

def trampolinePage : ℕ := TRAMPOLINE / PGSIZE

def trapframePage : ℕ := TRAPFRAME / PGSIZE

def pages (sz : ℕ) : ℕ := pgRoundUp sz / PGSIZE

def PageTable.leaf (table : PageTable) (page : ℕ) : Option Pte := table.leaves.lookup page

def walkLow (kmem : Kmem) (index : ℕ) : List (ℕ × Frame) → Option (Kmem × List (ℕ × Frame))
  | [] => kmem.kalloc.map fun new => (new.2, [(index, new.1)])
  | low :: rest =>
      if low.1 = index then some (kmem, low :: rest)
      else if index < low.1 then kmem.kalloc.map fun new => (new.2, (index, new.1) :: low :: rest)
      else (walkLow kmem index rest).map fun found => (found.1, low :: found.2)

/-- The walk below a level-1 page; the page stays when level 0 cannot be allocated. -/
def walkBelow (kmem : Kmem) (middle : Middle) (low : ℕ) : Kmem × Middle × Bool :=
  match walkLow kmem low middle.lows with
  | none => (kmem, middle, false)
  | some (after, lows) => (after, { middle with lows := lows }, true)

def walkMiddle (kmem : Kmem) (index low : ℕ) : List Middle → Kmem × List Middle × Bool
  | [] =>
      match kmem.kalloc with
      | none => (kmem, [], false)
      | some (frame, kmem) =>
          let below := walkBelow kmem ⟨index, frame, []⟩ low
          (below.1, [below.2.1], below.2.2)
  | middle :: rest =>
      if middle.index = index then
        let below := walkBelow kmem middle low
        (below.1, below.2.1 :: rest, below.2.2)
      else if index < middle.index then
        match kmem.kalloc with
        | none => (kmem, middle :: rest, false)
        | some (frame, kmem) =>
            let below := walkBelow kmem ⟨index, frame, []⟩ low
            (below.1, below.2.1 :: middle :: rest, below.2.2)
      else
        let found := walkMiddle kmem index low rest
        (found.1, middle :: found.2.1, found.2.2)

namespace Space

/-- `walk(pagetable, va, 1)`; false stands for its result 0. -/
def walk (s : Space) (page : ℕ) : Option (Space × Bool) :=
  if page < maxPage then
    let found := walkMiddle s.kmem (page / 512 / 512) (page / 512 % 512) s.table.middles
    some (⟨found.1, { s.table with middles := found.2.1 }⟩, found.2.2)
  else none

def enter (s : Space) (page : ℕ) (pte : Pte) : Space :=
  { s with table := { s.table with leaves := s.table.leaves.insert page pte } }

/-- `mappages` of one page. -/
def mappages (s : Space) (page : ℕ) (pte : Pte) : Option (Space × Bool) :=
  match s.walk page with
  | none => none
  | some (after, false) => some (after, false)
  | some (after, true) =>
      if after.table.leaf page = none then some (after.enter page pte, true) else none

/-- An entry is set to 0, and its page given back if `do_free`. -/
def clear (s : Space) (doFree : Bool) (page : ℕ) (pte : Pte) : Space where
  kmem := if doFree then s.kmem.kfree pte.frame else s.kmem
  table := { s.table with leaves := s.table.leaves.erase page }

def uvmunmap (doFree : Bool) (s : Space) (page : ℕ) : ℕ → Space
  | 0 => s
  | count + 1 =>
      match s.table.leaf page with
      | none => uvmunmap doFree s (page + 1) count
      | some pte => uvmunmap doFree (s.clear doFree page pte) (page + 1) count

/-- `mem = kalloc()` and its mapping, as in `uvmalloc`, `uvmcopy` and `vmfault`; `mem` is given
back when the mapping fails. -/
def mapNew (s : Space) (page : ℕ) (r w x u : Bool) : Option (Space × Bool) :=
  match s.kmem.kalloc with
  | none => some (s, false)
  | some (mem, kmem) =>
      match mappages { s with kmem := kmem.lend mem } page ⟨mem, r, w, x, u⟩ with
      | none => none
      | some (after, true) => some (after, true)
      | some (after, false) => some ({ after with kmem := after.kmem.kfree mem }, false)

/-- The loop of `uvmalloc`; `start` is where it began. -/
def uvmallocFrom (start : ℕ) (w x : Bool) (s : Space) (page : ℕ) : ℕ → Option (Space × Bool)
  | 0 => some (s, true)
  | count + 1 =>
      match s.mapNew page true w x true with
      | none => none
      | some (after, true) => uvmallocFrom start w x after (page + 1) count
      | some (after, false) => some (uvmunmap true after start (page - start), false)

/-- The size is 0 when memory runs out. -/
def uvmalloc (s : Space) (oldsz newsz : ℕ) (w x : Bool) : Option (Space × ℕ) :=
  if newsz < oldsz then some (s, oldsz)
  else
    (uvmallocFrom (pages oldsz) w x s (pages oldsz) (pages newsz - pages oldsz)).map
      fun grown => (grown.1, if grown.2 then newsz else 0)

def uvmdealloc (s : Space) (oldsz newsz : ℕ) : Space × ℕ :=
  if newsz ≥ oldsz then (s, oldsz)
  else if pages newsz < pages oldsz then
    (uvmunmap true s (pages newsz) (pages oldsz - pages newsz), newsz)
  else (s, newsz)

/-- A leaf that is still there is a panic. -/
def freewalk (s : Space) : Option Kmem :=
  if s.table.leaves.entries.isEmpty then some (s.kmem.kfreeAll (s.table.frames)) else none

def uvmfree (s : Space) (sz : ℕ) : Option Kmem :=
  if sz > 0 then freewalk (uvmunmap true s 0 (pages sz)) else freewalk s

/-- The loop of `uvmcopy`: new pages for the pages of `old`, with the same flags. -/
def uvmcopyFrom (old : PageTable) (s : Space) (page : ℕ) : ℕ → Option (Space × Bool)
  | 0 => some (s, true)
  | count + 1 =>
      match old.leaf page with
      | none => uvmcopyFrom old s (page + 1) count
      | some pte =>
          match s.mapNew page pte.r pte.w pte.x pte.u with
          | none => none
          | some (after, true) => uvmcopyFrom old after (page + 1) count
          | some (after, false) => some (uvmunmap true after 0 page, false)

def uvmcopy (old : PageTable) (s : Space) (sz : ℕ) : Option (Space × Bool) :=
  uvmcopyFrom old s 0 (pages sz)

/-- The loop of `uvmshare`: the pages of `old` themselves. -/
def uvmshareFrom (old : PageTable) (s : Space) (page : ℕ) : ℕ → Option (Space × Bool)
  | 0 => some (s, true)
  | count + 1 =>
      match old.leaf page with
      | none => uvmshareFrom old s (page + 1) count
      | some pte =>
          match s.mappages page pte with
          | none => none
          | some (after, true) => uvmshareFrom old after (page + 1) count
          | some (after, false) => some (uvmunmap false after 0 page, false)

def uvmshare (old : PageTable) (s : Space) (sz : ℕ) : Option (Space × Bool) :=
  uvmshareFrom old s 0 (pages sz)

/-- `PTE_U` of one entry. -/
def uvmclear (s : Space) (page : ℕ) : Option Space :=
  match s.table.leaf page with
  | none => none
  | some pte => some (s.enter page { pte with u := false })

def vmfault (s : Space) (sz va : ℕ) : Option (Space × Bool) :=
  if va ≥ sz then some (s, false)
  else if s.table.leaf (va / PGSIZE) ≠ none then some (s, false)
  else s.mapNew (va / PGSIZE) true true false true

end Space

end OsLab.Kernel
