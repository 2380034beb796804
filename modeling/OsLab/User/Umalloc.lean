import OsLab.Library.Loop
import OsLab.Library.Spans
import OsLab.Library.System
import Mathlib.Data.Int.Notation

/-!
The allocator of `umalloc.c`. Free blocks are on a ring in the order of their addresses, which
starts at `base`; a block is freed into its place and joined with its neighbours.
-/

namespace OsLab.User.Umalloc

open OsLab.Library

/-- Addresses are bytes, and `ptr` and `size` the words of the header at an address, which has 16
bytes. A null `freep` is the allocator before its first call. The blocks that were returned and not
freed are in `live`, with the pointer and the bytes asked for, and what `sbrk` has given to
`morecore` in `core`. -/
structure Heap where
  ptr : ℕ → ℕ
  size : ℕ → ℕ
  freep : ℕ
  brk : ℕ
  live : List (ℕ × ℕ)
  core : List (ℕ × ℕ)

inductive Label
  | malloc (nbytes : ℕ) (granted : Bool)
  | free (ap : ℕ)
  | write (ptr size : ℕ → ℕ)
  | sbrk (n : ℕ)

def uint (x : ℕ) : ℕ := x % 4294967296

/-- The conversion of a `uint64` to an `int`. -/
def toInt (x : ℕ) : ℤ :=
  if uint x < 2147483648 then uint x else uint x - 4294967296

def nunits (nbytes : ℕ) : ℕ := uint ((nbytes + 16 - 1) / 16 + 1)

namespace Heap

def setPtr (s : Heap) (a v : ℕ) : Heap := { s with ptr := Function.update s.ptr a v }

def setSize (s : Heap) (a v : ℕ) : Heap := { s with size := Function.update s.size a v }

def stop (s : Heap) (a : ℕ) : ℕ := a + 16 * s.size a

/-- The block at `bp` belongs behind `p`: between `p` and the next one, or outside of the blocks
when `p` is the last one. -/
def belongs (s : Heap) (bp p : ℕ) : Bool :=
  (p < bp && bp < s.ptr p) || (s.ptr p ≤ p && (p < bp || bp < s.ptr p))

/-- The loop of `free`. -/
def search (s : Heap) (bp fuel : ℕ) : Option ℕ :=
  whileLoop (fun p => !s.belongs bp p) s.ptr fuel s.freep

def joinUpper (s : Heap) (bp p : ℕ) : Heap :=
  if s.stop bp = s.ptr p then
    let t := s.setSize bp (uint (s.size bp + s.size (s.ptr p)))
    t.setPtr bp (t.ptr (t.ptr p))
  else s.setPtr bp (s.ptr p)

def joinLower (s : Heap) (bp p : ℕ) : Heap :=
  if s.stop p = bp then
    let t := s.setSize p (uint (s.size p + s.size bp))
    t.setPtr p (t.ptr bp)
  else s.setPtr p bp

/-- The rest of `free`, behind the loop. -/
def place (s : Heap) (bp p : ℕ) : Heap :=
  { (s.joinUpper bp p).joinLower bp p with freep := p }

def free (s : Heap) (ap fuel : ℕ) : Option Heap :=
  (s.search (ap - 16) fuel).map (s.place (ap - 16))

/-- `sbrk` of the kernel: the old break, or nothing. Memory is given back without a question. -/
def sbrk (s : Heap) (n : ℤ) (granted : Bool) : Option (ℕ × Heap) :=
  if 0 < n ∧ granted = false then none
  else some (s.brk, if 0 ≤ s.brk + n then { s with brk := (s.brk + n).toNat } else s)

/-- `none` is a loop that needs more fuel, and the address 0 a refusal. -/
def morecore (s : Heap) (nu fuel : ℕ) (granted : Bool) : Option (Heap × ℕ) :=
  let nu := max nu 4096
  match s.sbrk (toInt (nu * 16)) granted with
  | none => some (s, 0)
  | some (hp, t) =>
      let t := { t.setSize hp nu with core := (hp, hp + 16 * nu) :: s.core }
      (t.free (hp + 16) fuel).map fun t => (t, t.freep)

/-- The block at `p` is used, the whole of it or its tail. -/
def take (s : Heap) (nunits prevp p : ℕ) : Heap × ℕ :=
  if s.size p = nunits then ({ s.setPtr prevp (s.ptr p) with freep := prevp }, p + 16)
  else
    let q := p + 16 * (s.size p - nunits)
    ({ (s.setSize p (s.size p - nunits)).setSize q nunits with freep := prevp }, q + 16)

/-- The loop of `malloc`. -/
def find (granted : Bool) (nunits : ℕ) : ℕ → Heap → ℕ → ℕ → Option (Heap × ℕ)
  | 0, _, _, _ => none
  | fuel + 1, s, prevp, p =>
      if nunits ≤ s.size p then some (s.take nunits prevp p)
      else if p = s.freep then
        match s.morecore nunits fuel granted with
        | none => none
        | some (t, p) => if p = 0 then some (t, 0) else find granted nunits fuel t p (t.ptr p)
      else find granted nunits fuel s p (s.ptr p)

/-- The first call makes a ring of `base` alone. -/
def init (base : ℕ) (s : Heap) : Heap :=
  if s.freep = 0 then { (s.setPtr base base).setSize base 0 with freep := base } else s

def malloc (base : ℕ) (s : Heap) (nbytes fuel : ℕ) (granted : Bool) : Option (Heap × ℕ) :=
  let t := s.init base
  find granted (nunits nbytes) fuel t t.freep (t.ptr t.freep)

/-- The header words of `a` share a byte with the block that was returned as `l`. -/
def Meets (a : ℕ) (l : ℕ × ℕ) : Prop := l.1 < a + 16 ∧ a < l.1 + l.2

def step (base fuel : ℕ) (s : Heap) : Label → Option Heap
  | .malloc nbytes granted => (s.malloc base nbytes fuel granted).map fun (t, ap) =>
      if ap = 0 then t else { t with live := (ap, nbytes) :: t.live }
  | .free ap => (s.free ap fuel).map fun t => { t with live := t.live.eraseP (·.1 = ap) }
  | .write ptr size => some { s with ptr := ptr, size := size }
  | .sbrk n => some { s with brk := s.brk + n }

end Heap

/-- How a program uses the allocator. It frees what it was given, writes into what it was given,
does not give memory back to the kernel and stays below 64 GiB, and does not ask for blocks whose
size in bytes is not an `int`. -/
def Disciplined (s : Heap) : Label → Prop
  | .malloc nbytes _ => nbytes ≤ 2147483616 ∧
      s.brk + 16 * max (nunits nbytes) 4096 ≤ 68719476736
  | .free ap => ∃ l ∈ s.live, l.1 = ap
  | .write ptr size => ∀ a, (∀ l ∈ s.live, ¬ Heap.Meets a l) → ptr a = s.ptr a ∧ size a = s.size a
  | .sbrk n => s.brk + n ≤ 68719476736

/-- The allocator is in the data of the program, below the break. -/
structure Boot (base : ℕ) (s : Heap) : Prop where
  positive : 0 < base
  freep : s.freep = 0
  brk : base + 16 ≤ s.brk ∧ s.brk ≤ 68719476736
  live : s.live = []
  core : s.core = []

def system (base : ℕ) : System Heap Label where
  init := Boot base
  step s label t := ∃ fuel, s.step base fuel label = some t

def disciplined (base : ℕ) : System Heap Label := (system base).restrict Disciplined

end OsLab.User.Umalloc
