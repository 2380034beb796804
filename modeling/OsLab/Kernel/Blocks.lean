import OsLab.Kernel.Copy
import OsLab.Library.System

/-!
The blocks of files in `fs.c`: the bitmap of free blocks, the blocks of an inode, and reading,
writing and truncating its content. A block is what `bread` gives for it, and the copy of an
inode in memory and the one on disk are one record. A panic is an error of the function.
-/

namespace OsLab.Kernel.Blocks

open OsLab.Library

def BSIZE : ℕ := 1024

def NDIRECT : ℕ := 12

/-- `BSIZE / sizeof(uint)` -/
def NINDIRECT : ℕ := 256

def MAXFILE : ℕ := NDIRECT + NINDIRECT

/-- Bitmap bits in a block, `BSIZE*8`. -/
def BPB : ℕ := 8192

abbrev Block := ℕ → UInt8

/-- The fields of the superblock that `fs.c` reads here, laid out as `mkfs` does: the blocks of
the bitmap come last before the `nblocks` data blocks. `balloc` counts blocks in an `int`. -/
structure Superblock where
  size : ℕ
  nblocks : ℕ
  bmapstart : ℕ
  bitmap : bmapstart + size / BPB + 1 + nblocks = size
  int : size < 2147483648

/-- `addrs` has the `NDIRECT + 1` block numbers. -/
structure Inode where
  size : ℕ
  addrs : ℕ → ℕ

inductive Panic
  | freeingFreeBlock
  | bmapOutOfRange
  deriving DecidableEq

/-- `disk` has what `bread` gives. Where the buffer of a block was changed and never logged,
`unlogged` has what the block is without that change. -/
structure State where
  disk : ℕ → Block
  inode : ℕ → Inode
  unlogged : ℕ → Option Block

/-- `((uint*)data)[j]` -/
def word (data : Block) (j : ℕ) : ℕ :=
  (data (4 * j)).toNat + 256 * (data (4 * j + 1)).toNat + 65536 * (data (4 * j + 2)).toNat +
    16777216 * (data (4 * j + 3)).toNat

def setWord (data : Block) (j value : ℕ) : Block := fun k =>
  if k / 4 = j then UInt8.ofNat (value >>> (8 * (k % 4))) else data k

/-- `1 << (bi % 8)` -/
def mask (bi : ℕ) : UInt8 := UInt8.ofBitVec (BitVec.twoPow 8 (bi % 8))

def bit (data : Block) (bi : ℕ) : Bool := data (bi / 8) &&& mask bi != 0

def setBit (data : Block) (bi : ℕ) : Block :=
  Function.update data (bi / 8) (data (bi / 8) ||| mask bi)

def clearBit (data : Block) (bi : ℕ) : Block :=
  Function.update data (bi / 8) (data (bi / 8) &&& ~~~ mask bi)

namespace Superblock

def BBLOCK (sb : Superblock) (b : ℕ) : ℕ := b / BPB + sb.bmapstart

def datastart (sb : Superblock) : ℕ := sb.size - sb.nblocks

end Superblock

namespace State

variable (sb : Superblock)

/-- The buffer of a block is changed, and `log_write` makes the whole of it stay. -/
def write (s : State) (b : ℕ) (data : Block) : State :=
  { s with
    disk := Function.update s.disk b data
    unlogged := Function.update s.unlogged b none }

/-- The buffer of a block is changed, and released without `log_write`. -/
def leave (s : State) (b : ℕ) (data : Block) : State :=
  { s with
    disk := Function.update s.disk b data
    unlogged := Function.update s.unlogged b (some ((s.unlogged b).getD (s.disk b))) }

def recycle (s : State) (b : ℕ) : State :=
  { s with
    disk := Function.update s.disk b ((s.unlogged b).getD (s.disk b))
    unlogged := Function.update s.unlogged b none }

def setAddr (s : State) (i k addr : ℕ) : State :=
  { s with
    inode := Function.update s.inode i
      { s.inode i with addrs := Function.update (s.inode i).addrs k addr } }

def setSize (s : State) (i size : ℕ) : State :=
  { s with inode := Function.update s.inode i { s.inode i with size := size } }

def bzero (s : State) (bno : ℕ) : State := s.write bno fun _ => 0

/-- The two loops of `balloc` up to the first block that is free. -/
def findFree (s : State) : Option ℕ :=
  (List.range ((sb.size + BPB - 1) / BPB)).findSome? fun k =>
    ((List.range (min BPB (sb.size - k * BPB))).find? fun bi =>
      !bit (s.disk (sb.BBLOCK (k * BPB))) bi).map fun bi => k * BPB + bi

def balloc (s : State) : State × ℕ :=
  match s.findFree sb with
  | some b =>
      ((s.write (sb.BBLOCK b) (setBit (s.disk (sb.BBLOCK b)) (b % BPB))).bzero b, b)
  | none => (s, 0)

def bfree (s : State) (b : ℕ) : Except Panic State :=
  if bit (s.disk (sb.BBLOCK b)) (b % BPB) then
    .ok (s.write (sb.BBLOCK b) (clearBit (s.disk (sb.BBLOCK b)) (b % BPB)))
  else .error .freeingFreeBlock

/-- The address in an element of `ip->addrs`, allocated if necessary. -/
def bmapAddr (s : State) (i k : ℕ) : State × ℕ :=
  if (s.inode i).addrs k = 0 then
    let (t, addr) := s.balloc sb
    if addr = 0 then (t, 0) else (t.setAddr i k addr, addr)
  else (s, (s.inode i).addrs k)

/-- The address in an element of the indirect block `addr`. -/
def bmapEntry (s : State) (addr bn : ℕ) : State × ℕ :=
  if word (s.disk addr) bn = 0 then
    let (t, new) := s.balloc sb
    if new = 0 then (t, 0) else (t.write addr (setWord (t.disk addr) bn new), new)
  else (s, word (s.disk addr) bn)

def bmap (s : State) (i bn : ℕ) : Except Panic (State × ℕ) :=
  if bn < NDIRECT then .ok (s.bmapAddr sb i bn)
  else if bn - NDIRECT < NINDIRECT then
    let (t, addr) := s.bmapAddr sb i NDIRECT
    if addr = 0 then .ok (t, 0) else .ok (t.bmapEntry sb addr (bn - NDIRECT))
  else .error .bmapOutOfRange

/-- One turn of the first loop of `itrunc`. -/
def truncAddr (i : ℕ) (s : State) (k : ℕ) : Except Panic State :=
  if (s.inode i).addrs k = 0 then .ok s
  else do
    let t ← s.bfree sb ((s.inode i).addrs k)
    .ok (t.setAddr i k 0)

/-- One turn of the second loop of `itrunc`, over the indirect block `addr`. -/
def truncEntry (addr : ℕ) (s : State) (j : ℕ) : Except Panic State :=
  if word (s.disk addr) j = 0 then .ok s else s.bfree sb (word (s.disk addr) j)

def itrunc (s : State) (i : ℕ) : Except Panic State := do
  let s ← (List.range NDIRECT).foldlM (truncAddr sb i) s
  if (s.inode i).addrs NDIRECT = 0 then .ok (s.setSize i 0)
  else
    let t ← (List.range NINDIRECT).foldlM (truncEntry sb ((s.inode i).addrs NDIRECT)) s
    let u ← t.bfree sb ((s.inode i).addrs NDIRECT)
    .ok ((u.setAddr i NDIRECT 0).setSize i 0)

end State

/-! ### Reading and writing -/

/-- Where `either_copyin` copies from. -/
inductive Source
  | user (pages : SourcePages)
  | kernel (mem : ℕ → UInt8)

/-- Where `either_copyout` copies to. -/
inductive Target
  | user (pages : TargetPages)
  | kernel

def eitherCopyin (source : Source) (data : Block) (start src len : ℕ) : Block × Bool :=
  match source with
  | .user pages =>
      let (buffer, copied) := copyin pages (fun k : Fin BSIZE => data k) start src len
      (fun k => if inside : k < BSIZE then buffer ⟨k, inside⟩ else data k, copied)
  | .kernel mem =>
      (fun k =>
        if start ≤ k ∧ k < start + len then mem ((src + (k - start)) % 18446744073709551616)
        else data k, true)

def eitherCopyout (target : Target) (mem : ℕ → UInt8) (data : Block) (start dst len : ℕ) :
    (ℕ → UInt8) × Bool :=
  match target with
  | .user pages => copyout pages mem (fun k : Fin BSIZE => data k) start dst len
  | .kernel =>
      (fun va => if dst ≤ va ∧ va < dst + len then data (start + (va - dst)) else mem va, true)

namespace State

variable (sb : Superblock)

/-- The loop of `readi` from `tot` on; a turn reads at least a byte, so `n` turns are enough. -/
def readLoop (i : ℕ) (target : Target) (n : ℕ) :
    ℕ → State → (ℕ → UInt8) → ℕ → ℕ → ℕ → Except Panic (State × (ℕ → UInt8) × ℤ)
  | 0, s, mem, tot, _, _ => .ok (s, mem, tot)
  | fuel + 1, s, mem, tot, off, dst =>
      if tot < n then do
        let (s, addr) ← s.bmap sb i (off / BSIZE)
        if addr = 0 then .ok (s, mem, tot)
        else
          let m := min (n - tot) (BSIZE - off % BSIZE)
          match eitherCopyout target mem (s.disk addr) (off % BSIZE) dst m with
          | (mem, true) => readLoop i target n fuel s mem (tot + m) (off + m) (dst + m)
          | (mem, false) => .ok (s, mem, -1)
      else .ok (s, mem, tot)

/-- `off` and `n` are `uint`s, and so is their sum. -/
def readi (s : State) (i : ℕ) (target : Target) (mem : ℕ → UInt8) (dst off n : ℕ) :
    Except Panic (State × (ℕ → UInt8) × ℤ) :=
  if (s.inode i).size < off ∨ (off + n) % 4294967296 < off then .ok (s, mem, 0)
  else
    let n := if (s.inode i).size < off + n then (s.inode i).size - off else n
    readLoop sb i target n n s mem 0 off dst

/-- The loop of `writei`; it ends with `tot` and `off`. -/
def writeLoop (i : ℕ) (source : Source) (n : ℕ) :
    ℕ → State → ℕ → ℕ → ℕ → Except Panic (State × ℕ × ℕ)
  | 0, s, tot, off, _ => .ok (s, tot, off)
  | fuel + 1, s, tot, off, src =>
      if tot < n then do
        let (s, addr) ← s.bmap sb i (off / BSIZE)
        if addr = 0 then .ok (s, tot, off)
        else
          let m := min (n - tot) (BSIZE - off % BSIZE)
          match eitherCopyin source (s.disk addr) (off % BSIZE) src m with
          | (data, true) =>
              writeLoop i source n fuel (s.write addr data) (tot + m) (off + m)
                ((src + m) % 18446744073709551616)
          | (data, false) => .ok (s.leave addr data, tot, off)
      else .ok (s, tot, off)

def writei (s : State) (i : ℕ) (source : Source) (src off n : ℕ) : Except Panic (State × ℤ) :=
  if (s.inode i).size < off ∨ (off + n) % 4294967296 < off then .ok (s, -1)
  else if MAXFILE * BSIZE < off + n then .ok (s, -1)
  else do
    let (s, tot, off) ← writeLoop sb i source n n s 0 off src
    .ok (if (s.inode i).size < off then s.setSize i off else s, tot)

end State

end OsLab.Kernel.Blocks
