import OsLab.Kernel.Blocks
import OsLab.Library.Checked
import OsLab.Library.Ownership
import Mathlib.Data.Nat.Bitwise
import Mathlib.Tactic.IntervalCases

/-!
The bitmap says exactly which blocks the inodes own. Every data block in use is one of the blocks
of one inode, once, through any reads, writes and truncations, and no panic is reached.
-/

namespace OsLab.Kernel.Blocks

open OsLab.Library

variable {i j k b c : ℕ}

/-! ### Words and bits of a block -/

theorem word_zero (j : ℕ) : word (fun _ => 0) j = 0 := rfl

theorem toNat_byte (value shift : ℕ) :
    (UInt8.ofNat (value >>> shift)).toNat = value / 2 ^ shift % 256 := by
  rw [UInt8.toNat_ofNat', Nat.shiftRight_eq_div_pow]

theorem word_setWord (data : Block) (j : ℕ) {value : ℕ} (bound : value < 4294967296) :
    word (setWord data j value) j = value := by
  have bytes : ∀ r < 4, (setWord data j value (4 * j + r)).toNat = value / 2 ^ (8 * r) % 256 := by
    intro r small
    rw [setWord, if_pos (by omega), toNat_byte]
    congr 3
    omega
  rw [word, show 4 * j = 4 * j + 0 from rfl, bytes 0 (by omega), bytes 1 (by omega),
    bytes 2 (by omega), bytes 3 (by omega)]
  norm_num
  omega

theorem word_setWord_of_ne (data : Block) {j k : ℕ} (other : k ≠ j) (value : ℕ) :
    word (setWord data j value) k = word data k := by
  have bytes : ∀ r < 4, setWord data j value (4 * k + r) = data (4 * k + r) := by
    intro r small
    rw [setWord, if_neg (by omega)]
  rw [word, word, show 4 * k = 4 * k + 0 from rfl, bytes 0 (by omega), bytes 1 (by omega),
    bytes 2 (by omega), bytes 3 (by omega)]

theorem and_mask (x : UInt8) (bi : ℕ) :
    (x &&& mask bi != 0) = x.toBitVec.getLsbD (bi % 8) := by
  have small : bi % 8 < 8 := Nat.mod_lt _ (by omega)
  rw [mask]
  generalize bi % 8 = r at small ⊢
  rw [Bool.eq_iff_iff, bne_iff_ne, ne_eq, ← UInt8.toBitVec_inj, UInt8.toBitVec_and]
  constructor
  · intro nonzero
    by_contra clear
    refine nonzero (BitVec.eq_of_getLsbD_eq fun t _ => ?_)
    by_cases same : t = r
    · subst t
      rw [BitVec.getLsbD_and, Bool.eq_false_iff.mpr clear, Bool.false_and]
      simp
    · simp [BitVec.getLsbD_twoPow, Ne.symm same]
  · intro on zero
    have found := congrArg (fun y => y.getLsbD r) zero
    simp only [BitVec.getLsbD_and, on, BitVec.getLsbD_twoPow] at found
    simp [small] at found

theorem bit_eq (data : Block) (bi : ℕ) :
    bit data bi = (data (bi / 8)).toBitVec.getLsbD (bi % 8) := and_mask _ _

theorem getLsbD_mask {bi bj : ℕ} (byte : bj / 8 = bi / 8) :
    (BitVec.twoPow 8 (bi % 8)).getLsbD (bj % 8) = decide (bj = bi) := by
  have small : bi % 8 < 8 := Nat.mod_lt _ (by omega)
  rw [BitVec.getLsbD_twoPow, decide_eq_true small, Bool.true_and]
  exact decide_eq_decide.mpr (by omega)

theorem bit_setBit (data : Block) (bi bj : ℕ) :
    bit (setBit data bi) bj = (bit data bj || decide (bj = bi)) := by
  rw [bit_eq, bit_eq, setBit, mask]
  by_cases byte : bj / 8 = bi / 8
  · rw [byte, Function.update_self, UInt8.toBitVec_or, BitVec.getLsbD_or, getLsbD_mask byte]
  · have other : bj ≠ bi := fun same => byte (by rw [same])
    rw [Function.update_of_ne byte, decide_eq_false other, Bool.or_false]

theorem bit_clearBit (data : Block) (bi bj : ℕ) :
    bit (clearBit data bi) bj = (bit data bj && !decide (bj = bi)) := by
  have small : bj % 8 < 8 := Nat.mod_lt _ (by omega)
  rw [bit_eq, bit_eq, clearBit, mask]
  by_cases byte : bj / 8 = bi / 8
  · rw [byte, Function.update_self, UInt8.toBitVec_and, BitVec.getLsbD_and, UInt8.toBitVec_not,
      BitVec.getLsbD_not, decide_eq_true small, Bool.true_and, getLsbD_mask byte]
  · have other : bj ≠ bi := fun same => byte (by rw [same])
    rw [Function.update_of_ne byte, decide_eq_false other, Bool.not_false, Bool.and_true]

/-! ### The bitmap -/

namespace Superblock

variable {sb : Superblock}

def Data (sb : Superblock) (b : ℕ) : Prop := sb.datastart ≤ b ∧ b < sb.size

theorem datastart_eq (sb : Superblock) :
    sb.datastart = sb.bmapstart + sb.size / BPB + 1 := by
  have layout := sb.bitmap
  unfold datastart
  unfold BPB at *
  omega

theorem BBLOCK_lt (sb : Superblock) (inside : b < sb.size) : sb.BBLOCK b < sb.datastart := by
  have below : b / BPB ≤ sb.size / BPB := Nat.div_le_div_right inside.le
  rw [datastart_eq, BBLOCK]
  omega

theorem BBLOCK_eq_iff : sb.BBLOCK b = sb.BBLOCK c ↔ b / BPB = c / BPB := Nat.add_right_cancel_iff

theorem Data.ne_BBLOCK (inside : sb.Data b) (size : c < sb.size) : b ≠ sb.BBLOCK c :=
  ne_of_gt ((sb.BBLOCK_lt size).trans_le inside.1)

theorem Data.ne_zero (inside : sb.Data b) : b ≠ 0 := by
  have start := inside.1
  rw [datastart_eq] at start
  exact Nat.ne_of_gt (Nat.lt_of_lt_of_le (Nat.succ_pos _) start)

theorem Data.lt_word (inside : sb.Data b) : b < 4294967296 := by
  have bound := sb.int
  have below := inside.2
  omega

end Superblock

namespace State

variable {sb : Superblock} {s t : State}

def used (sb : Superblock) (s : State) (b : ℕ) : Bool := bit (s.disk (sb.BBLOCK b)) (b % BPB)

@[simp] theorem disk_write (s : State) (b : ℕ) (data : Block) :
    (s.write b data).disk = Function.update s.disk b data := rfl

@[simp] theorem inode_write (s : State) (b : ℕ) (data : Block) :
    (s.write b data).inode = s.inode := rfl

theorem unlogged_write {data : Block} (changed : (s.write b data).unlogged c ≠ none) :
    c ≠ b ∧ s.unlogged c ≠ none := by
  by_cases same : c = b
  · simp [write, same] at changed
  · exact ⟨same, by simpa [write, same] using changed⟩

@[simp] theorem disk_setAddr (s : State) (i k addr : ℕ) : (s.setAddr i k addr).disk = s.disk := rfl

theorem addrs_setAddr (s : State) (i k addr : ℕ) :
    ((s.setAddr i k addr).inode i).addrs = Function.update (s.inode i).addrs k addr := by
  simp [setAddr]

theorem inode_setAddr (s : State) {i j : ℕ} (other : j ≠ i) (k addr : ℕ) :
    (s.setAddr i k addr).inode j = s.inode j := Function.update_of_ne other ..

theorem size_setAddr (s : State) (i k addr j : ℕ) :
    ((s.setAddr i k addr).inode j).size = (s.inode j).size := by
  by_cases same : j = i
  · subst same
    simp [setAddr]
  · rw [inode_setAddr s same]

@[simp] theorem disk_setSize (s : State) (i size : ℕ) : (s.setSize i size).disk = s.disk := rfl

theorem addrs_setSize (s : State) (i size j : ℕ) :
    ((s.setSize i size).inode j).addrs = (s.inode j).addrs := by
  by_cases same : j = i
  · subst same
    simp [setSize]
  · exact congrArg Inode.addrs (Function.update_of_ne same ..)

theorem inode_setSize (s : State) {i j : ℕ} (other : j ≠ i) (size : ℕ) :
    (s.setSize i size).inode j = s.inode j := Function.update_of_ne other ..

theorem size_setSize (s : State) (i size : ℕ) : ((s.setSize i size).inode i).size = size := by
  simp [setSize]

theorem used_congr (same : t.disk (sb.BBLOCK b) = s.disk (sb.BBLOCK b)) :
    t.used sb b = s.used sb b := by
  rw [used, used, same]

theorem used_write_data (inside : sb.Data b) (data : Block) (size : c < sb.size) :
    (s.write b data).used sb c = s.used sb c :=
  used_congr (Function.update_of_ne (inside.ne_BBLOCK size).symm _ _)

theorem mod_eq_iff (block : b / BPB = c / BPB) : b % BPB = c % BPB ↔ b = c := by
  have first := Nat.div_add_mod b BPB
  have second := Nat.div_add_mod c BPB
  rw [block] at first
  omega

theorem used_setBit (s : State) (b c : ℕ) :
    (s.write (sb.BBLOCK b) (setBit (s.disk (sb.BBLOCK b)) (b % BPB))).used sb c =
      (s.used sb c || decide (c = b)) := by
  rw [used, used, disk_write]
  by_cases block : c / BPB = b / BPB
  · have same : sb.BBLOCK c = sb.BBLOCK b := by rw [Superblock.BBLOCK_eq_iff, block]
    rw [same, Function.update_self, bit_setBit, decide_eq_decide.mpr (mod_eq_iff block)]
  · have other : sb.BBLOCK c ≠ sb.BBLOCK b := mt Superblock.BBLOCK_eq_iff.mp block
    have apart : c ≠ b := fun same => block (by rw [same])
    rw [Function.update_of_ne other, decide_eq_false apart, Bool.or_false]

theorem used_clearBit (s : State) (b c : ℕ) :
    (s.write (sb.BBLOCK b) (clearBit (s.disk (sb.BBLOCK b)) (b % BPB))).used sb c =
      (s.used sb c && !decide (c = b)) := by
  rw [used, used, disk_write]
  by_cases block : c / BPB = b / BPB
  · have same : sb.BBLOCK c = sb.BBLOCK b := by rw [Superblock.BBLOCK_eq_iff, block]
    rw [same, Function.update_self, bit_clearBit, decide_eq_decide.mpr (mod_eq_iff block)]
  · have other : sb.BBLOCK c ≠ sb.BBLOCK b := mt Superblock.BBLOCK_eq_iff.mp block
    have apart : c ≠ b := fun same => block (by rw [same])
    rw [Function.update_of_ne other, decide_eq_false apart, Bool.not_false, Bool.and_true]

theorem findFree_some (found : s.findFree sb = some b) :
    b < sb.size ∧ s.used sb b = false := by
  obtain ⟨k, -, inner⟩ := List.exists_of_findSome?_eq_some found
  obtain ⟨bi, first, rfl⟩ := Option.map_eq_some_iff.mp inner
  have free := List.find?_some first
  have inside := List.mem_range.mp (List.mem_of_find?_eq_some first)
  have small : bi < BPB := inside.trans_le (Nat.min_le_left ..)
  have block : sb.BBLOCK (k * BPB + bi) = sb.BBLOCK (k * BPB) := by
    unfold Superblock.BBLOCK BPB at *
    omega
  have offset : (k * BPB + bi) % BPB = bi := by
    unfold BPB at *
    omega
  refine ⟨by omega, ?_⟩
  rw [used, block, offset]
  simpa using free

theorem findFree_none (found : s.findFree sb = none) (inside : b < sb.size) :
    s.used sb b = true := by
  have block : b / BPB ∈ List.range ((sb.size + BPB - 1) / BPB) := by
    rw [List.mem_range]
    unfold BPB
    omega
  have inner := List.findSome?_eq_none_iff.mp found _ block
  have scanned := List.find?_eq_none.mp (Option.map_eq_none_iff.mp inner) (b % BPB) (by
    rw [List.mem_range]
    unfold BPB
    omega)
  have same : sb.BBLOCK (b / BPB * BPB) = sb.BBLOCK b := by
    unfold Superblock.BBLOCK BPB
    omega
  rw [same] at scanned
  simpa [used] using scanned

/-! ### What the inodes refer to -/

/-- The blocks of an inode: `addrs`, with the indirect block as number `NDIRECT`, and behind them
what the indirect block lists. -/
def slot (s : State) (i k : ℕ) : ℕ :=
  if k ≤ NDIRECT then (s.inode i).addrs k
  else if k ≤ MAXFILE ∧ (s.inode i).addrs NDIRECT ≠ 0 then
    word (s.disk ((s.inode i).addrs NDIRECT)) (k - NDIRECT - 1)
  else 0

def refs (s : State) : ℕ × ℕ → ℕ := fun ref => s.slot ref.1 ref.2

def Used (sb : Superblock) (s : State) (b : ℕ) : Prop := sb.Data b ∧ s.used sb b = true

def Full (sb : Superblock) (s : State) : Prop := ∀ b < sb.size, s.used sb b = true

structure Consistent (sb : Superblock) (s : State) : Prop where
  owns : Owns (Used sb s) s.refs
  reserved : ∀ b < sb.datastart, s.used sb b = true
  unlogged : ∀ b, s.unlogged b ≠ none → sb.Data b ∧ ∀ i, s.slot i NDIRECT ≠ b

theorem slot_addr (low : k ≤ NDIRECT) : s.slot i k = (s.inode i).addrs k := if_pos low

theorem slot_entry (low : k < NINDIRECT) (indirect : s.slot i NDIRECT ≠ 0) :
    s.slot i (NDIRECT + 1 + k) = word (s.disk (s.slot i NDIRECT)) k := by
  rw [slot_addr le_rfl] at indirect ⊢
  have bounds : ¬ NDIRECT + 1 + k ≤ NDIRECT ∧ NDIRECT + 1 + k ≤ MAXFILE := by
    unfold MAXFILE
    omega
  rw [slot, if_neg bounds.1, if_pos ⟨bounds.2, indirect⟩]
  congr 1
  omega

theorem slot_eq_zero (high : NDIRECT < k) (none : s.slot i NDIRECT = 0) : s.slot i k = 0 := by
  rw [slot_addr le_rfl] at none
  rw [slot, if_neg (by omega), if_neg (fun both => both.2 none)]

theorem slot_congr (inode : (t.inode i).addrs = (s.inode i).addrs)
    (indirect : s.slot i NDIRECT ≠ 0 → t.disk (s.slot i NDIRECT) = s.disk (s.slot i NDIRECT))
    (k : ℕ) : t.slot i k = s.slot i k := by
  rw [slot_addr le_rfl] at indirect
  unfold slot
  rw [inode]
  split
  · rfl
  · split
    · rename_i both
      rw [indirect both.2]
    · rfl

theorem Consistent.data (consistent : Consistent sb s) (some : s.slot i k ≠ 0) :
    sb.Data (s.slot i k) := (consistent.owns.live (i, k) some).1

theorem Consistent.inUse (consistent : Consistent sb s) (some : s.slot i k ≠ 0) :
    s.used sb (s.slot i k) = true := (consistent.owns.live (i, k) some).2

theorem Consistent.apart (consistent : Consistent sb s) {l : ℕ} (some : s.slot i k ≠ 0)
    (same : s.slot i k = s.slot j l) : i = j ∧ k = l :=
  Prod.mk.inj (consistent.owns.apart (i, k) (j, l) some same)

/-! ### Allocation -/

structure Takes (sb : Superblock) (s t : State) (b : ℕ) : Prop where
  data : sb.Data b
  free : s.used sb b = false
  used : ∀ c < sb.size, t.used sb c = (s.used sb c || decide (c = b))
  inode : t.inode = s.inode
  zero : t.disk b = fun _ => 0
  kept : ∀ c, sb.Data c → c ≠ b → t.disk c = s.disk c
  unlogged : ∀ c, t.unlogged c ≠ none → c ≠ b ∧ s.unlogged c ≠ none

theorem balloc_cases (consistent : Consistent sb s) :
    (∃ t b, s.balloc sb = (t, b) ∧ Takes sb s t b) ∨ s.balloc sb = (s, 0) ∧ Full sb s := by
  unfold balloc
  split
  · rename_i b found
    obtain ⟨inside, free⟩ := findFree_some found
    have data : sb.Data b := by
      refine ⟨?_, inside⟩
      by_contra below
      rw [consistent.reserved b (by omega)] at free
      cases free
    refine .inl ⟨_, b, rfl, data, free, fun c size => ?_, rfl, Function.update_self ..,
      fun c area other => ?_, fun c changed => ?_⟩
    · rw [bzero, used_write_data data _ size, used_setBit]
    · rw [bzero, disk_write, Function.update_of_ne other, disk_write,
        Function.update_of_ne (area.ne_BBLOCK inside)]
    · obtain ⟨other, before⟩ := unlogged_write changed
      exact ⟨other, (unlogged_write before).2⟩
  · rename_i found
    exact .inr ⟨rfl, fun b inside => findFree_none found inside⟩

theorem Takes.ne_slot (takes : Takes sb s t b) (consistent : Consistent sb s)
    (some : s.slot i k ≠ 0) : s.slot i k ≠ b := by
  intro same
  have free := takes.free
  rw [← same, consistent.inUse some] at free
  cases free

theorem Takes.refs (takes : Takes sb s t b) (consistent : Consistent sb s) : t.refs = s.refs := by
  funext ⟨i, k⟩
  exact slot_congr (by rw [takes.inode]) (fun some => takes.kept _ (consistent.data some)
    (takes.ne_slot consistent some)) k

theorem Takes.owns (takes : Takes sb s t b) (consistent : Consistent sb s)
    (none : s.slot i k = 0) :
    Owns (Used sb t) (Function.update s.refs (i, k) b) := by
  have free : ¬ Used sb s b := fun taken => by
    have free := takes.free
    rw [taken.2] at free
    cases free
  have assigned : Owns _ (Function.update s.refs (i, k) b) :=
    consistent.owns.assign free takes.data.ne_zero none
  refine assigned.congr fun c => ?_
  constructor
  · rintro ⟨data, taken⟩
    rw [takes.used c data.2, Bool.or_eq_true, decide_eq_true_eq] at taken
    exact taken.imp_left fun before => ⟨data, before⟩
  · rintro (⟨data, taken⟩ | rfl)
    · exact ⟨data, by rw [takes.used c data.2, taken, Bool.true_or]⟩
    · exact ⟨takes.data, by rw [takes.used c takes.data.2, decide_eq_true rfl, Bool.or_true]⟩

structure Extends (sb : Superblock) (s t : State) : Prop where
  consistent : Consistent sb t
  size : ∀ j, (t.inode j).size = (s.inode j).size
  slot : ∀ j k, s.slot j k ≠ 0 → t.slot j k = s.slot j k
  kept : ∀ j k, s.slot j k ≠ 0 → k ≠ NDIRECT → t.disk (s.slot j k) = s.disk (s.slot j k)
  unlogged : ∀ c, t.unlogged c ≠ none → s.unlogged c ≠ none

theorem Extends.refl (consistent : Consistent sb s) : Extends sb s s :=
  ⟨consistent, fun _ => rfl, fun _ _ _ => rfl, fun _ _ _ _ => rfl, fun _ changed => changed⟩

theorem Extends.trans {u : State} (first : Extends sb s t) (second : Extends sb t u) :
    Extends sb s u where
  consistent := second.consistent
  size j := (second.size j).trans (first.size j)
  slot j k some := by
    have same := first.slot j k some
    rw [second.slot j k (same ▸ some), same]
  kept j k some content := by
    have same := first.slot j k some
    have step := second.kept j k (same ▸ some) content
    rw [same] at step
    exact step.trans (first.kept j k some content)
  unlogged c changed := first.unlogged c (second.unlogged c changed)

theorem Takes.extends (takes : Takes sb s t b) (consistent : Consistent sb s) {u : State}
    (none : s.slot i k = 0) (disk : ∀ c < sb.size, u.used sb c = t.used sb c)
    (refs : u.refs = Function.update s.refs (i, k) b)
    (size : ∀ j, (u.inode j).size = (t.inode j).size)
    (kept : ∀ j l, s.slot j l ≠ 0 → l ≠ NDIRECT → u.disk (s.slot j l) = t.disk (s.slot j l))
    (unlogged : ∀ c, u.unlogged c ≠ Option.none → t.unlogged c ≠ Option.none) :
    Extends sb s u where
  consistent := by
    refine ⟨?_, fun c below => ?_, fun c changed => ?_⟩
    · rw [refs]
      refine (takes.owns consistent none).congr fun c => and_congr_right fun data => ?_
      rw [disk c data.2]
    · have inside : c < sb.size := below.trans_le (Nat.sub_le ..)
      rw [disk c inside, takes.used c inside, consistent.reserved c below, Bool.true_or]
    · obtain ⟨other, before⟩ := takes.unlogged c (unlogged c changed)
      obtain ⟨data, apart⟩ := consistent.unlogged c before
      refine ⟨data, fun j => ?_⟩
      refine (congrFun refs (j, NDIRECT)).trans_ne ?_
      by_cases here : (j, NDIRECT) = (i, k)
      · rw [here, Function.update_self]
        exact other.symm
      · rw [Function.update_of_ne here]
        exact apart j
  size j := by rw [size, takes.inode]
  slot j l some := by
    refine (congrFun refs (j, l)).trans (Function.update_of_ne ?_ ..)
    rintro ⟨⟩
    exact some none
  kept j l some content := (kept j l some content).trans
    (takes.kept _ (consistent.data some) (takes.ne_slot consistent some))
  unlogged c changed := (takes.unlogged c (unlogged c changed)).2

theorem slot_setAddr_of_ne (s : State) (other : j ≠ i) (k addr l : ℕ) :
    (s.setAddr i k addr).slot j l = s.slot j l := by
  unfold slot
  rw [inode_setAddr s other, disk_setAddr]

theorem slot_setAddr_direct (s : State) (i addr : ℕ) (direct : k < NDIRECT) :
    (s.setAddr i k addr).refs = Function.update s.refs (i, k) addr := by
  funext ⟨j, l⟩
  by_cases same : j = i
  · subst same
    by_cases here : l = k
    · subst here
      rw [Function.update_self, refs, slot_addr direct.le, addrs_setAddr, Function.update_self]
    · rw [Function.update_of_ne (fun same => here (Prod.mk.inj same).2), refs, refs]
      unfold slot
      rw [addrs_setAddr, Function.update_of_ne here, Function.update_of_ne direct.ne',
        disk_setAddr]
  · rw [Function.update_of_ne (fun pair => same (Prod.mk.inj pair).1)]
    exact slot_setAddr_of_ne s same k addr l

theorem slot_setAddr_indirect (s : State) (i : ℕ) (none : s.slot i NDIRECT = 0)
    (zero : s.disk b = fun _ => 0) :
    (s.setAddr i NDIRECT b).refs = Function.update s.refs (i, NDIRECT) b := by
  funext ⟨j, l⟩
  by_cases same : j = i
  · subst same
    rcases Nat.lt_trichotomy l NDIRECT with low | rfl | high
    · rw [Function.update_of_ne (fun same => low.ne (Prod.mk.inj same).2), refs, refs,
        slot_addr low.le, slot_addr low.le, addrs_setAddr, Function.update_of_ne low.ne]
    · rw [Function.update_self, refs, slot_addr le_rfl, addrs_setAddr, Function.update_self]
    · rw [Function.update_of_ne (fun same => high.ne' (Prod.mk.inj same).2), refs, refs,
        slot_eq_zero high none]
      unfold slot
      rw [if_neg (by omega), addrs_setAddr, Function.update_self, disk_setAddr, zero, word_zero,
        ite_self]
  · rw [Function.update_of_ne (fun pair => same (Prod.mk.inj pair).1)]
    exact slot_setAddr_of_ne s same NDIRECT b l

theorem refs_setAddr (s : State) (i : ℕ) (low : k ≤ NDIRECT) (none : s.slot i k = 0)
    (zero : s.disk b = fun _ => 0) : (s.setAddr i k b).refs = Function.update s.refs (i, k) b := by
  rcases low.lt_or_eq with direct | rfl
  · exact slot_setAddr_direct s i b direct
  · exact slot_setAddr_indirect s i none zero

theorem bmapAddr_spec (consistent : Consistent sb s) (i : ℕ) (low : k ≤ NDIRECT) :
    ∃ t, s.bmapAddr sb i k = (t, t.slot i k) ∧ Extends sb s t ∧
      (t.slot i k = 0 → Full sb t) ∧ (s.slot i k ≠ 0 → t = s) := by
  unfold bmapAddr
  rw [← slot_addr low]
  split
  · rename_i none
    rcases balloc_cases consistent with ⟨mid, b, taken, takes⟩ | ⟨failed, full⟩
    · have set : (mid.setAddr i k b).slot i k = b := by
        rw [slot_addr low, addrs_setAddr, Function.update_self]
      refine ⟨mid.setAddr i k b, ?_, ?_, fun zero => ?_, fun some => absurd none some⟩
      · simp only [taken, if_neg takes.data.ne_zero, set]
      · refine takes.extends consistent none (fun _ _ => rfl) ?_ (size_setAddr mid i k b)
          (fun _ _ _ _ => rfl) fun _ changed => changed
        have same := takes.refs consistent
        rw [refs_setAddr mid i low ((congrFun same (i, k)).trans none) takes.zero, same]
      · exact absurd (set.symm.trans zero) takes.data.ne_zero
    · refine ⟨s, ?_, .refl consistent, fun _ => full, fun _ => rfl⟩
      simp only [failed, if_pos, none]
  · exact ⟨s, rfl, .refl consistent, fun zero => absurd zero ‹_›, fun _ => rfl⟩

theorem refs_setWord {addr : ℕ} (indirect : s.slot i NDIRECT = addr) (some : addr ≠ 0)
    (apart : ∀ j, s.slot j NDIRECT = addr → j = i) (low : k < NINDIRECT) (bound : b < 4294967296) :
    (s.write addr (setWord (s.disk addr) k b)).refs =
      Function.update s.refs (i, NDIRECT + 1 + k) b := by
  have here : (s.inode i).addrs NDIRECT = addr := by rw [← slot_addr le_rfl, indirect]
  funext ⟨j, l⟩
  by_cases same : j = i
  · subst same
    have kept : (s.write addr (setWord (s.disk addr) k b)).slot j NDIRECT = addr := by
      rw [slot_addr le_rfl, inode_write, here]
    by_cases changed : l = NDIRECT + 1 + k
    · rw [changed, Function.update_self, refs, slot_entry low (kept.trans_ne some), kept,
        disk_write, Function.update_self, word_setWord _ _ bound]
    · rw [Function.update_of_ne (fun same => changed (Prod.mk.inj same).2), refs, refs]
      simp only [slot, inode_write, here, disk_write, Function.update_self]
      split
      · rfl
      · rw [word_setWord_of_ne]
        omega
  · rw [Function.update_of_ne (fun pair => same (Prod.mk.inj pair).1)]
    have frame : (s.write addr (setWord (s.disk addr) k b)).disk (s.slot j NDIRECT) =
        s.disk (s.slot j NDIRECT) := Function.update_of_ne (fun equal => same (apart j equal)) _ _
    exact slot_congr (i := j) (s := s) (t := s.write addr _) rfl (fun _ => frame) l

theorem bmapEntry_spec (consistent : Consistent sb s) (low : k < NINDIRECT)
    (some : s.slot i NDIRECT ≠ 0) :
    ∃ t, s.bmapEntry sb (s.slot i NDIRECT) k = (t, t.slot i (NDIRECT + 1 + k)) ∧ Extends sb s t ∧
      (t.slot i (NDIRECT + 1 + k) = 0 → Full sb t) ∧ (s.slot i (NDIRECT + 1 + k) ≠ 0 → t = s) := by
  unfold bmapEntry
  rw [← slot_entry low some]
  split
  · rename_i none
    rcases balloc_cases consistent with ⟨mid, b, taken, takes⟩ | ⟨failed, full⟩
    · have same := takes.refs consistent
      have indirect : mid.slot i NDIRECT = s.slot i NDIRECT := congrFun same (i, NDIRECT)
      have data := consistent.data some
      have refs : (mid.write (s.slot i NDIRECT) (setWord (mid.disk (s.slot i NDIRECT)) k b)).refs =
          Function.update s.refs (i, NDIRECT + 1 + k) b := by
        rw [refs_setWord indirect some (fun j equal => ?_) low takes.data.lt_word, same]
        have equal' : s.slot i NDIRECT = s.slot j NDIRECT :=
          equal.symm.trans (congrFun same (j, NDIRECT))
        exact (consistent.apart some equal').1.symm
      have set : (mid.write (s.slot i NDIRECT)
          (setWord (mid.disk (s.slot i NDIRECT)) k b)).slot i (NDIRECT + 1 + k) = b :=
        (congrFun refs (i, NDIRECT + 1 + k)).trans (Function.update_self ..)
      refine ⟨_, ?_, takes.extends consistent none
        (fun c size => used_write_data (consistent.data some) _ size) refs (fun _ => rfl)
        (fun j l other content => ?_) fun c changed => (unlogged_write changed).2,
        fun zero => absurd (set.symm.trans zero) takes.data.ne_zero,
        fun some => absurd none some⟩
      · simp only [taken, if_neg takes.data.ne_zero, set]
      · exact Function.update_of_ne (fun equal => content (consistent.apart other equal).2) _ _
    · refine ⟨s, ?_, .refl consistent, fun _ => full, fun _ => rfl⟩
      simp only [failed, if_pos, none]
  · exact ⟨s, rfl, .refl consistent, fun zero => absurd zero ‹_›, fun _ => rfl⟩

def index (bn : ℕ) : ℕ := if bn < NDIRECT then bn else bn + 1

theorem index_ne (bn : ℕ) : index bn ≠ NDIRECT := by
  unfold index
  split <;> omega

theorem bmap_spec (consistent : Consistent sb s) (i : ℕ) {bn : ℕ} (inside : bn < MAXFILE) :
    ∃ t, s.bmap sb i bn = .ok (t, t.slot i (index bn)) ∧ Extends sb s t ∧
      (t.slot i (index bn) = 0 → Full sb t) ∧ (s.slot i (index bn) ≠ 0 → t = s) := by
  unfold bmap index
  split
  · rename_i direct
    obtain ⟨t, found, rest⟩ := bmapAddr_spec consistent i direct.le
    exact ⟨t, by rw [found], rest⟩
  · rename_i behind
    have low : bn - NDIRECT < NINDIRECT := by
      unfold MAXFILE at inside
      omega
    have number : bn + 1 = NDIRECT + 1 + (bn - NDIRECT) := by omega
    obtain ⟨mid, found, extended, full, same⟩ := bmapAddr_spec consistent i (le_refl NDIRECT)
    rw [if_pos low, found]
    by_cases none : mid.slot i NDIRECT = 0
    · have nothing : mid.slot i (bn + 1) = 0 := slot_eq_zero (by omega) none
      refine ⟨mid, ?_, extended, fun _ => full none, fun some => same fun none => some ?_⟩
      · rw [nothing]
        simp only [none, if_true]
      · exact slot_eq_zero (by omega) none
    · obtain ⟨t, entry, further, full, same'⟩ := bmapEntry_spec extended.consistent low none
      rw [← number] at entry full same'
      refine ⟨t, ?_, extended.trans further, full, fun some => ?_⟩
      · simp only [none, if_false, entry]
      · have indirect : s.slot i NDIRECT ≠ 0 := fun none => some (slot_eq_zero (by omega) none)
        obtain rfl := same indirect
        exact same' some

/-! ### Truncation -/

/-- Blocks of `s` have been freed; `rest` has the references that are left. -/
structure Freed (sb : Superblock) (s t : State) (rest : ℕ × ℕ → ℕ) : Prop where
  owns : Owns (Used sb t) rest
  reserved : ∀ b < sb.datastart, t.used sb b = true
  kept : ∀ c, sb.Data c → t.disk c = s.disk c
  unlogged : ∀ c, t.unlogged c ≠ none → s.unlogged c ≠ none

theorem Consistent.freed (consistent : Consistent sb s) : Freed sb s s s.refs :=
  ⟨consistent.owns, consistent.reserved, fun _ _ => rfl, fun _ changed => changed⟩

theorem Freed.bfree {rest : ℕ × ℕ → ℕ} (freed : Freed sb s t rest) {ref : ℕ × ℕ}
    (here : rest ref = b) (some : b ≠ 0) :
    ∃ u, t.bfree sb b = .ok u ∧ Freed sb s u (Function.update rest ref 0) ∧
      u.inode = t.inode := by
  obtain ⟨data, taken⟩ := freed.owns.live ref (here ▸ some)
  rw [here] at data taken
  have bits : ∀ c, (t.write (sb.BBLOCK b) (clearBit (t.disk (sb.BBLOCK b)) (b % BPB))).used sb c =
      (t.used sb c && !decide (c = b)) := used_clearBit t b
  refine ⟨_, if_pos taken, ⟨?_, fun c below => ?_, fun c area => ?_,
    fun c changed => freed.unlogged c (unlogged_write changed).2⟩, rfl⟩
  · refine (freed.owns.drop (here ▸ some)).congr fun c => ?_
    rw [Used, Used, bits, here, Bool.and_eq_true, Bool.not_eq_true', decide_eq_false_iff_not,
      and_assoc]
  · have other : c ≠ b := (below.trans_le data.1).ne
    rw [bits, freed.reserved c below, decide_eq_false other]
    rfl
  · exact (Function.update_of_ne (area.ne_BBLOCK data.2) _ _).trans (freed.kept c area)

def without (s : State) (i : ℕ) (gone : ℕ → Prop) [DecidablePred gone] : ℕ × ℕ → ℕ := fun ref =>
  if ref.1 = i ∧ gone ref.2 then 0 else s.refs ref

section Without

variable {gone after : ℕ → Prop} [DecidablePred gone] [DecidablePred after]

theorem without_of_not (stays : ¬ gone k) : s.without i gone (i, k) = s.slot i k :=
  if_neg fun both => stays both.2

theorem without_update (more : ∀ l, after l ↔ gone l ∨ l = k) :
    Function.update (s.without i gone) (i, k) 0 = s.without i after := by
  funext ⟨j, l⟩
  by_cases here : (j, l) = (i, k)
  · obtain ⟨rfl, rfl⟩ := Prod.mk.inj here
    rw [Function.update_self, without, if_pos ⟨rfl, (more _).mpr (.inr rfl)⟩]
  · rw [Function.update_of_ne here, without, without]
    refine if_congr (and_congr_right fun same => ?_) rfl rfl
    have other : l ≠ k := fun equal => here (Prod.ext same equal)
    rw [more, or_iff_left other]

theorem without_congr (same : ∀ l, s.slot i l ≠ 0 → (gone l ↔ after l)) :
    s.without i gone = s.without i after := by
  funext ⟨j, l⟩
  simp only [without, refs]
  by_cases here : j = i
  · subst here
    by_cases none : s.slot j l = 0
    · simp [none]
    · simp only [same l none]
  · simp [here]

theorem Freed.next (freed : Freed sb s t (s.without i gone)) (after : ℕ → Prop)
    [DecidablePred after] (more : ∀ l, after l ↔ gone l ∨ l = k) (stays : ¬ gone k) :
    (s.slot i k = 0 → Freed sb s t (s.without i after)) ∧
      (s.slot i k ≠ 0 → ∃ u, t.bfree sb (s.slot i k) = .ok u ∧
        Freed sb s u (s.without i after) ∧ u.inode = t.inode) := by
  constructor
  · intro none
    have same : s.without i gone = s.without i after := without_congr fun l some => by
      rw [more, or_iff_left]
      rintro rfl
      exact some none
    exact same ▸ freed
  · intro some
    obtain ⟨u, ran, rest, inode⟩ := freed.bfree (without_of_not stays) some
    exact ⟨u, ran, without_update more ▸ rest, inode⟩

end Without

structure DirectFreed (sb : Superblock) (s : State) (i k : ℕ) (t : State) : Prop where
  freed : Freed sb s t (s.without i fun l => l < k)
  addrs : ∀ l, (t.inode i).addrs l = if l < k then 0 else (s.inode i).addrs l
  others : ∀ j, j ≠ i → t.inode j = s.inode j

theorem DirectFreed.step (inv : DirectFreed sb s i k t) (direct : k < NDIRECT) :
    ∃ u, truncAddr sb i t k = .ok u ∧ DirectFreed sb s i (k + 1) u := by
  have here : (t.inode i).addrs k = s.slot i k := by
    rw [inv.addrs, if_neg (lt_irrefl k), slot_addr direct.le]
  obtain ⟨absent, present⟩ := inv.freed.next (fun l => l < k + 1)
    (fun l => Nat.lt_succ_iff_lt_or_eq) (lt_irrefl k)
  rw [truncAddr, here]
  split
  · rename_i none
    refine ⟨t, rfl, absent none, fun l => ?_, inv.others⟩
    rw [inv.addrs]
    by_cases same : l = k
    · rw [same, if_neg (lt_irrefl k), if_pos (Nat.lt_succ_self k), ← slot_addr direct.le, none]
    · exact if_congr (by omega) rfl rfl
  · rename_i some
    obtain ⟨u, ran, freed, inode⟩ := present some
    refine ⟨u.setAddr i k 0, by rw [ran]; rfl,
      ⟨freed.owns, freed.reserved, freed.kept, freed.unlogged⟩,
      fun l => ?_, fun j other => ?_⟩
    · rw [addrs_setAddr, inode]
      by_cases same : l = k
      · rw [same, Function.update_self, if_pos (Nat.lt_succ_self k)]
      · rw [Function.update_of_ne same, inv.addrs]
        exact if_congr (by omega) rfl rfl
    · rw [inode_setAddr u other, inode, inv.others j other]

def Listed (k l : ℕ) : Prop := l < NDIRECT ∨ NDIRECT < l ∧ l ≤ NDIRECT + k

instance (k : ℕ) : DecidablePred (Listed k) := fun _ => inferInstanceAs (Decidable (_ ∨ _))

theorem truncEntry_step (consistent : Consistent sb s) (low : k < NINDIRECT)
    (some : s.slot i NDIRECT ≠ 0) (freed : Freed sb s t (s.without i (Listed k))) :
    ∃ u, truncEntry sb (s.slot i NDIRECT) t k = .ok u ∧
      Freed sb s u (s.without i (Listed (k + 1))) ∧ u.inode = t.inode := by
  have here : word (t.disk (s.slot i NDIRECT)) k = s.slot i (NDIRECT + 1 + k) := by
    rw [freed.kept _ (consistent.data some), slot_entry low some]
  obtain ⟨absent, present⟩ := freed.next (k := NDIRECT + 1 + k) (Listed (k + 1))
    (fun l => by unfold Listed; omega) (by unfold Listed; omega)
  rw [truncEntry, here]
  split
  · exact ⟨t, rfl, absent ‹_›, rfl⟩
  · exact present ‹_›

structure Truncated (sb : Superblock) (s t : State) (i : ℕ) : Prop where
  consistent : Consistent sb t
  empty : ∀ k, t.slot i k = 0
  size : (t.inode i).size = 0
  inode : ∀ j, j ≠ i → t.inode j = s.inode j
  slot : ∀ j, j ≠ i → ∀ k, t.slot j k = s.slot j k
  kept : ∀ c, sb.Data c → t.disk c = s.disk c
  unlogged : ∀ c, t.unlogged c ≠ none → s.unlogged c ≠ none

theorem Freed.truncated (consistent : Consistent sb s) {gone : ℕ → Prop} [DecidablePred gone]
    (freed : Freed sb s t (s.without i gone)) (all : ∀ k, s.slot i k ≠ 0 → gone k) {u : State}
    (disk : u.disk = t.disk) (changes : u.unlogged = t.unlogged)
    (empty : ∀ k, k ≤ NDIRECT → (u.inode i).addrs k = 0)
    (size : (u.inode i).size = 0) (others : ∀ j, j ≠ i → u.inode j = s.inode j) :
    Truncated sb s u i := by
  have none : ∀ k, u.slot i k = 0 := by
    intro k
    rcases Nat.lt_or_ge NDIRECT k with high | low
    · exact slot_eq_zero high ((slot_addr le_rfl).trans (empty NDIRECT le_rfl))
    · exact (slot_addr low).trans (empty k low)
  have kept : ∀ c, sb.Data c → u.disk c = s.disk c := by
    intro c data
    rw [disk, freed.kept c data]
  have slot : ∀ j, j ≠ i → ∀ k, u.slot j k = s.slot j k := fun j other k =>
    slot_congr (by rw [others j other]) (fun some => kept _ (consistent.data some)) k
  have refs : u.refs = s.without i gone := by
    funext ⟨j, k⟩
    by_cases same : j = i
    · subst same
      rw [State.refs, none]
      by_cases unused : s.slot j k = 0
      · rw [without, State.refs, unused, ite_self]
      · rw [without, if_pos ⟨rfl, all k unused⟩]
    · rw [without, if_neg fun both => same both.1]
      exact slot j same k
  have used : ∀ c, u.used sb c = t.used sb c := fun c => used_congr (by rw [disk])
  refine ⟨⟨?_, fun b below => (used b).trans (freed.reserved b below), fun b changed => ?_⟩, none,
    size, others, slot, kept, fun c changed => freed.unlogged c (changes ▸ changed)⟩
  · rw [refs]
    exact freed.owns.congr fun c => by rw [Used, Used, used]
  · obtain ⟨data, apart⟩ := consistent.unlogged b (freed.unlogged b (changes ▸ changed))
    refine ⟨data, fun j => ?_⟩
    by_cases same : j = i
    · rw [same, none]
      exact data.ne_zero.symm
    · rw [slot j same]
      exact apart j

theorem itrunc_spec (consistent : Consistent sb s) (i : ℕ) :
    ∃ t, s.itrunc sb i = .ok t ∧ Truncated sb s t i := by
  have start : DirectFreed sb s i 0 s := by
    refine ⟨?_, fun _ => rfl, fun _ _ => rfl⟩
    have same : s.refs = s.without i fun l => l < 0 := by
      funext ref
      exact (if_neg fun both => Nat.not_lt_zero _ both.2).symm
    exact same ▸ consistent.freed
  obtain ⟨mid, ran, inv⟩ := foldlM_range (DirectFreed sb s i) start NDIRECT
    fun k t direct inv => inv.step direct
  have indirect : (mid.inode i).addrs NDIRECT = s.slot i NDIRECT := by
    rw [inv.addrs, if_neg (lt_irrefl _), slot_addr le_rfl]
  have direct : ∀ k, k < NDIRECT → (mid.inode i).addrs k = 0 := by
    intro k low
    rw [inv.addrs, if_pos low]
  simp only [itrunc, ran, bind, Except.bind, indirect]
  split
  · rename_i none
    refine ⟨_, rfl, inv.freed.truncated consistent (fun k some => ?_) rfl rfl (fun k low => ?_) ?_
      fun j other => ?_⟩
    · by_contra behind
      rcases Nat.lt_or_ge NDIRECT k with high | low
      · exact some (slot_eq_zero high none)
      · obtain rfl : k = NDIRECT := by omega
        exact some none
    · rw [addrs_setSize]
      rcases low.lt_or_eq with low | rfl
      · exact direct k low
      · exact indirect.trans none
    · exact size_setSize mid i 0
    · rw [inode_setSize mid other, inv.others j other]
  · rename_i some
    have listed : s.without i (fun l => l < NDIRECT) = s.without i (Listed 0) := by
      refine without_congr fun l _ => ?_
      unfold Listed
      omega
    obtain ⟨late, ran', freed, inode⟩ := foldlM_range
      (fun k t => Freed sb s t (s.without i (Listed k)) ∧ t.inode = mid.inode)
      ⟨listed ▸ inv.freed, rfl⟩ NINDIRECT fun k t low before => by
        obtain ⟨u, ran, freed, inode⟩ := truncEntry_step consistent low some before.1
        exact ⟨u, ran, freed, inode.trans before.2⟩
    have left : s.without i (Listed NINDIRECT) (i, NDIRECT) = s.slot i NDIRECT :=
      without_of_not (by unfold Listed; omega)
    obtain ⟨u, ran'', rest, same⟩ := freed.bfree left some
    have all : Function.update (s.without i (Listed NINDIRECT)) (i, NDIRECT) 0 =
        s.without i fun l => l ≤ MAXFILE := without_update fun l => by
      unfold Listed MAXFILE NDIRECT NINDIRECT
      omega
    simp only [ran', ran'']
    refine ⟨_, rfl, (all ▸ rest).truncated consistent (fun k some => ?_) rfl rfl (fun k low => ?_) ?_
      fun j other => ?_⟩
    · by_contra behind
      refine some ?_
      rw [slot, if_neg, if_neg fun both => behind both.1]
      unfold MAXFILE at behind
      omega
    · rw [addrs_setSize, addrs_setAddr]
      rcases low.lt_or_eq with low | rfl
      · rw [Function.update_of_ne low.ne, same, inode, direct k low]
      · exact Function.update_self ..
    · exact size_setSize _ i 0
    · rw [inode_setSize _ other, inode_setAddr _ other, same, inode, inv.others j other]

end State

end OsLab.Kernel.Blocks
