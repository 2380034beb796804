import OsLab.Kernel.BlocksSafety
import OsLab.Library.Refinement

/-!
Files as sequences of bytes. `readi` gives the bytes of the file that it is asked for, `writei`
and `itrunc` change the file as a sequence of bytes would be changed, and neither of them touches
any other file.
-/

namespace OsLab.Kernel.Blocks

open OsLab.Library

variable {i j k b c : ℕ} {source : Source} {target : Target} {src dst off len n : ℕ}

def Source.byte (source : Source) (va : ℕ) : Option UInt8 :=
  match source with
  | .user pages => userByte pages (va % 18446744073709551616)
  | .kernel mem => some (mem (va % 18446744073709551616))

theorem Source.byte_mod (source : Source) (va k : ℕ) :
    source.byte (va % 18446744073709551616 + k) = source.byte (va + k) := by
  have same : (va % 18446744073709551616 + k) % 18446744073709551616 =
      (va + k) % 18446744073709551616 := Nat.mod_add_mod va _ k
  cases source <;> simp only [byte, same]

theorem eitherCopyin_iff (source : Source) (data : Block) (start len : ℕ) (bound : src < 18446744073709551616) :
    (eitherCopyin source data start src len).2 = true ↔
      ∀ k < len, (source.byte (src + k)).isSome := by
  cases source with
  | user pages => exact copyin_succeeds_iff pages _ start src len (by norm_num; exact bound)
  | kernel mem => simp [eitherCopyin, Source.byte]

theorem eitherCopyin_new (source : Source) (data : Block) (start len : ℕ) (bound : src < 18446744073709551616)
    (fits : start + len ≤ BSIZE) (copied : (eitherCopyin source data start src len).2 = true)
    (lower : start ≤ k) (upper : k < start + len) :
    source.byte (src + (k - start)) = some ((eitherCopyin source data start src len).1 k) := by
  cases source with
  | user pages =>
      have inside : k < BSIZE := by omega
      have found := copyin_bytes pages (fun k : Fin BSIZE => data k) start src len
        (by norm_num; exact bound) copied ⟨k, inside⟩
      rw [if_pos ⟨lower, upper⟩] at found
      simp only [eitherCopyin, inside, dif_pos, found]
      rfl
  | kernel mem => simp [eitherCopyin, Source.byte, lower, upper]

theorem eitherCopyin_or (source : Source) (data : Block) (start len : ℕ)
    (bound : src < 18446744073709551616) (k : ℕ) :
    (eitherCopyin source data start src len).1 k = data k ∨ start ≤ k ∧ k < start + len ∧
      source.byte (src + (k - start)) = some ((eitherCopyin source data start src len).1 k) := by
  cases source with
  | user pages =>
      by_cases inside : k < BSIZE
      · have found := copyin_or pages (fun k : Fin BSIZE => data k) start src len
          (by norm_num; exact bound) ⟨k, inside⟩
        simp only [eitherCopyin, inside, dif_pos]
        exact found
      · exact .inl (by simp only [eitherCopyin, inside, dif_neg, not_false_eq_true])
  | kernel mem =>
      by_cases inside : start ≤ k ∧ k < start + len
      · exact .inr ⟨inside.1, inside.2, by simp [eitherCopyin, Source.byte, inside]⟩
      · exact .inl (if_neg inside)

def Target.Writable (target : Target) (dst len : ℕ) : Prop :=
  match target with
  | .user pages => userWritable pages dst len
  | .kernel => True

theorem eitherCopyout_iff (target : Target) (dst len : ℕ) (mem : ℕ → UInt8) (data : Block)
    (start : ℕ) :
    (eitherCopyout target mem data start dst len).2 = true ↔ target.Writable dst len := by
  cases target with
  | user pages => exact copyout_succeeds_iff pages mem _ start dst len
  | kernel => simp [eitherCopyout, Target.Writable]

theorem eitherCopyout_bytes (target : Target) (dst len : ℕ) (mem : ℕ → UInt8) (data : Block)
    (start : ℕ) (fits : start + len ≤ BSIZE) (copied : (eitherCopyout target mem data start dst len).2 = true)
    (va : ℕ) : (eitherCopyout target mem data start dst len).1 va =
      if dst ≤ va ∧ va < dst + len then data (start + (va - dst)) else mem va := by
  cases target with
  | user pages =>
      refine (copyout_bytes pages mem (fun k : Fin BSIZE => data k) start dst len fits copied
        va).trans ?_
      split <;> rfl
  | kernel => rfl

theorem eitherCopyout_outside (target : Target) (dst len : ℕ) (mem : ℕ → UInt8) (data : Block)
    (start : ℕ) {va : ℕ} (outside : va < dst ∨ dst + len ≤ va) :
    (eitherCopyout target mem data start dst len).1 va = mem va := by
  cases target with
  | user pages => exact copyout_outside pages mem _ start dst len outside
  | kernel => exact if_neg (by omega)

theorem Target.writable_add {target : Target} {m : ℕ} :
    target.Writable dst (m + len) ↔ target.Writable dst m ∧ target.Writable (dst + m) len := by
  cases target with
  | user pages =>
      constructor
      · intro all
        refine ⟨fun k below => all k (by omega), fun k below => ?_⟩
        have there := all (m + k) (by omega)
        rwa [← Nat.add_assoc] at there
      · rintro ⟨first, second⟩ k below
        by_cases low : k < m
        · exact first k low
        · have there := second (k - m) (by omega)
          rwa [show dst + m + (k - m) = dst + k by omega] at there
  | kernel => simp [Target.Writable]

namespace State

variable {sb : Superblock} {s t : State}

def blockAt (s : State) (i pos : ℕ) : ℕ := s.slot i (index (pos / BSIZE))

def byte (s : State) (i pos : ℕ) : UInt8 := s.disk (s.blockAt i pos) (pos % BSIZE)

theorem Extends.blockAt (extended : Extends sb s t) {pos : ℕ} (some : s.blockAt i pos ≠ 0) :
    t.blockAt i pos = s.blockAt i pos := extended.slot i _ some

theorem Extends.byte (extended : Extends sb s t) {pos : ℕ} (some : s.blockAt i pos ≠ 0) :
    t.byte i pos = s.byte i pos := by
  rw [State.byte, State.byte, extended.blockAt some, State.blockAt,
    extended.kept i _ some (index_ne _)]

theorem index_injective : Function.Injective index := by
  intro a b same
  unfold index at same
  split at same <;> split at same <;> omega

theorem Consistent.content (consistent : Consistent sb s) (area : sb.Data b)
    (apart : ∀ j, s.slot j NDIRECT ≠ b) {data : Block} (inode : t.inode = s.inode)
    (disk : t.disk = (s.write b data).disk)
    (unlogged : ∀ c, t.unlogged c ≠ none → c = b ∨ s.unlogged c ≠ none) :
    Consistent sb t ∧ t.refs = s.refs := by
  have refs : t.refs = s.refs := by
    funext ⟨j, l⟩
    have frame : t.disk (s.slot j NDIRECT) = s.disk (s.slot j NDIRECT) :=
      disk ▸ Function.update_of_ne (apart j) _ _
    exact slot_congr (by rw [inode]) (fun _ => frame) l
  have used : ∀ c < sb.size, t.used sb c = s.used sb c := fun c inside =>
    (used_congr (by rw [disk])).trans (used_write_data area data inside)
  refine ⟨⟨?_, fun c below => ?_, fun c changed => ?_⟩, refs⟩
  · rw [refs]
    exact consistent.owns.congr fun c => and_congr_right fun inside => by rw [used c inside.2]
  · rw [used c (below.trans_le (Nat.sub_le ..))]
    exact consistent.reserved c below
  · have same : ∀ j, t.slot j NDIRECT = s.slot j NDIRECT := fun j => congrFun refs (j, NDIRECT)
    simp only [same]
    rcases unlogged c changed with rfl | before
    · exact ⟨area, apart⟩
    · exact consistent.unlogged c before

theorem Consistent.not_indirect (consistent : Consistent sb s) {pos : ℕ}
    (some : s.blockAt i pos ≠ 0) (j : ℕ) : s.slot j NDIRECT ≠ s.blockAt i pos := fun same =>
  index_ne _ (consistent.apart some same.symm).2

theorem Consistent.write (consistent : Consistent sb s) {pos : ℕ} (some : s.blockAt i pos ≠ 0)
    (data : Block) : Consistent sb (s.write (s.blockAt i pos) data) ∧
      (s.write (s.blockAt i pos) data).refs = s.refs :=
  consistent.content (consistent.data some) (consistent.not_indirect some) rfl rfl
    fun _ changed => .inr (unlogged_write changed).2

theorem Consistent.leave (consistent : Consistent sb s) {pos : ℕ} (some : s.blockAt i pos ≠ 0)
    (data : Block) : Consistent sb (s.leave (s.blockAt i pos) data) := by
  have disk : (s.leave (s.blockAt i pos) data).disk = (s.write (s.blockAt i pos) data).disk := rfl
  refine (consistent.content (t := s.leave _ data) (consistent.data some)
    (consistent.not_indirect some) rfl disk fun c changed => ?_).1
  by_cases same : c = s.blockAt i pos
  · exact .inl same
  · exact .inr (by simpa [State.leave, same] using changed)

theorem recycle_eq (logged : s.unlogged b = none) : s.recycle b = s := by
  have disk : Function.update s.disk b (s.disk b) = s.disk := Function.update_eq_self ..
  have same : Function.update s.unlogged b none = s.unlogged := by
    rw [← logged, Function.update_eq_self]
  rw [recycle, logged, Option.getD_none, disk, same]

theorem Consistent.recycle (consistent : Consistent sb s) (b : ℕ) :
    Consistent sb (s.recycle b) ∧ (s.recycle b).refs = s.refs := by
  by_cases logged : s.unlogged b = none
  · rw [recycle_eq logged]
    exact ⟨consistent, rfl⟩
  · obtain ⟨area, apart⟩ := consistent.unlogged b logged
    exact consistent.content area apart rfl rfl fun _ changed => .inr (unlogged_write changed).2

theorem byte_write (consistent : Consistent sb s) {pos : ℕ} (some : s.blockAt i pos ≠ 0)
    (data : Block) {q : ℕ} (mapped : s.blockAt j q ≠ 0) :
    (s.write (s.blockAt i pos) data).byte j q =
      if j = i ∧ q / BSIZE = pos / BSIZE then data (q % BSIZE) else s.byte j q := by
  have same : (s.write (s.blockAt i pos) data).blockAt j q = s.blockAt j q :=
    congrFun (consistent.write some data).2 (j, _)
  rw [byte, same, disk_write]
  split
  · rename_i here
    rw [show s.blockAt j q = s.blockAt i pos by rw [blockAt, here.1, here.2, blockAt],
      Function.update_self]
  · rename_i other
    rw [Function.update_of_ne, byte]
    intro equal
    obtain ⟨one, two⟩ := consistent.apart mapped equal
    exact other ⟨one, index_injective two⟩

/-! ### Writing -/

/-- What the loop of `writei` has done when it stops after `done` of `len` bytes. Where the bytes
to write cannot all be read, it may have changed more of the block in which it stops. -/
structure Wrote (sb : Superblock) (s t : State) (i : ℕ) (source : Source) (src off len done : ℕ) :
    Prop where
  consistent : Consistent sb t
  size : ∀ j, (t.inode j).size = (s.inode j).size
  slot : ∀ j l, s.slot j l ≠ 0 → t.slot j l = s.slot j l
  mapped : ∀ k < done, t.blockAt i (off + k) ≠ 0
  new : ∀ k < done, source.byte (src + k) = some (t.byte i (off + k))
  stopped : done < len → Full sb t ∨ ∃ k < len, source.byte (src + k) = none
  old : ∀ j pos, s.blockAt j pos ≠ 0 → ¬ (j = i ∧ off ≤ pos ∧ pos < off + done) →
    t.byte j pos = s.byte j pos ∨
      (j = i ∧ off + done ≤ pos) ∧ ∃ k < len, source.byte (src + k) = none
  unlogged : ∀ c, t.unlogged c ≠ none →
    s.unlogged c ≠ none ∨ ∃ k < len, source.byte (src + k) = none

theorem Wrote.nothing (extended : Extends sb s t) (stopped : 0 < len → Full sb t) :
    Wrote sb s t i source src off len 0 where
  consistent := extended.consistent
  size := extended.size
  slot := extended.slot
  mapped k below := absurd below (Nat.not_lt_zero k)
  new k below := absurd below (Nat.not_lt_zero k)
  stopped short := .inl (stopped short)
  old _ _ some _ := .inl (extended.byte some)
  unlogged c changed := .inl (extended.unlogged c changed)

theorem same_block {off k len : ℕ} (below : k < min len (BSIZE - off % BSIZE)) :
    (off + k) / BSIZE = off / BSIZE ∧ (off + k) % BSIZE = off % BSIZE + k := by
  unfold BSIZE at *
  omega

section Chunk

variable {mid : State} {data : Block} {copied : Bool} (extended : Extends sb s mid)
  (some : mid.blockAt i off ≠ 0) (bound : src < 18446744073709551616)
  (read : eitherCopyin source (mid.disk (mid.blockAt i off)) (off % BSIZE) src
    (min len (BSIZE - off % BSIZE)) = (data, copied))

include extended some bound read

theorem byte_chunk {pos : ℕ} (mapped : s.blockAt j pos ≠ 0) :
    (mid.write (mid.blockAt i off) data).byte j pos = s.byte j pos ∨
      j = i ∧ off ≤ pos ∧ pos < off + min len (BSIZE - off % BSIZE) := by
  have here : mid.blockAt j pos ≠ 0 := extended.blockAt mapped ▸ mapped
  rw [byte_write extended.consistent some data here]
  split
  · rename_i same
    obtain ⟨rfl, block⟩ := same
    have found := eitherCopyin_or source (mid.disk (mid.blockAt j off)) (off % BSIZE)
      (min len (BSIZE - off % BSIZE)) bound (pos % BSIZE)
    rw [read] at found
    rcases found with old | ⟨lower, upper, -⟩
    · left
      refine old.trans ?_
      rw [← extended.byte mapped, byte, blockAt, blockAt, block]
    · right
      have first := Nat.div_add_mod pos BSIZE
      have second := Nat.div_add_mod off BSIZE
      rw [block] at first
      exact ⟨rfl, by omega, by omega⟩
  · exact .inl (extended.byte mapped)

theorem byte_new (all : copied = true) (below : k < min len (BSIZE - off % BSIZE)) :
    source.byte (src + k) =
      Option.some ((mid.write (mid.blockAt i off) data).byte i (off + k)) := by
  obtain ⟨block, place⟩ := same_block below
  have mapped : mid.blockAt i (off + k) ≠ 0 := by rwa [blockAt, block]
  rw [byte_write extended.consistent some data mapped, if_pos ⟨rfl, block⟩, place]
  have found := eitherCopyin_new source (mid.disk (mid.blockAt i off)) (off % BSIZE)
    (min len (BSIZE - off % BSIZE)) (k := off % BSIZE + k) bound (by unfold BSIZE; omega)
    (by rw [read]; exact all) (by omega) (by omega)
  rwa [read, Nat.add_sub_cancel_left] at found

theorem Wrote.torn (failed : copied = false) :
    Wrote sb s (mid.leave (mid.blockAt i off) data) i source src off len 0 := by
  obtain ⟨k, below, missing⟩ : ∃ k < len, source.byte (src + k) = none := by
    have refused : ¬ ∀ k < min len (BSIZE - off % BSIZE), (source.byte (src + k)).isSome := by
      rw [← eitherCopyin_iff source (mid.disk (mid.blockAt i off)) (off % BSIZE) _ bound, read]
      simp [failed]
    push Not at refused
    obtain ⟨k, below, missing⟩ := refused
    exact ⟨k, by omega, by simpa using missing⟩
  refine ⟨extended.consistent.leave some data, extended.size, fun j l set => ?_,
    fun k none => absurd none (Nat.not_lt_zero k), fun k none => absurd none (Nat.not_lt_zero k),
    fun _ => .inr ⟨k, below, missing⟩, fun j pos mapped _ => ?_,
    fun _ _ => .inr ⟨k, below, missing⟩⟩
  · -- what is read now does not depend on whether it was logged
    have same : (mid.leave (mid.blockAt i off) data).slot j l = mid.slot j l :=
      congrFun (extended.consistent.write some data).2 (j, l)
    exact same.trans (extended.slot j l set)
  · refine (byte_chunk extended some bound read mapped).imp_right ?_
    rintro ⟨rfl, lower, -⟩
    exact ⟨⟨rfl, lower⟩, k, below, missing⟩

theorem Wrote.chunk (all : copied = true) {done : ℕ}
    (rest : Wrote sb (mid.write (mid.blockAt i off) data) t i source
      ((src + min len (BSIZE - off % BSIZE)) % 18446744073709551616)
      (off + min len (BSIZE - off % BSIZE)) (len - min len (BSIZE - off % BSIZE)) done) :
    Wrote sb s t i source src off len (min len (BSIZE - off % BSIZE) + done) := by
  have slots : ∀ j l, mid.slot j l = (mid.write (mid.blockAt i off) data).slot j l := fun j l =>
    (congrFun (extended.consistent.write some data).2 (j, l)).symm
  have inside : ∀ k, k < min len (BSIZE - off % BSIZE) →
      (mid.write (mid.blockAt i off) data).blockAt i (off + k) ≠ 0 := by
    intro k below
    rwa [blockAt, (same_block below).1, ← slots]
  have beyond : ∀ k, off + (min len (BSIZE - off % BSIZE) + k) =
      off + min len (BSIZE - off % BSIZE) + k := fun k => (Nat.add_assoc ..).symm
  have later : ∀ k, source.byte ((src + min len (BSIZE - off % BSIZE)) % 18446744073709551616 + k) =
      source.byte (src + (min len (BSIZE - off % BSIZE) + k)) := fun k => by
    rw [Source.byte_mod, Nat.add_assoc]
  have missed : (∃ k < len - min len (BSIZE - off % BSIZE), source.byte
      ((src + min len (BSIZE - off % BSIZE)) % 18446744073709551616 + k) = none) →
      ∃ k < len, source.byte (src + k) = none := by
    rintro ⟨k, below, missing⟩
    rw [later] at missing
    exact ⟨_, by omega, missing⟩
  refine ⟨rest.consistent, fun j => (rest.size j).trans (extended.size j), fun j l set => ?_,
    fun k below => ?_, fun k below => ?_, fun short => (rest.stopped (by omega)).imp_right missed,
    fun j pos mapped outside => ?_, fun c changed => ?_⟩
  · have same := extended.slot j l set
    rw [rest.slot j l (by rwa [← slots, same]), ← slots, same]
  · rcases Nat.lt_or_ge k (min len (BSIZE - off % BSIZE)) with low | high
    · have block := inside k low
      rwa [blockAt, rest.slot i _ block]
    · have block := rest.mapped (k - min len (BSIZE - off % BSIZE)) (by omega)
      rwa [← beyond, Nat.add_sub_cancel' high] at block
  · rcases Nat.lt_or_ge k (min len (BSIZE - off % BSIZE)) with low | high
    · rw [byte_new extended some bound read all low]
      rcases rest.old i (off + k) (inside k low) (by omega) with same | ⟨⟨-, lower⟩, -⟩
      · rw [same]
      · omega
    · have found := rest.new (k - min len (BSIZE - off % BSIZE)) (by omega)
      rwa [later, ← beyond, Nat.add_sub_cancel' high] at found
  · have here : (mid.write (mid.blockAt i off) data).blockAt j pos ≠ 0 := by
      rwa [blockAt, ← slots, extended.slot j _ mapped]
    rcases rest.old j pos here (by omega) with same | ⟨⟨rfl, lower⟩, missing⟩
    · rw [same]
      refine .inl ((byte_chunk extended some bound read mapped).resolve_right ?_)
      rintro ⟨rfl, lower, upper⟩
      omega
    · exact .inr ⟨⟨rfl, by omega⟩, missed missing⟩
  · exact (rest.unlogged c changed).imp
      (fun before => extended.unlogged c (unlogged_write before).2) missed

end Chunk

theorem turn_pos (off : ℕ) {len : ℕ} (more : 0 < len) : 0 < min len (BSIZE - off % BSIZE) := by
  unfold BSIZE
  omega

theorem writeLoop_spec (i : ℕ) (source : Source) {n fuel tot : ℕ} (consistent : Consistent sb s)
    (bound : src < 18446744073709551616) (enough : n ≤ tot + fuel) (within : tot ≤ n)
    (fits : off + (n - tot) ≤ MAXFILE * BSIZE) :
    ∃ t done, writeLoop sb i source n fuel s tot off src = .ok (t, tot + done, off + done) ∧
      tot + done ≤ n ∧ Wrote sb s t i source src off (n - tot) done := by
  induction fuel generalizing s tot off src with
  | zero =>
      exact ⟨s, 0, rfl, within, .nothing (.refl consistent) fun short => by omega⟩
  | succ fuel ih =>
      rw [writeLoop]
      split
      · rename_i more
        have inside : off / BSIZE < MAXFILE := by
          unfold BSIZE at *
          omega
        obtain ⟨mid, found, extended, full, -⟩ := bmap_spec consistent i inside
        simp only [found, bind, Except.bind]
        split
        · rename_i none
          exact ⟨mid, 0, rfl, within, .nothing extended fun _ => full none⟩
        · rename_i some
          have here : mid.blockAt i off ≠ 0 := some
          have step : 0 < min (n - tot) (BSIZE - off % BSIZE) := turn_pos off (by omega)
          split
          · rename_i data read
            have after := (extended.consistent.write here data).1
            have left : off + min (n - tot) (BSIZE - off % BSIZE) +
                (n - (tot + min (n - tot) (BSIZE - off % BSIZE))) ≤ MAXFILE * BSIZE := by omega
            obtain ⟨t, done, ran, limit, rest⟩ := ih after
              (Nat.mod_lt (src + min (n - tot) (BSIZE - off % BSIZE)) (Nat.succ_pos _))
              (show n ≤ tot + min (n - tot) (BSIZE - off % BSIZE) + fuel by omega) (by omega) left
            refine ⟨t, min (n - tot) (BSIZE - off % BSIZE) + done, ?_, by omega, ?_⟩
            · rw [← Nat.add_assoc, ← Nat.add_assoc]
              exact ran
            · rw [← Nat.sub_sub] at rest
              exact .chunk extended here bound read rfl rest
          · rename_i data read
            exact ⟨_, 0, rfl, within, .torn extended here bound read rfl⟩
      · exact ⟨s, 0, rfl, within, .nothing (.refl consistent) fun short => by omega⟩

/-! ### Reading -/

/-- `len` bytes of a file have been copied to memory, unless some of it was not writable. -/
structure Copied (s : State) (i : ℕ) (target : Target) (mem after : ℕ → UInt8)
    (dst off len : ℕ) (whole : Bool) : Prop where
  outside : ∀ va, va < dst ∨ dst + len ≤ va → after va = mem va
  granted : whole = true ↔ target.Writable dst len
  bytes : whole = true → ∀ k < len, after (dst + k) = s.byte i (off + k)

theorem Target.writable_zero (target : Target) (dst : ℕ) : target.Writable dst 0 := by
  cases target with
  | user pages => exact fun k below => absurd below (Nat.not_lt_zero k)
  | kernel => trivial

theorem Copied.nothing (s : State) (i : ℕ) (target : Target) (mem : ℕ → UInt8) (dst off : ℕ) :
    Copied s i target mem mem dst off 0 true :=
  ⟨fun _ _ => rfl, by simp [Target.writable_zero], fun _ k below => absurd below (Nat.not_lt_zero k)⟩

section Turn

variable {mem after last : ℕ → UInt8} {whole : Bool}
  (read : eitherCopyout target mem (s.disk (s.blockAt i off)) (off % BSIZE) dst
    (min len (BSIZE - off % BSIZE)) = (after, whole))

include read

theorem Copied.fault (failed : whole = false) :
    Copied s i target mem after dst off len false where
  outside va outside := by
    have away : va < dst ∨ dst + min len (BSIZE - off % BSIZE) ≤ va := by omega
    have kept := eitherCopyout_outside target dst (min len (BSIZE - off % BSIZE)) mem
      (s.disk (s.blockAt i off)) (off % BSIZE) away
    rwa [read] at kept
  granted := by
    have granted := eitherCopyout_iff target dst (min len (BSIZE - off % BSIZE)) mem
      (s.disk (s.blockAt i off)) (off % BSIZE)
    rw [read, failed] at granted
    refine iff_of_false (by simp) fun all => ?_
    rw [← Nat.add_sub_cancel' (Nat.min_le_left len (BSIZE - off % BSIZE)),
      Target.writable_add] at all
    exact absurd (granted.mpr all.1) (by simp)
  bytes impossible := by simp at impossible

theorem Copied.turn (all : whole = true) {good : Bool}
    (rest : Copied s i target after last (dst + min len (BSIZE - off % BSIZE))
      (off + min len (BSIZE - off % BSIZE)) (len - min len (BSIZE - off % BSIZE)) good) :
    Copied s i target mem last dst off len good := by
  have granted := eitherCopyout_iff target dst (min len (BSIZE - off % BSIZE)) mem
    (s.disk (s.blockAt i off)) (off % BSIZE)
  have bytes := eitherCopyout_bytes target dst (min len (BSIZE - off % BSIZE)) mem
    (s.disk (s.blockAt i off)) (off % BSIZE) (by unfold BSIZE; omega) (by rw [read]; exact all)
  simp only [read] at granted bytes
  have halves : target.Writable dst len ↔ target.Writable dst (min len (BSIZE - off % BSIZE)) ∧
      target.Writable (dst + min len (BSIZE - off % BSIZE))
        (len - min len (BSIZE - off % BSIZE)) := by
    rw [← Target.writable_add, Nat.add_sub_cancel' (Nat.min_le_left ..)]
  refine ⟨fun va outside => ?_, ?_, fun done k below => ?_⟩
  · rw [rest.outside va (by omega), bytes, if_neg (by omega)]
  · rw [rest.granted, halves, ← granted, all, eq_self, true_and]
  · rcases Nat.lt_or_ge k (min len (BSIZE - off % BSIZE)) with low | high
    · rw [rest.outside _ (by omega), bytes, if_pos (by omega), Nat.add_sub_cancel_left]
      obtain ⟨block, place⟩ := same_block low
      rw [byte, place, blockAt, blockAt, block]
    · have later := rest.bytes done (k - min len (BSIZE - off % BSIZE)) (by omega)
      rwa [Nat.add_assoc, Nat.add_assoc, Nat.add_sub_cancel' high] at later

end Turn

theorem readLoop_spec (i : ℕ) (target : Target) {n fuel tot : ℕ} {mem : ℕ → UInt8}
    (consistent : Consistent sb s) (enough : n ≤ tot + fuel) (within : tot ≤ n)
    (fits : off + (n - tot) ≤ MAXFILE * BSIZE)
    (mapped : ∀ k < n - tot, s.blockAt i (off + k) ≠ 0) :
    ∃ after whole, readLoop sb i target n fuel s mem tot off dst =
        .ok (s, after, if whole = true then n else -1) ∧
      Copied s i target mem after dst off (n - tot) whole := by
  induction fuel generalizing mem tot off dst with
  | zero =>
      obtain rfl : tot = n := by omega
      exact ⟨mem, true, rfl, by rw [Nat.sub_self]; exact .nothing s i target mem dst off⟩
  | succ fuel ih =>
      rw [readLoop]
      split
      · rename_i more
        have inside : off / BSIZE < MAXFILE := by
          unfold BSIZE at *
          omega
        have step : 0 < min (n - tot) (BSIZE - off % BSIZE) := turn_pos off (by omega)
        have here : s.slot i (index (off / BSIZE)) ≠ 0 := mapped 0 (by omega)
        have found : s.bmap sb i (off / BSIZE) = .ok (s, s.slot i (index (off / BSIZE))) := by
          obtain ⟨mid, ran, -, -, same⟩ := bmap_spec consistent i inside
          rw [ran, same here]
        simp only [found, bind, Except.bind]
        rw [if_neg here]
        split
        · rename_i after read
          have left : ∀ k < n - (tot + min (n - tot) (BSIZE - off % BSIZE)),
              s.blockAt i (off + min (n - tot) (BSIZE - off % BSIZE) + k) ≠ 0 := by
            intro k below
            rw [Nat.add_assoc]
            exact mapped _ (by omega)
          obtain ⟨last, whole, ran, rest⟩ := ih
            (show n ≤ tot + min (n - tot) (BSIZE - off % BSIZE) + fuel by omega) (by omega)
            (by omega) left
          rw [← Nat.sub_sub] at rest
          exact ⟨last, whole, ran, rest.turn read rfl⟩
        · rename_i after read
          exact ⟨after, false, rfl, .fault read rfl⟩
      · obtain rfl : tot = n := by omega
        exact ⟨mem, true, rfl, by rw [Nat.sub_self]; exact .nothing s i target mem dst off⟩

structure Sound (sb : Superblock) (s : State) : Prop where
  consistent : Consistent sb s
  size : ∀ i, (s.inode i).size ≤ MAXFILE * BSIZE
  mapped : ∀ i pos, pos < (s.inode i).size → s.blockAt i pos ≠ 0

def readable (s : State) (i off n : ℕ) : ℕ :=
  if off + n < 4294967296 then min n ((s.inode i).size - off) else 0

theorem readi_spec (sound : Sound sb s) (i : ℕ) (target : Target) (mem : ℕ → UInt8) (dst : ℕ)
    (uint : off < 4294967296) (len : n < 4294967296) :
    ∃ after whole, s.readi sb i target mem dst off n =
        .ok (s, after, if whole = true then s.readable i off n else -1) ∧
      Copied s i target mem after dst off (s.readable i off n) whole := by
  have size := sound.size i
  rw [readi]
  split
  · rename_i refused
    have none : s.readable i off n = 0 := by
      unfold readable
      split <;> omega
    rw [none]
    exact ⟨mem, true, rfl, .nothing s i target mem dst off⟩
  · rename_i allowed
    have same : (if (s.inode i).size < off + n then (s.inode i).size - off else n) =
        s.readable i off n := by
      unfold readable
      split <;> split <;> omega
    rw [same]
    have bound : s.readable i off n ≤ (s.inode i).size - off := by
      rw [← same]
      split <;> omega
    exact readLoop_spec i target sound.consistent (by omega) (Nat.zero_le _) (by omega)
      fun k below => sound.mapped i _ (by omega)

theorem slot_setSize (s : State) (i size j k : ℕ) : (s.setSize i size).slot j k = s.slot j k :=
  slot_congr (addrs_setSize s i size j) (fun _ => rfl) k

theorem Consistent.setSize (consistent : Consistent sb s) (i size : ℕ) :
    Consistent sb (s.setSize i size) := by
  have refs : (s.setSize i size).refs = s.refs := funext fun ref => slot_setSize s i size ref.1 ref.2
  refine ⟨?_, consistent.reserved, ?_⟩
  · rw [refs]
    exact consistent.owns
  · simp only [slot_setSize]
    exact consistent.unlogged

structure Written (sb : Superblock) (s t : State) (i : ℕ) (source : Source) (src off n done : ℕ) :
    Prop where
  sound : Sound sb t
  size : (t.inode i).size = max (s.inode i).size (off + done)
  others : ∀ j, j ≠ i → (t.inode j).size = (s.inode j).size
  new : ∀ k < done, source.byte (src + k) = some (t.byte i (off + k))
  stopped : done < n → Full sb t ∨ ∃ k < n, source.byte (src + k) = none
  old : (∀ k < n, source.byte (src + k) ≠ none) → ∀ j pos, pos < (s.inode j).size →
    ¬ (j = i ∧ off ≤ pos ∧ pos < off + done) → t.byte j pos = s.byte j pos
  unlogged : (∀ k < n, source.byte (src + k) ≠ none) → ∀ c, t.unlogged c ≠ none →
    s.unlogged c ≠ none

theorem Wrote.written (sound : Sound sb s) {done : ℕ} (wrote : Wrote sb s t i source src off n done)
    (start : off ≤ (s.inode i).size) (fits : off + done ≤ MAXFILE * BSIZE) :
    Written sb s (if (t.inode i).size < off + done then t.setSize i (off + done) else t) i source
      src off n done := by
  have size : ((if (t.inode i).size < off + done then t.setSize i (off + done) else t).inode
      i).size = max (s.inode i).size (off + done) := by
    rw [wrote.size i]
    split
    · rw [size_setSize]
      omega
    · rw [wrote.size i]
      omega
  have others : ∀ j, j ≠ i → ((if (t.inode i).size < off + done then t.setSize i (off + done)
      else t).inode j).size = (s.inode j).size := by
    intro j other
    split
    · rw [inode_setSize t other, wrote.size j]
    · exact wrote.size j
  have slots : ∀ j k, (if (t.inode i).size < off + done then t.setSize i (off + done) else t).slot
      j k = t.slot j k := by
    intro j k
    split
    · exact slot_setSize ..
    · rfl
  have bytes : ∀ j pos, (if (t.inode i).size < off + done then t.setSize i (off + done) else t).byte
      j pos = t.byte j pos := by
    intro j pos
    rw [byte, blockAt, slots]
    split <;> rfl
  have old : ∀ j pos, pos < (s.inode j).size → t.blockAt j pos ≠ 0 := by
    intro j pos inside
    have mapped := sound.mapped j pos inside
    rwa [blockAt, wrote.slot j _ mapped]
  refine ⟨⟨?_, fun j => ?_, fun j pos inside => ?_⟩, size, others, fun k below => ?_,
    fun short => ?_, fun readable j pos inside outside => ?_, fun readable c changed => ?_⟩
  · split
    · exact wrote.consistent.setSize i _
    · exact wrote.consistent
  · have before := sound.size j
    by_cases same : j = i
    · subst same
      rw [size]
      omega
    · rwa [others j same]
  · rw [blockAt, slots]
    by_cases same : j = i
    · subst same
      rw [size] at inside
      by_cases below : pos < (s.inode j).size
      · exact old j pos below
      · have mapped := wrote.mapped (pos - off) (by omega)
        rwa [Nat.add_sub_cancel' (by omega)] at mapped
    · rw [others j same] at inside
      exact old j pos inside
  · rw [bytes]
    exact wrote.new k below
  · refine (wrote.stopped short).imp_left fun full b below => ?_
    rw [← full b below]
    refine used_congr ?_
    split <;> rfl
  · rw [bytes]
    refine (wrote.old j pos (sound.mapped j pos inside) outside).resolve_right ?_
    rintro ⟨-, k, below, missing⟩
    exact readable k below missing
  · have before : t.unlogged c ≠ none := by
      split at changed <;> exact changed
    refine (wrote.unlogged c before).resolve_right ?_
    rintro ⟨k, below, missing⟩
    exact readable k below missing

theorem writei_spec (sound : Sound sb s) (i : ℕ) (source : Source)
    (address : src < 18446744073709551616) (uint : off < 4294967296) (len : n < 4294967296) :
    ((s.inode i).size < off ∨ MAXFILE * BSIZE < off + n) ∧ s.writei sb i source src off n = .ok (s, -1) ∨
    off ≤ (s.inode i).size ∧ off + n ≤ MAXFILE * BSIZE ∧
      ∃ t done, done ≤ n ∧ s.writei sb i source src off n = .ok (t, (done : ℤ)) ∧
        Written sb s t i source src off n done := by
  have limit : MAXFILE * BSIZE < 4294967296 := by decide
  rw [writei]
  split
  · exact .inl ⟨by omega, rfl⟩
  · rename_i allowed
    split
    · exact .inl ⟨by omega, rfl⟩
    · rename_i fits
      right
      obtain ⟨t, done, ran, within, wrote⟩ : ∃ t done,
          writeLoop sb i source n n s 0 off src = .ok (t, 0 + done, off + done) ∧ 0 + done ≤ n ∧
            Wrote sb s t i source src off (n - 0) done :=
        writeLoop_spec i source sound.consistent address (by omega) (Nat.zero_le n) (by omega)
      rw [ran, Nat.zero_add]
      exact ⟨by omega, by omega, _, done, by omega, rfl,
        wrote.written sound (by omega) (by omega)⟩

/-! ### Files -/

def file (s : State) (i : ℕ) : List UInt8 := (List.range (s.inode i).size).map (s.byte i)

theorem length_file (s : State) (i : ℕ) : (s.file i).length = (s.inode i).size := by simp [file]

theorem getElem?_file (s : State) (i pos : ℕ) :
    (s.file i)[pos]? = if pos < (s.inode i).size then some (s.byte i pos) else none := by
  rw [file, List.getElem?_map]
  split
  · rename_i inside
    rw [List.getElem?_range inside]
    rfl
  · rename_i outside
    rw [List.getElem?_eq_none (by simpa using outside)]
    rfl

theorem file_congr (size : (t.inode i).size = (s.inode i).size)
    (bytes : ∀ pos < (s.inode i).size, t.byte i pos = s.byte i pos) : t.file i = s.file i := by
  rw [file, file, size]
  exact List.map_congr_left fun pos inside => bytes pos (List.mem_range.mp inside)

end State

/-- A call and what it gives back, in its last arguments. -/
inductive Event
  | readi (i : ℕ) (target : Target) (mem : ℕ → UInt8) (dst : UInt64) (off n : UInt32)
      (after : ℕ → UInt8) (r : ℤ)
  | writei (i : ℕ) (source : Source) (src : UInt64) (off n : UInt32) (r : ℤ)
  | itrunc (i : ℕ)
  | recycle (b : ℕ)

def State.step (sb : Superblock) (s : State) : Event → State → Prop
  | .readi i target mem dst off n after r, t =>
      s.readi sb i target mem dst.toNat off.toNat n.toNat = .ok (t, after, r)
  | .writei i source src off n r, t =>
      s.writei sb i source src.toNat off.toNat n.toNat = .ok (t, r)
  | .itrunc i, t => s.itrunc sb i = .ok t
  | .recycle b, t => s.recycle b = t

/-- What `mkfs` starts from: no data block is in use, and no inode has any. -/
structure Formatted (sb : Superblock) (s : State) : Prop where
  used : ∀ b < sb.size, s.used sb b = decide (b < sb.datastart)
  size : ∀ i, (s.inode i).size = 0
  addrs : ∀ i k, (s.inode i).addrs k = 0
  unlogged : ∀ b, s.unlogged b = none

def fileSystem (sb : Superblock) : System State Event where
  init := Formatted sb
  step := State.step sb

/-- What `writei` is to copy can be read. -/
def Readable (_ : State) : Event → Prop
  | .writei _ source src _ n _ => ∀ k < n.toNat, source.byte (src.toNat + k) ≠ none
  | _ => True

def Files.step (f : ℕ → List UInt8) : Event → (ℕ → List UInt8) → Prop
  | .readi i target mem dst off n after r, g =>
      g = f ∧ ∃ bytes : List UInt8,
        bytes = (if off.toNat + n.toNat < 4294967296 then ((f i).drop off.toNat).take n.toNat
          else []) ∧
        (∀ va, va < dst.toNat ∨ dst.toNat + bytes.length ≤ va → after va = mem va) ∧
        (r = bytes.length ∧ target.Writable dst.toNat bytes.length ∧
            (∀ k < bytes.length, bytes[k]? = some (after (dst.toNat + k))) ∨
          r = -1 ∧ ¬ target.Writable dst.toNat bytes.length)
  | .writei i source src off n r, g =>
      (∀ j, j ≠ i → g j = f j) ∧
        (r = -1 ∧ g = f ∧ ((f i).length < off.toNat ∨ MAXFILE * BSIZE < off.toNat + n.toNat) ∨
          ∃ done ≤ n.toNat, r = done ∧ off.toNat ≤ (f i).length ∧
            (g i).length = max (f i).length (off.toNat + done) ∧
            (∀ k < done, ∃ v, source.byte (src.toNat + k) = some v ∧
              (g i)[off.toNat + k]? = some v) ∧
            ∀ pos < (f i).length, pos < off.toNat ∨ off.toNat + done ≤ pos →
              (g i)[pos]? = (f i)[pos]?)
  | .itrunc i, g => g = Function.update f i []
  | .recycle _, g => g = f

def files : System (ℕ → List UInt8) Event where
  init f := ∀ i, f i = []
  step := Files.step

namespace State

variable {sb : Superblock} {s t : State}

theorem sound_of_formatted (formatted : Formatted sb s) : Sound sb s := by
  have none : ∀ i k, s.slot i k = 0 := by
    intro i k
    rcases Nat.lt_or_ge NDIRECT k with high | low
    · exact slot_eq_zero high ((slot_addr le_rfl).trans (formatted.addrs i NDIRECT))
    · exact (slot_addr low).trans (formatted.addrs i k)
  refine ⟨⟨.empty (fun b used => ?_) fun ref => none ref.1 ref.2, fun b below => ?_,
    fun b changed => absurd (formatted.unlogged b) changed⟩, fun i => ?_, fun i pos inside => ?_⟩
  · have free := used.2
    rw [formatted.used b used.1.2, decide_eq_true_eq] at free
    exact absurd used.1.1 (by omega)
  · rw [formatted.used b (below.trans_le (Nat.sub_le ..)), decide_eq_true below]
  · rw [formatted.size i]
    exact Nat.zero_le _
  · rw [formatted.size i] at inside
    exact absurd inside (Nat.not_lt_zero pos)

theorem Truncated.sound (sound : Sound sb s) (cut : Truncated sb s t i) : Sound sb t := by
  refine ⟨cut.consistent, fun j => ?_, fun j pos inside => ?_⟩
  · by_cases same : j = i
    · rw [same, cut.size]
      exact Nat.zero_le _
    · rw [cut.inode j same]
      exact sound.size j
  · by_cases same : j = i
    · rw [same, cut.size] at inside
      exact absurd inside (Nat.not_lt_zero pos)
    · rw [cut.inode j same] at inside
      rw [blockAt, cut.slot j same]
      exact sound.mapped j pos inside

theorem Truncated.file (sound : Sound sb s) (cut : Truncated sb s t i) :
    t.file = Function.update s.file i [] := by
  funext j
  by_cases same : j = i
  · rw [same, Function.update_self, State.file, cut.size]
    rfl
  · rw [Function.update_of_ne same]
    refine file_congr (by rw [cut.inode j same]) fun pos inside => ?_
    have mapped := sound.mapped j pos inside
    have kept : t.disk (s.blockAt j pos) = s.disk (s.blockAt j pos) :=
      cut.kept _ (sound.consistent.data mapped)
    rw [byte, byte, blockAt, cut.slot j same, ← blockAt, kept]

theorem length_readable (s : State) (i off n : ℕ) :
    (if off + n < 4294967296 then ((s.file i).drop off).take n else []).length =
      s.readable i off n := by
  unfold readable
  split
  · rw [List.length_take, List.length_drop, length_file]
  · rfl

theorem Copied.bytes_file {mem after : ℕ → UInt8} (copied : Copied s i target mem after dst off
    (s.readable i off n) true) (below : k < s.readable i off n) :
    (if off + n < 4294967296 then ((s.file i).drop off).take n else [])[k]? =
      some (after (dst + k)) := by
  rw [copied.bytes rfl k below]
  unfold readable at below
  split at below
  · rename_i small
    rw [if_pos small, List.getElem?_take, if_pos (by omega), List.getElem?_drop, getElem?_file,
      if_pos (by omega)]
  · omega

theorem Written.step_file {done : ℕ} (written : Written sb s t i source src off n done)
    (readable : ∀ k < n, source.byte (src + k) ≠ none) :
    (∀ j, j ≠ i → t.file j = s.file j) ∧ (t.file i).length = max (s.file i).length (off + done) ∧
      (∀ k < done, ∃ v, source.byte (src + k) = Option.some v ∧
        (t.file i)[off + k]? = Option.some v) ∧
      ∀ pos < (s.file i).length, pos < off ∨ off + done ≤ pos →
        (t.file i)[pos]? = (s.file i)[pos]? := by
  rw [length_file, length_file, written.size]
  refine ⟨fun j other => ?_, rfl, fun k below => ?_, fun pos inside outside => ?_⟩
  · exact file_congr (written.others j other) fun pos inside =>
      written.old readable j pos inside fun same => other same.1
  · refine ⟨_, written.new k below, ?_⟩
    rw [getElem?_file, written.size, if_pos (by omega)]
  · rw [getElem?_file, getElem?_file, written.size, if_pos (by omega), if_pos inside]
    rw [written.old readable i pos inside (by omega)]

/-- What the runs of files need of a state that is theirs: nothing can vanish from a buffer. -/
structure Settled (sb : Superblock) (s : State) : Prop where
  sound : Sound sb s
  logged : ∀ b, s.unlogged b = none

theorem step_sound (event : Event) (sound : Sound sb s) (taken : (fileSystem sb).step s event t) :
    Sound sb t := by
  cases event with
  | readi i target mem dst off n after r =>
      obtain ⟨after', whole, ran, -⟩ := readi_spec (n := n.toNat) sound i target mem dst.toNat
        off.toNat_lt n.toNat_lt
      obtain ⟨rfl, -⟩ : s = t ∧ _ := by simpa using ran.symm.trans taken
      exact sound
  | writei i source src off n r =>
      rcases writei_spec (n := n.toNat) sound i source src.toNat_lt off.toNat_lt n.toNat_lt with
        ⟨-, ran⟩ | ⟨-, -, u, done, -, ran, written⟩
      · obtain ⟨rfl, -⟩ : s = t ∧ -1 = r := by simpa using ran.symm.trans taken
        exact sound
      · obtain ⟨rfl, -⟩ : u = t ∧ (done : ℤ) = r := by simpa using ran.symm.trans taken
        exact written.sound
  | itrunc i =>
      obtain ⟨u, ran, cut⟩ := itrunc_spec sound.consistent i
      obtain rfl : u = t := by simpa using ran.symm.trans taken
      exact cut.sound sound
  | recycle b =>
      obtain rfl : s.recycle b = t := taken
      obtain ⟨consistent, refs⟩ := sound.consistent.recycle b
      exact ⟨consistent, sound.size, fun i pos inside =>
        (congrFun refs (i, index (pos / BSIZE))).trans_ne (sound.mapped i pos inside)⟩

theorem step_files (event : Event) (settled : Settled sb s)
    (taken : ((fileSystem sb).restrict Readable).step s event t) :
    Settled sb t ∧ files.step s.file event t.file := by
  obtain ⟨sound, logged⟩ := settled
  obtain ⟨readable, taken⟩ := taken
  have after := step_sound event sound taken
  have still : (∀ c, t.unlogged c ≠ none → s.unlogged c ≠ none) → Settled sb t := fun fewer =>
    ⟨after, fun b => by_contra fun changed => fewer b changed (logged b)⟩
  cases event with
  | readi i target mem dst off n after r =>
      obtain ⟨after', whole, ran, copied⟩ := readi_spec (n := n.toNat) sound i target mem dst.toNat
        off.toNat_lt n.toNat_lt
      obtain ⟨rfl, rfl, rfl⟩ : s = t ∧ after' = after ∧ _ = r := by
        simpa using ran.symm.trans taken
      refine ⟨⟨sound, logged⟩, rfl, _, rfl, ?_⟩
      rw [length_readable]
      refine ⟨copied.outside, ?_⟩
      cases whole with
      | true => exact .inl ⟨rfl, copied.granted.mp rfl, fun k below => copied.bytes_file below⟩
      | false => exact .inr ⟨rfl, fun all => by simpa using copied.granted.mpr all⟩
  | writei i source src off n r =>
      rcases writei_spec (n := n.toNat) sound i source src.toNat_lt off.toNat_lt n.toNat_lt with
        ⟨refused, ran⟩ | ⟨start, fits, u, done, some, ran, written⟩
      · obtain ⟨rfl, rfl⟩ : s = t ∧ -1 = r := by simpa using ran.symm.trans taken
        refine ⟨⟨sound, logged⟩, fun _ _ => rfl, .inl ⟨rfl, rfl, ?_⟩⟩
        rwa [length_file]
      · obtain ⟨rfl, rfl⟩ : u = t ∧ (done : ℤ) = r := by simpa using ran.symm.trans taken
        obtain ⟨others, size, new, old⟩ := written.step_file readable
        exact ⟨still (written.unlogged readable), others,
          .inr ⟨done, some, rfl, by rwa [length_file], size, new, old⟩⟩
  | itrunc i =>
      obtain ⟨u, ran, cut⟩ := itrunc_spec sound.consistent i
      obtain rfl : u = t := by simpa using ran.symm.trans taken
      exact ⟨still cut.unlogged, cut.file sound⟩
  | recycle b =>
      obtain rfl : s = t := (recycle_eq (logged b)).symm.trans taken
      exact ⟨⟨sound, logged⟩, rfl⟩

theorem reachable_sound (reachable : (fileSystem sb).Reachable s) : Sound sb s :=
  reachable.invariant (fun _ => sound_of_formatted) fun _ event _ => step_sound event

def forty : Superblock := ⟨40, 30, 9, by decide, by decide⟩

def blank : State where
  disk b k := if b = 9 ∧ k = 0 then 255 else if b = 9 ∧ k = 1 then 3 else 0
  inode _ := ⟨0, fun _ => 0⟩
  unlogged _ := none

theorem blank_formatted : Formatted forty blank :=
  ⟨by decide, fun _ => rfl, fun _ _ => rfl, fun _ => rfl⟩

def thirteen : Event := .writei 1 (.kernel fun _ => 7) 0 0 12289 12289

theorem blank_writei : ∃ t, (fileSystem forty).step blank thirteen t ∧
    t.slot 1 (NDIRECT + 1) = 23 ∧
    ∃ after, (fileSystem forty).step t (.readi 1 .kernel (fun _ => 0) 0 12288 5 after 1) t ∧
      after 0 = 7 := by
  have ran : ((blank.writei forty 1 (.kernel fun _ => 7) (0 : UInt64).toNat (0 : UInt32).toNat
      (12289 : UInt32).toNat).bind fun wrote =>
        (wrote.1.readi forty 1 .kernel (fun _ => 0) (0 : UInt64).toNat (12288 : UInt32).toNat
          (5 : UInt32).toNat).map fun result => (wrote.2, wrote.1.slot 1 (NDIRECT + 1),
            result.2.1 0, result.2.2)) = .ok (12289, 23, 7, 1) := by
    decide +kernel
  cases wrote : blank.writei forty 1 (.kernel fun _ => 7) (0 : UInt64).toNat (0 : UInt32).toNat
      (12289 : UInt32).toNat with
  | error panic =>
      rw [wrote] at ran
      cases ran
  | ok result =>
      obtain ⟨t, r⟩ := result
      have taken : (fileSystem forty).step blank (.writei 1 (.kernel fun _ => 7) 0 0 12289 r) t := wrote
      have sound : Sound forty t := step_sound _ (sound_of_formatted blank_formatted) taken
      obtain ⟨after, whole, read, -⟩ := readi_spec sound 1 .kernel (fun _ => 0) (0 : UInt64).toNat
        (12288 : UInt32).toNat_lt (5 : UInt32).toNat_lt
      simp only [wrote, Except.bind, read, Except.map, Except.ok.injEq, Prod.mk.injEq] at ran
      obtain ⟨rfl, here, seven, one⟩ := ran
      exact ⟨t, taken, here, after, one ▸ read, seven⟩

/-- The bitmap says which data blocks the files have, each of them once. No call panics, and a
write falls short of its bounds only where memory cannot be read or no block is left. -/
theorem bitmap_exact (reachable : (fileSystem sb).Reachable s) :
    (∀ b, sb.Data b → (s.used sb b = true ↔ ∃ i k, s.slot i k = b)) ∧
    (∀ i k, s.slot i k ≠ 0 → sb.Data (s.slot i k)) ∧
    (∀ i k j l, s.slot i k ≠ 0 → s.slot i k = s.slot j l → i = j ∧ k = l) ∧
    (∀ b < sb.datastart, s.used sb b = true) ∧
    (∀ i (target : Target) mem (dst : UInt64) (off n : UInt32), ∃ after r,
      s.readi sb i target mem dst.toNat off.toNat n.toNat = .ok (s, after, r)) ∧
    (∀ i (source : Source) (src : UInt64) (off n : UInt32), ∃ t r,
      s.writei sb i source src.toNat off.toNat n.toNat = .ok (t, r) ∧
        (off.toNat ≤ (s.inode i).size → off.toNat + n.toNat ≤ MAXFILE * BSIZE →
          r = n.toNat ∨ Full sb t ∨ ∃ k < n.toNat, source.byte (src.toNat + k) = none)) ∧
    ∀ i, ∃ t, s.itrunc sb i = .ok t ∧ ∀ b, sb.Data b →
      (t.used sb b = true ↔ s.used sb b = true ∧ ∀ k, s.slot i k ≠ b) := by
  have sound := reachable_sound reachable
  have consistent := sound.consistent
  have exact_used : ∀ {t : State}, Consistent sb t → ∀ b, sb.Data b →
      (t.used sb b = true ↔ ∃ i k, t.slot i k = b) := by
    intro t consistent b data
    constructor
    · intro used
      obtain ⟨⟨i, k⟩, here⟩ := consistent.owns.owned b ⟨data, used⟩
      exact ⟨i, k, here⟩
    · rintro ⟨i, k, rfl⟩
      exact consistent.inUse data.ne_zero
  refine ⟨exact_used consistent, fun i k => consistent.data, fun i k j l => consistent.apart,
    consistent.reserved, fun i target mem dst off n => ?_, fun i source src off n => ?_,
    fun i => ?_⟩
  · obtain ⟨after, whole, ran, -⟩ := readi_spec (n := n.toNat) sound i target mem dst.toNat
      off.toNat_lt n.toNat_lt
    exact ⟨after, _, ran⟩
  · rcases writei_spec (n := n.toNat) sound i source src.toNat_lt off.toNat_lt n.toNat_lt with
      ⟨refused, ran⟩ | ⟨start, fits, u, done, some, ran, written⟩
    · exact ⟨s, -1, ran, fun start fits => by omega⟩
    · refine ⟨u, done, ran, fun _ _ => ?_⟩
      rcases some.lt_or_eq with short | rfl
      · rcases written.stopped short with full | ⟨k, below, missing⟩
        · exact .inr (.inl full)
        · exact .inr (.inr ⟨k, below, missing⟩)
      · exact .inl rfl
  · obtain ⟨t, ran, cut⟩ := itrunc_spec consistent i
    refine ⟨t, ran, fun b data => ?_⟩
    rw [exact_used cut.consistent b data, exact_used consistent b data]
    constructor
    · rintro ⟨j, k, rfl⟩
      have other : j ≠ i := by
        rintro rfl
        exact data.ne_zero (cut.empty k)
      rw [cut.slot j other] at data ⊢
      exact ⟨⟨j, k, rfl⟩, fun l same => other (consistent.apart data.ne_zero same.symm).1⟩
    · rintro ⟨⟨j, k, rfl⟩, gone⟩
      have other : j ≠ i := by
        rintro rfl
        exact gone k rfl
      exact ⟨j, k, cut.slot j other k⟩

theorem bitmap_exact_written : ∃ t u, (fileSystem forty).Reachable t ∧
    t.slot 1 (NDIRECT + 1) = 23 ∧ t.used forty 23 = true ∧ t.itrunc forty 1 = .ok u ∧
    u.used forty 23 = false := by
  obtain ⟨t, taken, here, -⟩ := blank_writei
  have reachable : (fileSystem forty).Reachable t := .step (.start blank_formatted) taken
  obtain ⟨exact_used, -, -, -, -, -, truncates⟩ := bitmap_exact reachable
  have data : forty.Data 23 := ⟨by decide, by decide⟩
  obtain ⟨u, ran, left⟩ := truncates 1
  refine ⟨t, u, reachable, here, (exact_used 23 data).mpr ⟨1, _, here⟩, ran, ?_⟩
  rw [Bool.eq_false_iff, ne_eq, left 23 data]
  exact fun both => both.2 _ here

/-- Through any calls whose bytes can be read, files behave as sequences of bytes. -/
theorem files_refine {events : List Event} (formatted : Formatted sb s)
    (run : ((fileSystem sb).restrict Readable).Run s events t) :
    files.init s.file ∧ files.Run s.file events t.file := by
  refine ⟨fun i => ?_, .abstract (fun _ event _ => step_files event)
    ⟨sound_of_formatted formatted, formatted.unlogged⟩ run⟩
  rw [file, formatted.size i]
  rfl

theorem files_refine_written : ∃ t after, after 0 = 7 ∧
    files.Run blank.file [thirteen, .readi 1 .kernel (fun _ => 0) 0 12288 5 after 1] t := by
  obtain ⟨t, taken, -, after, read, seven⟩ := blank_writei
  refine ⟨t.file, after, seven, (files_refine blank_formatted (t := t) ?_).2⟩
  exact .cons ⟨fun _ _ => by simp [Source.byte], taken⟩ (.cons ⟨trivial, read⟩ (.nil t))

end State

end OsLab.Kernel.Blocks
