import OsLab.User.Umalloc
import OsLab.Library.Cyclic

/-!
The blocks of the heap: the free ones on the ring, in order and never touching, and the ones in
use. `free` joins a block with its neighbours and `malloc` cuts one out; both keep the layout.
-/

namespace OsLab.User.Umalloc

open OsLab.Library

theorem exists_last {α : Type*} {P : α → Prop} {list : List α} (found : ∃ a ∈ list, P a) :
    ∃ front p back, list = front ++ p :: back ∧ P p ∧ ∀ c ∈ back, ¬ P c := by
  induction list with
  | nil => simp at found
  | cons a list ih =>
      by_cases later : ∃ b ∈ list, P b
      · obtain ⟨front, p, back, rfl, holds, none⟩ := ih later
        exact ⟨a :: front, p, back, rfl, holds, none⟩
      · obtain ⟨b, member, holds⟩ := found
        rcases List.mem_cons.mp member with rfl | inside
        · exact ⟨[], b, list, rfl, holds, fun c among passes => later ⟨c, among, passes⟩⟩
        · exact absurd ⟨b, inside, holds⟩ later

def Apart (a b : ℕ × ℕ) : Prop := a.2 ≤ b.1 ∨ b.2 ≤ a.1

/-- The nodes of the ring are `base` and the free blocks. -/
structure Layout (base : ℕ) (s : Heap) (nodes used : List (ℕ × ℕ)) : Prop where
  positive : 0 < base
  head : nodes.head? = some (base, base)
  ring : Rings s.ptr (nodes.map Prod.fst)
  separated : Separated nodes
  freep : s.freep ∈ nodes.map Prod.fst
  blocks : ∀ a ∈ nodes, a.2 = s.stop a.1 ∧
    (a = (base, base) ∨ base + 16 ≤ a.1 ∧ a.1 < a.2 ∧ a.2 ≤ s.brk)
  busy : ∀ b ∈ used, b.2 = s.stop b.1 ∧ base + 16 ≤ b.1 ∧ b.1 < b.2 ∧ b.2 ≤ s.brk
  apart : used.Pairwise Apart
  across : ∀ b ∈ used, ∀ a ∈ nodes, Apart b a
  core : ∀ x, covers s.core x ↔ covers nodes x ∨ covers used x
  brk : base + 16 ≤ s.brk ∧ s.brk ≤ 68719476736

namespace Layout

variable {base n : ℕ} {s t : Heap} {nodes used front back : List (ℕ × ℕ)} {a b c p : ℕ × ℕ}

theorem perm {other : List (ℕ × ℕ)} (layout : Layout base s nodes used) (same : used.Perm other) :
    Layout base s nodes other where
  positive := layout.positive
  head := layout.head
  ring := layout.ring
  separated := layout.separated
  freep := layout.freep
  blocks := layout.blocks
  busy b among := layout.busy b (same.mem_iff.mpr among)
  apart := (same.pairwise_iff fun apart => Or.symm apart).mp layout.apart
  across b among := layout.across b (same.mem_iff.mpr among)
  core x := by
    rw [layout.core]
    simp only [covers, same.mem_iff]
  brk := layout.brk

theorem perm_cons (layout : Layout base s nodes (b :: used)) (among : a ∈ used) :
    Layout base s nodes (a :: (b :: used).erase a) :=
  layout.perm (List.perm_cons_erase (List.mem_cons_of_mem _ among))

theorem base_mem (layout : Layout base s nodes used) : (base, base) ∈ nodes :=
  List.mem_of_head? layout.head

theorem base_le (layout : Layout base s nodes used) (member : a ∈ nodes) : base ≤ a.1 := by
  rcases (layout.blocks a member).2 with rfl | real
  · exact le_rfl
  · omega

theorem next (layout : Layout base s nodes used) (split : nodes = front ++ a :: back) :
    (back = [] ∧ s.ptr a.1 = base) ∨ ∃ c rest, back = c :: rest ∧ s.ptr a.1 = c.1 := by
  have ring := layout.ring
  have first := layout.head
  rw [split, List.map_append, List.map_cons] at ring
  have link := ring.link
  cases back with
  | nil =>
      left
      have closes : (front.map Prod.fst ++ [a.1]).head? = some base := by
        have mapped := congrArg (Option.map Prod.fst) first
        rw [split, ← List.head?_map, List.map_append] at mapped
        simpa using mapped
      rw [closes] at link
      exact ⟨rfl, (Option.some.inj link).symm⟩
  | cons c rest => exact .inr ⟨c, rest, rfl, (Option.some.inj link).symm⟩

theorem head_of {other : List (ℕ × ℕ)} (layout : Layout base s nodes used)
    (split : nodes = front ++ a :: back) : (front ++ a :: other).head? = some (base, base) := by
  have first := layout.head
  rw [split] at first
  cases front <;> exact first

theorem before (layout : Layout base s nodes used) (split : nodes = front ++ a :: back)
    (member : c ∈ front) : c.2 < a.1 := by
  have apart := layout.separated.apart
  rw [split] at apart
  exact (List.pairwise_append.mp apart).2.2 c member a List.mem_cons_self

theorem after (layout : Layout base s nodes used) (split : nodes = front ++ a :: back)
    (member : c ∈ back) : a.2 < c.1 := by
  have apart := layout.separated.apart
  rw [split] at apart
  exact (List.pairwise_cons.mp (List.pairwise_append.mp apart).2.1).1 c member

theorem nodup (layout : Layout base s nodes used) : (nodes.map Prod.fst).Nodup := by
  rw [List.nodup_iff_pairwise_ne, List.pairwise_map]
  refine layout.separated.apart.imp_of_mem fun {a b} one _ less => ?_
  have proper := layout.separated.proper a one
  omega

theorem unique (layout : Layout base s nodes used) (split : nodes = front ++ p :: back)
    (real : base + 16 ≤ b.1 ∧ b.1 < b.2) (low : p.2 ≤ b.1) (high : ∀ c ∈ back, b.2 ≤ c.1)
    (member : a ∈ nodes) (found : s.belongs b.1 a.1 = true) : a = p := by
  have follows := layout.separated.proper p (by simp [split])
  have own := layout.separated.proper a member
  simp only [Heap.belongs, Bool.or_eq_true, Bool.and_eq_true, decide_eq_true_eq] at found
  rw [split, List.mem_append, List.mem_cons] at member
  rcases member with early | rfl | late
  · obtain ⟨first, rest, rfl⟩ := List.append_of_mem early
    have whole : nodes = first ++ a :: (rest ++ p :: back) := by simpa using split
    rcases layout.next whole with ⟨none, -⟩ | ⟨c, others, second, link⟩
    · simp at none
    · have less := layout.after whole (c := c) (by simp [second])
      have bound : c.1 ≤ p.1 := by
        have inside : c ∈ rest ++ [p] := by
          cases rest with
          | nil => simp_all
          | cons d rest => simp_all
        rcases List.mem_append.mp inside with earlier | last
        · have order := layout.before split (c := c) (by simp [earlier])
          have proper := layout.separated.proper c (by simp [whole, second])
          omega
        · rw [List.mem_singleton.mp last]
      rw [link] at found
      omega
  · rfl
  · obtain ⟨first, rest, rfl⟩ := List.append_of_mem late
    have whole : nodes = (front ++ p :: first) ++ a :: rest := by simpa using split
    have above := high a (by simp)
    rcases layout.next whole with ⟨-, link⟩ | ⟨c, others, second, link⟩
    · rw [link] at found
      omega
    · have less := layout.after whole (c := c) (by simp [second])
      rw [link] at found
      omega

theorem search (layout : Layout base s nodes used) (real : base + 16 ≤ b.1 ∧ b.1 < b.2)
    (outside : ∀ a ∈ nodes, Apart b a) : ∃ front p back, nodes = front ++ p :: back ∧ p.2 ≤ b.1 ∧
      (∀ c ∈ back, b.2 ≤ c.1) ∧ ∀ fuel, nodes.length ≤ fuel → s.search b.1 fuel = some p.1 := by
  obtain ⟨front, p, back, split, less, rest⟩ := exists_last (P := fun a : ℕ × ℕ => a.1 < b.1)
    ⟨_, layout.base_mem, by dsimp only; omega⟩
  have member : p ∈ nodes := by simp [split]
  have low : p.2 ≤ b.1 := by
    rcases outside p member with above | below
    · omega
    · exact below
  have high : ∀ c ∈ back, b.2 ≤ c.1 := by
    intro c inside
    have among : c ∈ nodes := by simp [split, inside]
    have notLess := rest c inside
    rcases outside c among with above | below
    · exact above
    · rcases (layout.blocks c among).2 with rfl | ⟨-, proper, -⟩ <;> omega
  refine ⟨front, p, back, split, low, high, fun fuel enough => ?_⟩
  have stops : s.belongs b.1 p.1 = true := by
    simp only [Heap.belongs, Bool.or_eq_true, Bool.and_eq_true, decide_eq_true_eq]
    rcases layout.next split with ⟨-, link⟩ | ⟨c, others, second, link⟩
    · have bound := layout.base_le member
      omega
    · have above := high c (by simp [second])
      omega
  obtain ⟨k, short, reached⟩ := layout.ring.reach layout.freep
    (List.mem_map_of_mem (f := Prod.fst) member)
  obtain ⟨rounds, -, ended, stopped, -⟩ := @whileLoop_of_stop _ (fun q => !s.belongs b.1 q) s.ptr k
    s.freep (by rw [reached, stops]; rfl)
  have inside : s.ptr^[rounds] s.freep ∈ nodes.map Prod.fst := by
    have walked : ∀ k, s.ptr^[k] s.freep ∈ nodes.map Prod.fst := by
      intro k
      induction k with
      | zero => exact layout.freep
      | succ k ih =>
          rw [Function.iterate_succ_apply']
          exact layout.ring.mem ih
    exact walked rounds
  obtain ⟨a, among, same⟩ := List.mem_map.mp inside
  rw [← same] at stopped ended
  have equal := layout.unique split real low high among (by simpa using stopped)
  rw [equal] at ended
  rw [List.length_map] at short
  have more := whileLoop_more ended (fuel - k)
  rwa [show k + (fuel - k) = fuel by omega] at more

end Layout

namespace Heap

variable (s : Heap) {bp p : ℕ}

def upper (bp p : ℕ) : ℕ := if s.stop bp = s.ptr p then s.ptr (s.ptr p) else s.ptr p

def grown (bp p : ℕ) : ℕ :=
  if s.stop bp = s.ptr p then uint (s.size bp + s.size (s.ptr p)) else s.size bp

theorem setSize_self {s : Heap} {a v : ℕ} : (s.setSize a v).size a = v := Function.update_self ..

theorem setSize_of_ne {s : Heap} {a v x : ℕ} (other : x ≠ a) : (s.setSize a v).size x = s.size x :=
  Function.update_of_ne other ..

theorem joinUpper_ptr (bp p : ℕ) :
    (s.joinUpper bp p).ptr = Function.update s.ptr bp (s.upper bp p) := by
  unfold joinUpper upper
  split <;> rfl

theorem joinUpper_size (bp p : ℕ) :
    (s.joinUpper bp p).size = Function.update s.size bp (s.grown bp p) := by
  unfold joinUpper grown
  split
  · rfl
  · rw [Function.update_eq_self]
    rfl

theorem place_ptr (apart : p ≠ bp) : (s.place bp p).ptr =
    Function.update (Function.update s.ptr bp (s.upper bp p)) p
      (if s.stop p = bp then s.upper bp p else bp) := by
  have same : (s.joinUpper bp p).stop p = s.stop p := by
    simp only [stop, joinUpper_size, Function.update_of_ne apart]
  unfold place joinLower
  rw [same]
  split
  · simp [setPtr, setSize, joinUpper_ptr]
  · simp [setPtr, joinUpper_ptr]

theorem place_size (apart : p ≠ bp) : (s.place bp p).size =
    Function.update (Function.update s.size bp (s.grown bp p)) p
      (if s.stop p = bp then uint (s.size p + s.grown bp p) else s.size p) := by
  have same : (s.joinUpper bp p).stop p = s.stop p := by
    simp only [stop, joinUpper_size, Function.update_of_ne apart]
  have kept : (s.joinUpper bp p).size p = s.size p := by
    rw [joinUpper_size, Function.update_of_ne apart]
  unfold place joinLower
  rw [same]
  split
  · simp [setPtr, setSize, joinUpper_size, Function.update_of_ne apart]
  · rw [← kept, ← joinUpper_size, Function.update_eq_self]
    rfl

theorem place_rest (bp p : ℕ) : (s.place bp p).freep = p ∧ (s.place bp p).brk = s.brk ∧
    (s.place bp p).live = s.live ∧ (s.place bp p).core = s.core := by
  unfold place joinLower joinUpper
  refine ⟨rfl, ?_⟩
  split <;> split <;> exact ⟨rfl, rfl, rfl⟩

end Heap

namespace Layout

variable {base n : ℕ} {s t : Heap} {nodes used front back : List (ℕ × ℕ)} {a b c p : ℕ × ℕ}

def Fits (base : ℕ) (t : Heap) (used : List (ℕ × ℕ)) (a : ℕ × ℕ) : Prop :=
  (a.2 = t.stop a.1 ∧ (a = (base, base) ∨ base + 16 ≤ a.1 ∧ a.1 < a.2 ∧ a.2 ≤ t.brk)) ∧
    ∀ b ∈ used, Apart b a

theorem size_lt (layout : Layout base s nodes used) {x y : ℕ} (high : y ≤ s.brk)
    {k : ℕ} (size : y = x + 16 * k) (low : base + 16 ≤ x) : uint k = k := by
  have bound := layout.brk.2
  unfold uint
  omega

theorem fits_of_mem (layout : Layout base s nodes (b :: used)) (brk : t.brk = s.brk)
    (member : a ∈ nodes) (same : t.size a.1 = s.size a.1) : Fits base t used a := by
  have own := layout.blocks a member
  refine ⟨?_, fun u among => layout.across u (List.mem_cons_of_mem _ among) a member⟩
  rw [brk, show t.stop a.1 = s.stop a.1 by rw [Heap.stop, Heap.stop, same]]
  exact own

theorem apart_of_busy (layout : Layout base s nodes (b :: used)) (member : a ∈ nodes) :
    a.1 ≠ b.1 := by
  have range := layout.busy b List.mem_cons_self
  have off := layout.across b List.mem_cons_self a member
  simp only [Apart] at off
  rcases (layout.blocks a member).2 with rfl | real
  · dsimp only at off ⊢
    omega
  · omega

theorem fresh_of_busy (layout : Layout base s nodes (b :: used)) : b.1 ∉ nodes.map Prod.fst := by
  intro member
  obtain ⟨a, among, same⟩ := List.mem_map.mp member
  exact layout.apart_of_busy among same

theorem firsts (split : nodes = front ++ p :: back) :
    nodes.map Prod.fst = front.map Prod.fst ++ p.1 :: back.map Prod.fst := by
  simp [split]

/-- What `joinUpper` makes of the block and of the nodes behind `p`. -/
structure Joined (base : ℕ) (s : Heap) (front back used : List (ℕ × ℕ)) (p b : ℕ × ℕ)
    (joined : ℕ × ℕ) (rest : List (ℕ × ℕ)) : Prop where
  list : joinNext b back = joined :: rest
  start : joined.1 = b.1
  stop : joined.2 = b.1 + 16 * s.grown b.1 p.1
  proper : joined.1 < joined.2
  high : joined.2 ≤ s.brk
  apart : ∀ u ∈ used, Apart joined u
  sublist : rest.Sublist back
  ring : Rings (Function.update s.ptr p.1 (s.upper b.1 p.1))
    (front.map Prod.fst ++ p.1 :: rest.map Prod.fst)

theorem joined (layout : Layout base s nodes (b :: used)) (split : nodes = front ++ p :: back) :
    ∃ joined rest, Joined base s front back used p b joined rest := by
  obtain ⟨stopB, startB, properB, endB⟩ := layout.busy b List.mem_cons_self
  have apartB : ∀ u ∈ used, Apart b u := (List.pairwise_cons.mp layout.apart).1
  have ring := layout.ring
  have nodup := layout.nodup
  rw [firsts split] at ring nodup
  rcases joinNext_cases b back with ⟨alone, gap⟩ | ⟨c, rest, rfl, touch, list⟩
  · have test : s.stop b.1 ≠ s.ptr p.1 := by
      rw [← stopB]
      rcases layout.next split with ⟨-, link⟩ | ⟨c, rest, rfl, link⟩
      · omega
      · rw [link]
        exact gap c rfl
    have grown : s.grown b.1 p.1 = s.size b.1 := if_neg test
    refine ⟨b, back, alone, rfl, by rw [grown]; exact stopB, properB, endB, apartB,
      List.Sublist.refl _, ?_⟩
    rw [Heap.upper, if_neg test, Function.update_eq_self]
    exact ring
  · have member : c ∈ nodes := by simp [split]
    have link : s.ptr p.1 = c.1 := by
      rcases layout.next split with ⟨none, -⟩ | ⟨d, others, same, link⟩
      · simp at none
      · rw [link, (List.cons.inj same).1]
    have test : s.stop b.1 = s.ptr p.1 := by rw [← stopB, link, touch]
    obtain ⟨stopC, startC, properC, endC⟩ :
        c.2 = s.stop c.1 ∧ base + 16 ≤ c.1 ∧ c.1 < c.2 ∧ c.2 ≤ s.brk := by
      obtain ⟨stop, rfl | range⟩ := layout.blocks c member
      · dsimp only at touch
        omega
      · exact ⟨stop, range⟩
    have sum : c.2 = b.1 + 16 * (s.size b.1 + s.size c.1) := by
      simp only [Heap.stop] at stopB stopC
      omega
    have grown : s.grown b.1 p.1 = s.size b.1 + s.size c.1 := by
      rw [Heap.grown, if_pos test, link, layout.size_lt endC sum startB]
    refine ⟨(b.1, c.2), rest, list, rfl, by rw [grown]; exact sum, ?_, endC, fun u among => ?_,
      List.sublist_cons_self .., ?_⟩
    · dsimp only
      omega
    · have properU := (layout.busy u (List.mem_cons_of_mem _ among)).2.2.1
      have off := apartB u among
      have offC := layout.across u (List.mem_cons_of_mem _ among) c member
      simp only [Apart] at off offC ⊢
      omega
    · rw [Heap.upper, if_pos test, link]
      exact ring.bypass nodup

/-- A layout of the heap after `free`, from its ring and its blocks. -/
theorem release_of (layout : Layout base s nodes (b :: used)) (split : nodes = front ++ p :: back)
    (high : ∀ c ∈ back, b.2 ≤ c.1) {list : List (ℕ × ℕ)}
    (list_eq : list = front ++ joinNext p (joinNext b back)) (low : p.2 ≤ b.1)
    (rings : Rings (s.place b.1 p.1).ptr (list.map Prod.fst))
    (fits : ∀ a ∈ list, Fits base (s.place b.1 p.1) used a)
    (first : list.head? = some (base, base)) (here : p.1 ∈ list.map Prod.fst) :
    Layout base (s.place b.1 p.1) list used := by
  obtain ⟨freep, brk, -, core⟩ := s.place_rest b.1 p.1
  have proper := (layout.busy b List.mem_cons_self).2.2.1.le
  have separated : Separated (front ++ p :: back) := split ▸ layout.separated
  have memberP : p ∈ nodes := by simp [split]
  have size := s.place_size (layout.apart_of_busy memberP)
  refine ⟨layout.positive, first, rings, list_eq ▸ separated.insert proper low high, freep ▸ here,
    fun a member => (fits a member).1, fun u among => ?_, (List.pairwise_cons.mp layout.apart).2,
    fun u among a member => (fits a member).2 u among, fun x => ?_, brk ▸ layout.brk⟩
  · obtain ⟨stop, range⟩ := layout.busy u (List.mem_cons_of_mem _ among)
    have offP := (layout.perm_cons among).apart_of_busy memberP
    have offB : u.1 ≠ b.1 := by
      have apart := (List.pairwise_cons.mp layout.apart).1 u among
      have properB := (layout.busy b List.mem_cons_self).2.2.1
      simp only [Apart] at apart
      omega
    rw [Heap.stop, size, Function.update_of_ne offP.symm, Function.update_of_ne offB, brk]
    exact ⟨stop, range⟩
  · rw [core, layout.core, list_eq, separated.covers_insert proper high, ← split, covers_cons]
    tauto

theorem place_fits (layout : Layout base s nodes (b :: used)) (inside : p ∈ nodes)
    (member : a ∈ nodes) (apart : a.1 ≠ p.1) : Fits base (s.place b.1 p.1) used a := by
  obtain ⟨-, brk, -, -⟩ := s.place_rest b.1 p.1
  refine layout.fits_of_mem brk member ?_
  rw [s.place_size (layout.apart_of_busy inside), Function.update_of_ne apart,
    Function.update_of_ne (layout.apart_of_busy member)]

/-- The block in use is put in behind `p` and joined with its neighbours. -/
theorem release (layout : Layout base s nodes (b :: used)) (split : nodes = front ++ p :: back)
    (low : p.2 ≤ b.1) (high : ∀ c ∈ back, b.2 ≤ c.1) :
    Layout base (s.place b.1 p.1) (front ++ joinNext p (joinNext b back)) used := by
  obtain ⟨joined, rest, upper⟩ := layout.joined split
  obtain ⟨-, startB, -, -⟩ := layout.busy b List.mem_cons_self
  obtain ⟨-, brk, -, -⟩ := s.place_rest b.1 p.1
  have memberP : p ∈ nodes := by simp [split]
  obtain ⟨stopP, kindP⟩ := layout.blocks p memberP
  have notP := layout.apart_of_busy memberP
  have ptr := s.place_ptr notP
  have size := s.place_size notP
  have touch : s.stop p.1 = b.1 ↔ p.2 = b.1 := by rw [stopP]
  -- the nodes in front of `p` and behind it stay as they are
  have early : ∀ a ∈ front, Fits base (s.place b.1 p.1) used a := fun a member =>
    layout.place_fits memberP (by simp [split, member]) (by
      have order := layout.before split member
      have proper := layout.separated.proper a (by simp [split, member])
      omega)
  have late : ∀ a ∈ rest, Fits base (s.place b.1 p.1) used a := fun a member =>
    have behind := upper.sublist.subset member
    layout.place_fits memberP (by simp [split, behind]) (by
      have order := layout.after split behind
      have proper := layout.separated.proper p memberP
      omega)
  have nodup := layout.nodup
  have fresh := layout.fresh_of_busy
  rw [firsts split] at nodup fresh
  have shorter : (front.map Prod.fst ++ p.1 :: rest.map Prod.fst).Sublist
      (front.map Prod.fst ++ p.1 :: back.map Prod.fst) :=
    ((upper.sublist.map Prod.fst).cons_cons p.1).append_left _
  have absent : b.1 ∉ front.map Prod.fst ++ p.1 :: rest.map Prod.fst := fun member =>
    fresh (shorter.subset member)
  have list := upper.list
  rcases joinNext_cases p (joined :: rest) with ⟨free, apart⟩ | ⟨d, tail, same, touches, more⟩
  · have gap : s.stop p.1 ≠ b.1 := fun same =>
      apart joined rfl ((touch.mp same).trans upper.start.symm)
    rw [if_neg gap] at ptr size
    rw [list, free]
    refine layout.release_of split high (by rw [list, free]) low ?_ ?_ ?_ (by simp)
    · rw [List.map_append, List.map_cons, List.map_cons, upper.start]
      refine (upper.ring.splice (nodup.sublist shorter) absent).congr fun a _ => ?_
      rw [ptr]
      by_cases here : a = p.1
      · rw [here, Function.update_self, Function.update_self]
      · by_cases there : a = b.1
        · simp [there, notP.symm]
        · simp [here, there]
    · intro a member
      simp only [List.mem_append, List.mem_cons] at member
      rcases member with one | rfl | rfl | two
      · exact early a one
      · exact layout.fits_of_mem brk memberP (by rw [size, Function.update_self])
      · refine ⟨⟨?_, .inr ⟨upper.start ▸ startB, upper.proper, brk ▸ upper.high⟩⟩,
          fun u among => (upper.apart u among).symm⟩
        rw [Heap.stop, upper.start, size, Function.update_of_ne notP.symm, Function.update_self]
        exact upper.stop
      · exact late a two
    · exact layout.head_of split
  · obtain ⟨rfl, rfl⟩ := List.cons.inj same
    rw [upper.start] at touches
    rw [if_pos (touch.mpr touches)] at ptr size
    have notBase : p ≠ (base, base) := by
      rintro rfl
      dsimp only at touches
      omega
    obtain ⟨startP, properP, -⟩ := kindP.resolve_left notBase
    have sum : joined.2 = p.1 + 16 * (s.size p.1 + s.grown b.1 p.1) := by
      have stop := upper.stop
      simp only [Heap.stop] at stopP
      omega
    rw [list, more]
    refine layout.release_of split high (by rw [list, more]) low ?_ ?_ ?_ (by simp)
    · rw [List.map_append, List.map_cons]
      refine upper.ring.congr fun a member => ?_
      have apart : a ≠ b.1 := fun same => absent (same ▸ member)
      rw [ptr]
      by_cases here : a = p.1
      · rw [here, Function.update_self, Function.update_self]
      · rw [Function.update_of_ne here, Function.update_of_ne apart, Function.update_of_ne here]
    · intro a member
      simp only [List.mem_append, List.mem_cons] at member
      rcases member with one | rfl | two
      · exact early a one
      · refine ⟨⟨?_, .inr ⟨startP, ?_, brk ▸ upper.high⟩⟩, fun u among => ?_⟩
        · rw [Heap.stop, size, Function.update_self, layout.size_lt upper.high sum startP]
          exact sum
        · have proper := upper.proper
          have start := upper.start
          dsimp only
          omega
        · have properU := (layout.busy u (List.mem_cons_of_mem _ among)).2.2.1
          have off := upper.apart u among
          have offP := layout.across u (List.mem_cons_of_mem _ among) p memberP
          have start := upper.start
          simp only [Apart] at off offP ⊢
          omega
      · exact late a two
    · have first := layout.head
      rw [split] at first
      cases front with
      | nil => exact absurd (Option.some.inj first) notBase
      | cons d front => exact first

variable {q : ℕ}

theorem size_base (layout : Layout base s nodes used) : s.size base = 0 := by
  have stop := (layout.blocks _ layout.base_mem).1
  simp only [Heap.stop] at stop
  omega

theorem split_prev (layout : Layout base s nodes used) (inside : p ∈ nodes)
    (room : 0 < s.size p.1) (prev : q ∈ nodes.map Prod.fst) (link : s.ptr q = p.1) :
    ∃ front d back, nodes = front ++ d :: p :: back ∧ d.1 = q ∧
      base + 16 ≤ p.1 ∧ p.1 < p.2 ∧ p.2 ≤ s.brk := by
  have notBase : p ≠ (base, base) := by
    rintro rfl
    rw [layout.size_base] at room
    omega
  obtain ⟨front, back, split⟩ := List.append_of_mem inside
  rcases List.eq_nil_or_concat front with rfl | ⟨front, d, rfl⟩
  · have first := layout.head
    rw [split] at first
    exact absurd (Option.some.inj first) notBase
  · have whole : nodes = front ++ d :: p :: back := by simpa using split
    refine ⟨front, d, back, whole, ?_, ((layout.blocks p inside).2.resolve_left notBase)⟩
    rcases layout.next whole with ⟨none, -⟩ | ⟨c, rest, same, here⟩
    · simp at none
    · obtain ⟨rfl, rfl⟩ := List.cons.inj same
      refine layout.ring.injective ?_ prev (here.trans link.symm)
      simp [whole]

theorem take_whole (layout : Layout base s nodes used) (inside : p ∈ nodes)
    (room : 0 < s.size p.1) (prev : q ∈ nodes.map Prod.fst) (link : s.ptr q = p.1) :
    ∃ nodes', Layout base { s.setPtr q (s.ptr p.1) with freep := q } nodes' (p :: used) := by
  obtain ⟨front, d, back, split, rfl, range⟩ := layout.split_prev inside room prev link
  have member : ∀ a ∈ front ++ d :: back, a ∈ nodes := by
    intro a among
    rw [split]
    simp only [List.mem_append, List.mem_cons] at among ⊢
    tauto
  have whole : nodes = (front ++ [d]) ++ p :: back := by simpa using split
  have firsts : nodes.map Prod.fst = front.map Prod.fst ++ d.1 :: p.1 :: back.map Prod.fst := by
    simp [split]
  have ring := layout.ring
  have nodup := layout.nodup
  rw [firsts] at ring nodup
  refine ⟨front ++ d :: back, layout.positive, ?_, ?_, ⟨?_, fun a among =>
    layout.separated.proper a (member a among)⟩, by simp, fun a among =>
    layout.blocks a (member a among), fun u among => ?_, ?_, fun u among a here => ?_, fun x => ?_,
    layout.brk⟩
  · exact layout.head_of split
  · rw [List.map_append, List.map_cons]
    exact ring.bypass nodup
  · have apart := layout.separated.apart
    rw [split] at apart
    exact apart.sublist (by simp)
  · rcases List.mem_cons.mp among with rfl | old
    · exact ⟨(layout.blocks u inside).1, range⟩
    · exact layout.busy u old
  · exact List.pairwise_cons.mpr
      ⟨fun u among => (layout.across u among p inside).symm, layout.apart⟩
  · rcases List.mem_cons.mp among with rfl | old
    · simp only [List.mem_append, List.mem_cons] at here
      rcases here with before | rfl | after
      · exact .inr (layout.before whole (by simp [before])).le
      · exact .inr (layout.before whole (by simp)).le
      · exact .inl (layout.after whole after).le
    · exact layout.across u old a (member a here)
  · show covers s.core x ↔ _
    have short : front ++ d :: back = (front ++ [d]) ++ back := by simp
    rw [layout.core, whole, covers_middle, ← short, covers_cons]
    tauto

theorem mem_cut (layout : Layout base s nodes used) (split : nodes = front ++ p :: back)
    (member : a ∈ front ++ c :: back) : a = c ∨ a ∈ nodes ∧ (a.2 < p.1 ∨ p.2 < a.1) := by
  rw [List.mem_append, List.mem_cons] at member
  rcases member with early | rfl | late
  · exact .inr ⟨by simp [split, early], .inl (layout.before split early)⟩
  · exact .inl rfl
  · exact .inr ⟨by simp [split, late], .inr (layout.after split late)⟩

theorem take_tail (layout : Layout base s nodes used) (inside : p ∈ nodes)
    (prev : q ∈ nodes.map Prod.fst) (link : s.ptr q = p.1) (some : 0 < n)
    (more : n < s.size p.1) :
    ∃ nodes', Layout base { (s.setSize p.1 (s.size p.1 - n)).setSize
      (p.1 + 16 * (s.size p.1 - n)) n with freep := q } nodes'
        ((p.1 + 16 * (s.size p.1 - n), p.1 + 16 * (s.size p.1 - n) + 16 * n) :: used) := by
  obtain ⟨front, d, back, split, rfl, low, proper, high⟩ :=
    layout.split_prev inside (by omega) prev link
  have whole : nodes = (front ++ [d]) ++ p :: back := by simpa using split
  have stop := (layout.blocks p inside).1
  simp only [Heap.stop] at stop
  obtain ⟨m, rest⟩ : ∃ m, s.size p.1 = m + n := ⟨s.size p.1 - n, by omega⟩
  rw [rest] at stop more ⊢
  rw [Nat.add_sub_cancel]
  have separated := layout.separated
  rw [whole] at separated
  -- the headers away from `p` are as they were
  have size : ∀ x, x ≠ p.1 → x ≠ p.1 + 16 * m →
      ((s.setSize p.1 m).setSize (p.1 + 16 * m) n).size x = s.size x := by
    intro x first second
    rw [Heap.setSize_of_ne second, Heap.setSize_of_ne first]
  refine ⟨(front ++ [d]) ++ (p.1, p.1 + 16 * m) :: back, layout.positive, ?_, ?_,
    separated.cut (by omega) (by omega), by simp, fun a among => ?_, fun u among => ?_, ?_,
    fun u among a here => ?_, fun x => ?_, layout.brk⟩
  · rw [List.append_assoc]
    exact layout.head_of split
  · have ring := layout.ring
    rw [whole] at ring
    simpa [Heap.setSize] using ring
  · rcases layout.mem_cut whole among with rfl | ⟨old, order⟩
    · refine ⟨?_, .inr ⟨low, ?_, ?_⟩⟩
      · simp only [Heap.stop]
        rw [Heap.setSize_of_ne (by omega), Heap.setSize_self]
      · dsimp only
        omega
      · show p.1 + 16 * m ≤ s.brk
        omega
    · have own := layout.blocks a old
      have proper := layout.separated.proper a old
      simp only [Heap.stop] at own ⊢
      rw [size a.1 (by omega) (by omega)]
      exact own
  · rcases List.mem_cons.mp among with rfl | old
    · refine ⟨?_, ?_, ?_, ?_⟩
      · simp only [Heap.stop]
        rw [Heap.setSize_self]
      · dsimp only
        omega
      · dsimp only
        omega
      · show p.1 + 16 * m + 16 * n ≤ s.brk
        omega
    · have own := layout.busy u old
      have off := layout.across u old p inside
      simp only [Apart, Heap.stop] at own off ⊢
      rw [size u.1 (by omega) (by omega)]
      exact own
  · refine List.pairwise_cons.mpr ⟨fun u among => ?_, layout.apart⟩
    have range := layout.busy u among
    have off := layout.across u among p inside
    simp only [Apart] at off ⊢
    omega
  · rcases List.mem_cons.mp among with rfl | old <;>
      rcases layout.mem_cut whole here with rfl | ⟨node, order⟩
    · exact .inr le_rfl
    · simp only [Apart]
      omega
    · have range := layout.busy u old
      have off := layout.across u old p inside
      simp only [Apart] at off ⊢
      omega
    · exact layout.across u old a node
  · show covers s.core x ↔ _
    have finish : p.2 = p.1 + 16 * m + 16 * n := by omega
    rw [layout.core, whole, covers_cut (y := p.1 + 16 * m) (by omega) (by omega), covers_cons,
      finish, or_assoc]

/-- `malloc` cuts its block out of a node with room. -/
theorem take (layout : Layout base s nodes used) (inside : p ∈ nodes)
    (prev : q ∈ nodes.map Prod.fst) (link : s.ptr q = p.1) (some : 0 < n) (room : n ≤ s.size p.1) :
    ∃ nodes' x, (s.take n q p.1).2 = x + 16 ∧
      Layout base (s.take n q p.1).1 nodes' ((x, x + 16 * n) :: used) := by
  by_cases exact_ : s.size p.1 = n
  · obtain ⟨nodes', whole⟩ := layout.take_whole inside (by omega) prev link
    have stop := (layout.blocks p inside).1
    rw [Heap.stop, exact_] at stop
    rw [Heap.take, if_pos exact_]
    refine ⟨nodes', p.1, rfl, ?_⟩
    rw [← stop]
    exact whole
  · obtain ⟨nodes', tail⟩ := layout.take_tail inside prev link some (by omega)
    rw [Heap.take, if_neg exact_]
    exact ⟨nodes', _, rfl, tail⟩

end Layout

end OsLab.User.Umalloc
